/-
  DocWire.Markup.Written — elements as they are written.

  Names carry their prefixes, attribute values are plain texts. An element without children closes itself.
  With an indent every tag stands on a line of its own; without one there is no white space between tags.
-/

import DocWire.Markup.Reference

namespace DocWire.Markup

inductive Written where
  | mk (name : String) (attributes : List (String × String)) (children : List Written)
  deriving Inhabited, Repr

namespace Written

/-- The attributes of a tag, each behind a space. -/
def attributeText : List (String × String) → String
  | [] => ""
  | (name, value) :: rest => " " ++ name ++ "=\"" ++ escape value ++ "\"" ++ attributeText rest

mutual

/-- The tags of an element, each with its depth. -/
def lines (depth : Nat) : Written → List (Nat × String)
  | .mk name attributes [] => [(depth, "<" ++ name ++ attributeText attributes ++ "/>")]
  | .mk name attributes (child :: rest) =>
    (depth, "<" ++ name ++ attributeText attributes ++ ">") ::
      (lines (depth + 1) child ++ (linesOfAll (depth + 1) rest ++ [(depth, "</" ++ name ++ ">")]))

def linesOfAll (depth : Nat) : List Written → List (Nat × String)
  | [] => []
  | e :: rest => lines depth e ++ linesOfAll depth rest

end

/-- The declaration that may stand before the element. -/
def declaration : String := "<?xml version=\"1.0\" encoding=\"UTF-8\"?>"

/-- The text of an element, with `indent` spaces for each level, or on one line for none. -/
def text (e : Written) (indent : Nat) (declared : Bool) : String :=
  let all := (if declared then [(0, declaration)] else []) ++ lines 0 e
  if indent = 0 then String.join (all.map (·.2))
  else "\n".intercalate (all.map fun (depth, tag) => String.ofList (List.replicate (depth * indent) ' ') ++ tag)

end Written

end DocWire.Markup
