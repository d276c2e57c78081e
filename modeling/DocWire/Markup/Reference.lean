/-
  DocWire.Markup.Reference — characters that are written as references.

  Writing replaces the five characters that mean something in a tag. Reading takes the same five names and
  the codes of characters, decimal or hexadecimal; a reference runs from `&` to the next `;`.
-/

import DocWire.Markup.Fault
import DocWire.Number.Integer

namespace DocWire.Markup

/-- The five named characters. -/
def entities : List (String × Char) :=
  [("lt", '<'), ("gt", '>'), ("amp", '&'), ("apos", '\x27'), ("quot", '\x22')]

/-! ## Writing -/

def escapeChar (c : Char) : List Char :=
  match entities.find? (·.2 == c) with
  | some (name, _) => '&' :: name.toList ++ [';']
  | none => [c]

def escape (s : String) : String := String.ofList (s.toList.flatMap escapeChar)

/-! ## Reading -/

/-- The character with a code that is neither 0 nor a surrogate nor beyond the last. -/
def charOfCode? (n : Nat) : Option Char :=
  if h : n.isValidChar then (if n = 0 then none else some (Char.ofNatAux n h)) else none

/-- The character that a reference stands for, given what is between `&` and `;`. -/
def resolveReference (body : List Char) : Except TagFault Char :=
  match body with
  | '#' :: 'x' :: digits => ofCode (Number.digitsIn? 16 digits)
  | '#' :: digits => ofCode (Number.digitsIn? 10 digits)
  | _ =>
    match entities.lookup (String.ofList body) with
    | some c => .ok c
    | none => .error (.unknownReference (String.ofList body))
where
  ofCode (code? : Option Nat) : Except TagFault Char :=
    match code?.bind charOfCode? with
    | some c => .ok c
    | none => .error (.badCharacterReference (String.ofList body))

/-- Resolves references; `reference?` holds the characters since the last `&`, last one first. -/
def unescapeFrom (reference? : Option (List Char)) : List Char → Except TagFault (List Char)
  | [] => if reference?.isNone then .ok [] else .error .unterminatedReference
  | c :: rest =>
    match reference? with
    | none =>
      if c = '&' then unescapeFrom (some []) rest else (unescapeFrom none rest).map (c :: ·)
    | some body =>
      if c = '&' then .error .unterminatedReference
      else if c = ';' then
        match resolveReference body.reverse with
        | .error e => .error e
        | .ok d => (unescapeFrom none rest).map (d :: ·)
      else unescapeFrom (some (c :: body)) rest

/-- A text with its references resolved. -/
def unescape (s : String) : Except TagFault String :=
  (unescapeFrom none s.toList).map String.ofList

end DocWire.Markup
