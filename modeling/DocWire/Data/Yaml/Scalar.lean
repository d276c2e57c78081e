/-
  DocWire.Data.Yaml.Scalar — the ways in which YAML writes a text.

  A plain scalar stands as it is and ends where it could be taken for something else; a quoted one ends
  with its quote. Both may run over several lines: the blanks around a line break fall away, one break
  counts as a space and further ones stay. A block scalar takes whole lines by their indentation; it keeps
  its line breaks (`|`) or joins lines that start with no blank (`>`).

  `margin` is the first column inside the entries of the innermost block collection, and 0 outside all.
-/

import DocWire.Data.Yaml.Cursor
import DocWire.Number.Integer

namespace DocWire.Yaml

/-! ## Gaps between words -/

/-- Blanks and line breaks inside a scalar. -/
structure Gap where
  blanks : List Char
  /-- Whether the line has ended. -/
  broken : Bool
  /-- The first line break, unless it was escaped. -/
  first? : Option Char
  more : List Char

namespace Gap

def none : Gap := ⟨[], false, Option.none, []⟩

def isEmpty (g : Gap) : Bool := g.blanks.isEmpty && !g.broken

/-- What a gap stands for. -/
def text (g : Gap) : List Char :=
  if g.broken then
    match g.first? with
    | some '\n' => if g.more.isEmpty then [' '] else g.more
    | some b => b :: g.more
    | Option.none => g.more
  else g.blanks

/-- The gap after a line break. -/
def pushBreak (g : Gap) (b : Char) : Gap :=
  if g.broken then { g with more := g.more ++ [b] } else ⟨[], true, some b, []⟩

/-- Reads on to the next word. A tab may not stand before the margin. -/
def read (margin : Nat) : Nat → Gap → Cursor → Option (Gap × Cursor)
  | 0, _, _ => Option.none
  | room + 1, g, c =>
    match c.rest with
    | [] => some (g, c)
    | x :: _ =>
      if isBlank x then
        if !g.broken then read margin room { g with blanks := g.blanks ++ [x] } (c.advance 1)
        else if x == '\t' && c.column < margin then Option.none
        else read margin room g (c.advance 1)
      else
        match c.nextLine? with
        | some (b, next) => read margin room (g.pushBreak b) next
        | Option.none => some (g, c)

end Gap

/-! ## Plain scalars -/

def isFlowIndicator (c : Char) : Bool := c == ',' || c == '[' || c == ']' || c == '\x7b' || c == '\x7d'

/-- Whether a plain scalar may start with `x` before `rest`. -/
def startsPlain (inFlow : Bool) (x : Char) (rest : List Char) : Bool :=
  if x == '-' then !(rest.head?.any isBlank)
  else if x == '?' || x == ':' then !inFlow && !endsWord rest
  else
    !(isBlank x || isBreak x || isFlowIndicator x ||
      ['#', '&', '*', '!', '|', '>', '\x27', '\x22', '%', '@', '\x60'].contains x)

/-- A word of a plain scalar: it ends at a gap, at a colon before one, and inside flow collections at their
indicators. A colon right before one of these is a fault. -/
def plainWord (inFlow : Bool) : List Char → Option (List Char)
  | [] => some []
  | x :: rest =>
    if isBlank x || isBreak x then some []
    else if inFlow && x == ':' && rest.head?.any (fun y => y == '?' || isFlowIndicator y) then none
    else if x == ':' && endsWord rest then some []
    else if inFlow && isFlowIndicator x then some []
    else (plainWord inFlow rest).map (x :: ·)

/-- The words of a plain scalar behind a gap, whether the gap at their end ends the line, and the place
behind it. -/
def plainWords (inFlow : Bool) (margin : Nat) : Nat → Gap → Cursor → Option (List Char × Bool × Cursor)
  | 0, _, _ => none
  | room + 1, g, c =>
    if c.atDocumentMark || c.next? == some '#' then some ([], g.broken, c)
    else
      match plainWord inFlow c.rest with
      | none => none
      | some word =>
        if word.isEmpty then some ([], g.broken, c)
        else
          match Gap.read margin (c.left + 1) .none (c.advance word.length) with
          | none => none
          | some (next, behind) =>
            let text := g.text ++ word
            if next.isEmpty || (!inFlow && behind.column < margin) then some (text, next.broken, behind)
            else
              (plainWords inFlow margin room next behind).map fun (more, broken, c) => (text ++ more, broken, c)

/-- The plain scalar at a place. -/
def readPlain (inFlow : Bool) (margin : Nat) (c : Cursor) : Option (List Char × Bool × Cursor) :=
  plainWords inFlow margin (c.left + 1) .none c

/-! ## Quoted scalars -/

/-- The character that a backslash and `c` stand for. -/
def shortEscape? (c : Char) : Option Char :=
  [('0', '\x00'), ('a', '\x07'), ('b', '\x08'), ('t', '\t'), ('\t', '\t'), ('n', '\n'), ('v', '\x0b'),
    ('f', '\x0c'), ('r', '\r'), ('e', '\x1b'), (' ', ' '), ('\x22', '\x22'), ('/', '/'), ('\\', '\\'),
    ('N', '\u0085'), ('_', '\u00a0'), ('L', '\u2028'), ('P', '\u2029')].lookup c

/-- The number of hexadecimal digits that follow a backslash and `c`. -/
def codeLength? (c : Char) : Option Nat := [('x', 2), ('u', 4), ('U', 8)].lookup c

/-- The character of an escape behind its backslash, and the number of characters that it takes. -/
def escape? (s : List Char) : Option (Char × Nat) :=
  match s with
  | [] => none
  | x :: rest =>
    match shortEscape? x, codeLength? x with
    | some c, _ => some (c, 1)
    | none, some n =>
      if rest.length < n then none
      else
        match Number.digitsIn? 16 (rest.take n) with
        | some code => if code.isValidChar then some (Char.ofNat code, n + 1) else none
        | none => none
    | none, none => none

/-- The rest of a quoted scalar, and the place behind its closing quote. -/
def quotedRest (single : Bool) : Nat → Cursor → Option (List Char × Cursor)
  | 0, _ => none
  | room + 1, c =>
    let behindGap (g : Gap) (c : Cursor) : Option (List Char × Cursor) :=
      match g.read 0 (c.left + 1) c with
      | none => none
      | some (g, c) =>
        if c.atDocumentMark then none
        else (quotedRest single room c).map fun (more, c) => (g.text ++ more, c)
    match c.rest with
    | [] => none
    | x :: rest =>
      if isBlank x || isBreak x then behindGap .none c
      else if single then
        if x == '\x27' then
          if rest.head? == some '\x27' then
            (quotedRest single room (c.advance 2)).map fun (more, c) => ('\x27' :: more, c)
          else some ([], c.advance 1)
        else (quotedRest single room (c.advance 1)).map fun (more, c) => (x :: more, c)
      else if x == '\x22' then some ([], c.advance 1)
      else if x == '\\' then
        match (c.advance 1).nextLine? with
        | some (_, next) => behindGap ⟨[], true, none, []⟩ next
        | none =>
          match escape? rest with
          | none => none
          | some (e, n) => (quotedRest single room (c.advance (n + 1))).map fun (more, c) => (e :: more, c)
      else (quotedRest single room (c.advance 1)).map fun (more, c) => (x :: more, c)

/-- The quoted scalar at a place. -/
def readQuoted (single : Bool) (c : Cursor) : Option (List Char × Cursor) :=
  quotedRest single (c.left + 1) (c.advance 1)

/-! ## Block scalars -/

/-- What becomes of the line breaks at the end of a block scalar: one stays, none, or all. -/
inductive Ending where
  | clip
  | strip
  | keep
  deriving DecidableEq, Repr

def ending? (c : Char) : Option Ending :=
  if c == '-' then some .strip else if c == '+' then some .keep else none

/-- An indentation given in a header: one digit, and not zero. -/
def indentation? (c : Char) : Option Nat := if '1' ≤ c && c ≤ '9' then some (c.toNat - 48) else none

/-- The header behind the indicator, in either order, and the number of its characters. -/
def blockHeader (s : List Char) : Ending × Option Nat × Nat :=
  let first := s.head?
  let second := s[1]?
  match first.bind ending?, first.bind indentation? with
  | some e, _ =>
    match second.bind indentation? with
    | some n => (e, some n, 2)
    | none => (e, none, 1)
  | none, some n =>
    match second.bind ending? with
    | some e => (e, some n, 2)
    | none => (.clip, some n, 1)
  | none, none => (.clip, none, 0)

/-- Passes over empty lines and the indentation of the next one that is not: their line breaks, the widest
indentation among them, and the place. A tab may not stand in the indentation. -/
def blockGap (indent? : Option Nat) : Nat → Nat → Cursor → Option (List Char × Nat × Cursor)
  | 0, _, _ => none
  | room + 1, widest, c =>
    let spaces := (c.rest.takeWhile (· == ' ')).length
    let c := c.advance (match indent? with
      | some indent => min spaces (indent - c.column)
      | none => spaces)
    let widest := max widest c.column
    let inside := match indent? with
      | some indent => c.column < indent
      | none => true
    if inside && c.next? == some '\t' then none
    else
      match c.nextLine? with
      | none => some ([], widest, c)
      | some (b, next) =>
        (blockGap indent? room widest next).map fun (breaks, widest, c) => (b :: breaks, widest, c)

/-- The lines of a block scalar behind a line break (`lead`) and empty lines (`empty`). -/
def blockLines (literal : Bool) (ending : Ending) (indent : Nat) :
    Nat → (lead empty : List Char) → (blankBefore : Bool) → Cursor → Option (List Char × Cursor)
  | 0, _, _, _, _ => none
  | room + 1, lead, empty, blankBefore, c =>
    if c.column == indent && !c.rest.isEmpty then
      let blank := c.next?.any isBlank
      let joint :=
        if !literal && lead == ['\n'] && !blankBefore && !blank then
          if empty.isEmpty then [' '] else empty
        else lead ++ empty
      let line := c.rest.takeWhile (!isBreak ·)
      let c := c.advance line.length
      let (lead, c) := match c.nextLine? with
        | some (b, next) => ([b], next)
        | none => ([], c)
      match blockGap (some indent) (c.left + 1) 0 c with
      | none => none
      | some (empty, _, c) =>
        (blockLines literal ending indent room lead empty blank c).map fun (more, c) =>
          (joint ++ line ++ more, c)
    else
      match ending with
      | .strip => some ([], c)
      | .clip => some (lead, c)
      | .keep => some (lead ++ empty, c)

/-- The block scalar at a place. An indentation in the header counts from the enclosing collection;
otherwise the first line that is not empty gives it. -/
def readBlock (literal : Bool) (margin : Nat) (c : Cursor) : Option (List Char × Cursor) :=
  let c := c.advance 1
  let (ending, given?, n) := blockHeader c.rest
  match (c.advance n).lineEnd? with
  | none => none
  | some c =>
    let indent? := given?.map (margin - 1 + ·)
    match blockGap indent? (c.left + 1) 0 c with
    | none => none
    | some (empty, widest, c) =>
      let indent := indent?.getD (max widest (max margin 1))
      blockLines literal ending indent (c.left + 1) [] empty false c

end DocWire.Yaml
