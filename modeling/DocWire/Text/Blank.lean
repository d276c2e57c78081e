/-
  DocWire.Text.Blank — white space, and cutting it off both ends of a text.

  The class is the Unicode property White_Space: 25 code points. The zero-width
  space and the byte-order mark are not in it, so they stay where they are.
-/

namespace DocWire.Text

/-- The code points with the property White_Space, as ranges in ascending order. -/
def blankRanges : List (Nat × Nat) :=
  [(0x09, 0x0d), (0x20, 0x20), (0x85, 0x85), (0xa0, 0xa0), (0x1680, 0x1680), (0x2000, 0x200a),
   (0x2028, 0x2029), (0x202f, 0x202f), (0x205f, 0x205f), (0x3000, 0x3000)]

/-- Membership in an ascending list of ranges. -/
def inRanges (ranges : List (Nat × Nat)) (n : Nat) : Bool :=
  ranges.any fun (low, high) => low ≤ n && n ≤ high

def isBlank (c : Char) : Bool := inRanges blankRanges c.toNat

/-- Drops what satisfies `p` from both ends. -/
def trimBoth (p : Char → Bool) (s : List Char) : List Char :=
  ((s.dropWhile p).reverse.dropWhile p).reverse

/-- A text without the white space at its ends. -/
def trim (s : List Char) : List Char := trimBoth isBlank s

/-- The four characters that separate the parts of a markup tag: space, tab, line feed, carriage
return. -/
def isMarkupSpace (c : Char) : Bool := c == ' ' || c == '\t' || c == '\n' || c == '\r'

end DocWire.Text
