/-
  DocWire.Text.Quoted — the quoted form of texts in messages.

  A quoted text stands between double quotes. The quote itself, the backslash, line feed, carriage
  return, tab and NUL are written with a backslash; any other hidden character as `\u` with its code
  in braces, in hexadecimal without leading zeros. A lone character stands between apostrophes, and
  there the apostrophe is the one that is escaped.
-/

import DocWire.Text.Printable

namespace DocWire.Text

/-- The code of a character in braces, behind `\u`. -/
def escapeCode (c : Char) : List Char :=
  ['\\', 'u', '\x7b'] ++ Nat.toDigits 16 c.toNat ++ ['\x7d']

/-- One character inside quotes that are written with `mark`. -/
def escapeIn (mark : Char) (c : Char) : List Char :=
  if c == mark || c == '\\' then ['\\', c]
  else if c == '\x00' then ['\\', '0']
  else if c == '\t' then ['\\', 't']
  else if c == '\r' then ['\\', 'r']
  else if c == '\n' then ['\\', 'n']
  else if isHidden c then escapeCode c
  else [c]

/-- A text in double quotes. -/
def quote (s : String) : String :=
  String.ofList (['\x22'] ++ s.toList.flatMap (escapeIn '\x22') ++ ['\x22'])

/-- A character in apostrophes. -/
def quoteChar (c : Char) : String :=
  String.ofList (['\x27'] ++ escapeIn '\x27' c ++ ['\x27'])

/-- Texts in double quotes, separated by commas, in brackets. -/
def quoteList (texts : List String) : String :=
  "[" ++ ", ".intercalate (texts.map quote) ++ "]"

end DocWire.Text
