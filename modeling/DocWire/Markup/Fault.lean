/-
  DocWire.Markup.Fault — why a text is no single well-formed element.
-/

import DocWire.Text.Quoted

namespace DocWire.Markup

/-- Faults of the text itself: tags, attributes, references and reserved prefixes. -/
inductive TagFault where
  | unclosedTag
  | unclosedComment
  | unclosedInstruction
  | unclosedSection
  | unclosedDoctype
  | missingDoctypeName
  | badDeclaration
  | mismatchedEnd (expected found : String)
  | unmatchedEnd (found : String)
  | attributeForm
  | repeatedAttribute (name : String)
  | unterminatedReference
  | unknownReference (name : String)
  | badCharacterReference (body : String)
  | reservedPrefix (name : String)
  deriving DecidableEq, Repr

def TagFault.message : TagFault → String
  | .unclosedTag => "tag is not closed"
  | .unclosedComment => "comment is not closed"
  | .unclosedInstruction => "processing instruction is not closed"
  | .unclosedSection => "character section is not closed"
  | .unclosedDoctype => "document type is not closed"
  | .missingDoctypeName => "document type has no name"
  | .badDeclaration => "unknown declaration"
  | .mismatchedEnd expected found => "end tag " ++ found ++ " where " ++ expected ++ " is open"
  | .unmatchedEnd found => "end tag " ++ found ++ " where nothing is open"
  | .attributeForm => "attribute is not of the form name, equals sign, quoted value"
  | .repeatedAttribute name => "attribute " ++ name ++ " is repeated"
  | .unterminatedReference => "reference is not terminated"
  | .unknownReference name => "reference to unknown entity " ++ name
  | .badCharacterReference body => "reference to no character: " ++ body
  | .reservedPrefix name => "reserved prefix: " ++ name

inductive Malformed where
  | notUtf8
  | tag (fault : TagFault)
  | undeclaredPrefix (name : String)
  /-- A second element beside the root, shown with its namespace. -/
  | secondRoot (element : String)
  | unbalancedEnd
  | characterData (text : String)
  | characterSection
  /-- The innermost element that is open at the end. -/
  | unclosedElement (element : String)
  | noRoot
  deriving DecidableEq, Repr

/-- Whether tags and references are sound, and only what they nest into is no single element. -/
def Malformed.isStructural : Malformed → Bool
  | .notUtf8 => false
  | .tag _ => false
  | _ => true

def Malformed.message : Malformed → String
  | .notUtf8 => "invalid utf-8"
  | .tag fault => fault.message
  | .undeclaredPrefix name => "undeclared namespace prefix " ++ Text.quote name
  | .secondRoot element => "second root element " ++ element
  | .unbalancedEnd => "unbalanced end tag"
  | .characterData text => "unexpected character data " ++ Text.quote text
  | .characterSection => "unexpected CDATA section"
  | .unclosedElement element => "unclosed element " ++ element
  | .noRoot => "no root element"

end DocWire.Markup
