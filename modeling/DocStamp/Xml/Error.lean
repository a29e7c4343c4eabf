/-
What can be wrong with an XML document, and where.

Places are given by line and column, both from 1 and in characters.
-/
import DocStamp.Text.Quoted

namespace DocStamp.Xml

/-- A line and a column, both counted from 1. -/
structure Position where
  line : Nat
  column : Nat
deriving DecidableEq, Repr

def Position.text (p : Position) : String := s!"{p.line}:{p.column}"

/-- The first fault of a document, in document order. -/
inductive Error where
  | xmlPrefixMisused (at_ : Position)
  | xmlSpaceMisused (at_ : Position)
  | declaredXmlns (at_ : Position)
  | elementXmlns (at_ : Position)
  | duplicateSpace (name : String) (at_ : Position)
  | unknownSpace (name : String) (at_ : Position)
  | closeTag (expected actual : String) (at_ : Position)
  | malformedReference (at_ : Position)
  | unknownReference (name : String) (at_ : Position)
  | duplicateAttribute (name : String) (at_ : Position)
  | noRoot
  | unclosedRoot
  | declaration (at_ : Position)
  | documentType
  | name (at_ : Position)
  | illegalChar (c : Char) (at_ : Position)
  | char (expected : Char) (actual : Char) (at_ : Position)
  | quote (actual : Char) (at_ : Position)
  | blank (actual : Char) (at_ : Position)
  | string (expected : String) (at_ : Position)
  | comment (at_ : Position)
  | sectionEnd (at_ : Position)
  | unknownToken (at_ : Position)
  | endOfStream
deriving DecidableEq, Repr

def Error.message : Error → String
  | .xmlPrefixMisused p => s!"'xml' namespace prefix mapped to wrong URI at {p.text}"
  | .xmlSpaceMisused p => s!"the 'xml' namespace URI is used for not 'xml' prefix at {p.text}"
  | .declaredXmlns p => s!"the 'xmlns' URI is used at {p.text}, but it must not be declared"
  | .elementXmlns p => s!"the 'xmlns' prefix is used at {p.text}, but it must not be"
  | .duplicateSpace n p => s!"namespace '{n}' at {p.text} is already defined"
  | .unknownSpace n p => s!"an unknown namespace prefix '{n}' at {p.text}"
  | .closeTag e a p => s!"expected '{e}' tag, not '{a}' at {p.text}"
  | .malformedReference p => s!"malformed entity reference at {p.text}"
  | .unknownReference n p => s!"unknown entity reference '{n}' at {p.text}"
  | .duplicateAttribute n p => s!"attribute '{n}' at {p.text} is already defined"
  | .noRoot => "the document does not have a root node"
  | .unclosedRoot => "the root node was opened but never closed"
  | .declaration p => s!"unexpected XML declaration at {p.text}"
  | .documentType => "XML with DTD detected"
  | .name p => s!"invalid name token at {p.text}"
  | .illegalChar c p => s!"a non-XML character {Text.quoteSingle c} found at {p.text}"
  | .char e a p => s!"expected '{e}' not '{a}' at {p.text}"
  | .quote a p => s!"expected a quote not '{a}' at {p.text}"
  | .blank a p => s!"expected a whitespace not '{a}' at {p.text}"
  | .string e p => s!"expected '{e}' at {p.text}"
  | .comment p => s!"comment at {p.text} contains '--'"
  | .sectionEnd p => s!"']]>' at {p.text} is not allowed inside a character data"
  | .unknownToken p => s!"unknown token at {p.text}"
  | .endOfStream => "unexpected end of stream"

end DocStamp.Xml
