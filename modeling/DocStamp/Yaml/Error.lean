/-
What can be wrong with a YAML document, and where.

A syntax error has a problem and, mostly, the construct that was being
read when it came up.  A mistake is about a well-formed document that
does not say what was asked for; it carries the path to the value.
Positions at the very start of a document are not shown.
-/
import DocStamp.Text.Choice
import DocStamp.Text.Quoted

namespace DocStamp.Yaml

/-! ## Marks -/

/-- A place in a document; all counts start from 0. -/
structure Mark where
  /-- The number of bytes before it. -/
  index : Nat
  line : Nat
  column : Nat
deriving DecidableEq, Repr

def Mark.isStart (m : Mark) : Bool := m.line == 0 && m.column == 0

/-- A mark behind a message; nothing at the very start. -/
def Mark.suffix (m : Mark) : String :=
  if m.isStart then "" else s!" at line {m.line + 1} column {m.column + 1}"

/-! ## Broken syntax -/

/-- What breaks the syntax. -/
inductive Problem where
  | noDirectiveName
  | directiveNonAlphabetic
  | unknownDirective
  | noCommentOrBreak
  | noDigitOrPoint
  | longVersion
  | noVersion
  | noBlank
  | noBlankOrBreak
  | noExclamation
  | noTagUri
  | noEscapedOctet
  | leadingOctet
  | trailingOctet
  | noClosingAngle
  | noNameChar
  | zeroIndent
  | tabForIndent
  | documentIndicator
  | endOfStream
  | unknownEscape
  | noHexDigit
  | badCodePoint
  | flowColon
  | tabIndent
  | noToken
  | noColon
  | entryNotAllowed
  | keyNotAllowed
  | valueNotAllowed
  | duplicateVersion
  | incompatibleVersion
  | duplicateTag
  | noDocumentStart
  | noNodeContent
  | undefinedHandle
  | noDash
  | noKey
  | noCommaOrBracket
  | noCommaOrBrace
deriving DecidableEq, Repr

def Problem.text : Problem → String
  | .noDirectiveName => "could not find expected directive name"
  | .directiveNonAlphabetic => "found unexpected non-alphabetical character"
  | .unknownDirective => "found unknown directive name"
  | .noCommentOrBreak => "did not find expected comment or line break"
  | .noDigitOrPoint => "did not find expected digit or '.' character"
  | .longVersion => "found extremely long version number"
  | .noVersion => "did not find expected version number"
  | .noBlank => "did not find expected whitespace"
  | .noBlankOrBreak => "did not find expected whitespace or line break"
  | .noExclamation => "did not find expected '!'"
  | .noTagUri => "did not find expected tag URI"
  | .noEscapedOctet => "did not find URI escaped octet"
  | .leadingOctet => "found an incorrect leading UTF-8 octet"
  | .trailingOctet => "found an incorrect trailing UTF-8 octet"
  | .noClosingAngle => "did not find the expected '>'"
  | .noNameChar => "did not find expected alphabetic or numeric character"
  | .zeroIndent => "found an indentation indicator equal to 0"
  | .tabForIndent => "found a tab character where an indentation space is expected"
  | .documentIndicator => "found unexpected document indicator"
  | .endOfStream => "found unexpected end of stream"
  | .unknownEscape => "found unknown escape character"
  | .noHexDigit => "did not find expected hexadecimal number"
  | .badCodePoint => "found invalid Unicode character escape code"
  | .flowColon => "found unexpected ':'"
  | .tabIndent => "found a tab character that violates indentation"
  | .noToken => "found character that cannot start any token"
  | .noColon => "could not find expected ':'"
  | .entryNotAllowed => "block sequence entries are not allowed in this context"
  | .keyNotAllowed => "mapping keys are not allowed in this context"
  | .valueNotAllowed => "mapping values are not allowed in this context"
  | .duplicateVersion => "found duplicate %YAML directive"
  | .incompatibleVersion => "found incompatible YAML document"
  | .duplicateTag => "found duplicate %TAG directive"
  | .noDocumentStart => "did not find expected <document start>"
  | .noNodeContent => "did not find expected node content"
  | .undefinedHandle => "found undefined tag handle"
  | .noDash => "did not find expected '-' indicator"
  | .noKey => "did not find expected key"
  | .noCommaOrBracket => "did not find expected ',' or ']'"
  | .noCommaOrBrace => "did not find expected ',' or '\x7d'"

/-- What was being read. -/
inductive Context where
  | directive
  | versionDirective
  | tagDirective
  | tagDirectiveHandle
  | tagDirectiveEnd
  | tagDirectiveUri
  | tag
  | tagUri
  | anchor
  | alias
  | blockScalar
  | quotedScalar
  | quotedEscape
  | plainScalar
  | nextToken
  | simpleKey
  | node
  | blockNode
  | flowNode
  | blockCollection
  | blockMapping
  | flowSequence
  | flowMapping
deriving DecidableEq, Repr

def Context.text : Context → String
  | .directive => "while scanning a directive"
  | .versionDirective => "while scanning a %YAML directive"
  | .tagDirective => "while scanning a %TAG directive"
  | .tagDirectiveHandle => "while scanning a tag directive"
  | .tagDirectiveEnd => "while parsing a tag directive"
  | .tagDirectiveUri => "while parsing a %TAG directive"
  | .tag => "while scanning a tag"
  | .tagUri => "while parsing a tag"
  | .anchor => "while scanning an anchor"
  | .alias => "while scanning an alias"
  | .blockScalar => "while scanning a block scalar"
  | .quotedScalar => "while scanning a quoted scalar"
  | .quotedEscape => "while parsing a quoted scalar"
  | .plainScalar => "while scanning a plain scalar"
  | .nextToken => "while scanning for the next token"
  | .simpleKey => "while scanning a simple key"
  | .node => "while parsing a node"
  | .blockNode => "while parsing a block node"
  | .flowNode => "while parsing a flow node"
  | .blockCollection => "while parsing a block collection"
  | .blockMapping => "while parsing a block mapping"
  | .flowSequence => "while parsing a flow sequence"
  | .flowMapping => "while parsing a flow mapping"

/-! ## Values of the wrong kind -/

/-- What a value turned out to be, where something else was expected. -/
inductive Found where
  | sequence
  | map
  | unit
  | bool (b : Bool)
  | integer (n : Int)
  /-- An integer beyond 64 bits. -/
  | wide (n : Int)
  | float (text : String)
  | string (s : String)
deriving DecidableEq, Repr

def Found.text : Found → String
  | .sequence => "sequence"
  | .map => "map"
  | .unit => "unit value"
  | .bool true => "boolean `true`"
  | .bool false => "boolean `false`"
  | .integer n => s!"integer `{n}`"
  | .wide n => if 0 ≤ n then s!"integer `{n}` as u128" else s!"integer `{n}` as i128"
  | .float t => s!"floating point `{t}`"
  | .string s => s!"string {Text.quote s}"

/-- How a document misses what was asked for. -/
inductive Mistake where
  | wrongType (found : Found) (expected : String)
  | wrongValue (found : Found) (expected : String)
  | unknownField (name : String) (expected : List String)
  | duplicateField (name : String)
  | missingField (name : String)
  /-- A value that its own reader refused. -/
  | refused (reason : String)
deriving DecidableEq, Repr

def Mistake.text : Mistake → String
  | .wrongType found expected => s!"invalid type: {found.text}, expected {expected}"
  | .wrongValue found expected => s!"invalid value: {found.text}, expected {expected}"
  | .unknownField name expected => s!"unknown field `{name}`, {Text.oneOf expected}"
  | .duplicateField name => s!"duplicate field `{name}`"
  | .missingField name => s!"missing field `{name}`"
  | .refused reason => reason

/-! ## Errors -/

/-- Why a document cannot be read. -/
inductive Error where
  /-- A character that no document may hold, at a byte of the text. -/
  | control (offset : Nat)
  | malformed (problem : Problem) (place : Mark) (context : Option (Context × Mark))
  /-- The document ends where a value is expected. -/
  | missingValue
  | manyDocuments
  | unknownAnchor (place : Mark)
  /-- A mistake and, once known, the path and the mark of the value. -/
  | mistake (m : Mistake) (place : Option (String × Mark))
deriving DecidableEq, Repr

/-- The construct behind a problem, with its mark unless the problem has the same. -/
def contextText (place : Mark) : Option (Context × Mark) → String
  | none => ""
  | some (c, m) =>
      if m.line = place.line ∧ m.column = place.column then s!", {c.text}"
      else s!", {c.text}{m.suffix}"

def Error.message : Error → String
  | .control offset =>
      let where_ := if offset = 0 then "" else s!" at position {offset}"
      s!"control characters are not allowed{where_}"
  | .malformed problem place context => s!"{problem.text}{place.suffix}{contextText place context}"
  | .missingValue => "EOF while parsing a value"
  | .manyDocuments => "deserializing from YAML containing more than one document is not supported"
  | .unknownAnchor place => s!"unknown anchor{place.suffix}"
  | .mistake m none => m.text
  | .mistake m (some (path, place)) =>
      let lead := if path == "." then "" else path ++ ": "
      s!"{lead}{m.text}{place.suffix}"

/-- Gives a mistake that has no place yet the path and the mark of a value. -/
def Error.locate (path : String) (place : Mark) : Error → Error
  | .mistake m none => .mistake m (some (path, place))
  | e => e

end DocStamp.Yaml
