/-
What can be wrong with a JSON text.

A fault of the text itself, or a value other than the one asked for.
-/
import DocStamp.Moment
import DocStamp.Text.Choice
import DocStamp.Text.Quoted

namespace DocStamp.Json

/-- What a value turned out to be, where something else was expected. -/
inductive Found where
  | null
  | bool (b : Bool)
  | integer (n : Int)
  | float (text : String)
  | string (s : String)
  | sequence
  | map
  /-- The bare name of an alternative that needs a value. -/
  | bareVariant
deriving DecidableEq, Repr

def Found.text : Found → String
  | .null => "null"
  | .bool true => "boolean `true`"
  | .bool false => "boolean `false`"
  | .integer n => s!"integer `{n}`"
  | .float t => s!"floating point `{t}`"
  | .string s => s!"string {Text.quote s}"
  | .sequence => "sequence"
  | .map => "map"
  | .bareVariant => "unit variant"

/-- Why a text cannot be read. -/
inductive Error where
  | endInList
  | endInObject
  | endInString
  | endInValue
  | noColon
  | noListEnd
  | noObjectEnd
  | noIdent
  | noValue
  | badEscape
  | badNumber
  | outOfRange
  | controlCharacter
  | keyNoString
  | loneSurrogate
  | cutSurrogate
  | trailingComma
  | trailingCharacters
  /-- Too many lists and objects inside each other. -/
  | tooDeep
  | wrongType (found : Found) (expected : String)
  | wrongValue (found : Found) (expected : String)
  /-- A list that ends after `n` elements. -/
  | wrongLength (n : Nat) (expected : String)
  | missingField (name : String)
  | duplicateField (name : String)
  | unknownField (name : String) (expected : List String)
  | unknownVariant (name : String) (expected : List String)
  | duplicateKey (name : String)
  | hugeInteger
  | noMoment (e : Moment.Error)
deriving DecidableEq, Repr

def Error.message : Error → String
  | .endInList => "EOF while parsing a list"
  | .endInObject => "EOF while parsing an object"
  | .endInString => "EOF while parsing a string"
  | .endInValue => "EOF while parsing a value"
  | .noColon => "expected `:`"
  | .noListEnd => "expected `,` or `]`"
  | .noObjectEnd => "expected `,` or `\x7d`"
  | .noIdent => "expected ident"
  | .noValue => "expected value"
  | .badEscape => "invalid escape"
  | .badNumber => "invalid number"
  | .outOfRange => "number out of range"
  | .controlCharacter => "control character (\\u0000-\\u001F) found while parsing a string"
  | .keyNoString => "key must be a string"
  | .loneSurrogate => "lone leading surrogate in hex escape"
  | .cutSurrogate => "unexpected end of hex escape"
  | .trailingComma => "trailing comma"
  | .trailingCharacters => "trailing characters"
  | .tooDeep => "recursion limit exceeded"
  | .wrongType found expected => s!"invalid type: {found.text}, expected {expected}"
  | .wrongValue found expected => s!"invalid value: {found.text}, expected {expected}"
  | .wrongLength n expected => s!"invalid length {n}, expected {expected}"
  | .missingField name => s!"missing field `{name}`"
  | .duplicateField name => s!"duplicate field `{name}`"
  | .unknownField name expected => s!"unknown field `{name}`, {Text.oneOf expected}"
  | .unknownVariant name expected => s!"unknown variant `{name}`, {Text.oneOf expected}"
  | .duplicateKey name => s!"duplicate key: `{name}`"
  | .hugeInteger => "u64 value was too large"
  | .noMoment e => e.message

end DocStamp.Json
