/-
The tokens of a YAML document.
-/
import DocStamp.Yaml.Error

namespace DocStamp.Yaml

inductive Style where
  | plain
  | singleQuoted
  | doubleQuoted
  | literal
  | folded
deriving DecidableEq, Repr

inductive TokenKind where
  | streamStart
  | streamEnd
  | versionDirective (major minor : Nat)
  | tagDirective (handle uri : String)
  | documentStart
  | documentEnd
  | blockSequenceStart
  | blockMappingStart
  | blockEnd
  | flowSequenceStart
  | flowSequenceEnd
  | flowMappingStart
  | flowMappingEnd
  | blockEntry
  | flowEntry
  | key
  | value
  | alias (name : String)
  | anchor (name : String)
  | tag (handle tail : String)
  | scalar (text : String) (style : Style)
deriving DecidableEq, Repr

/-- A token with the marks where it starts and stops. -/
structure Token where
  kind : TokenKind
  start : Mark
  stop : Mark
deriving DecidableEq, Repr

end DocStamp.Yaml
