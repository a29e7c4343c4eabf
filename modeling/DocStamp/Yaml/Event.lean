/-
The events of a YAML document: what its tokens say, in order.
-/
import DocStamp.Yaml.Token

namespace DocStamp.Yaml

/-- The anchor and the tag in front of a value. -/
structure Properties where
  anchor : Option String
  tag : Option String
deriving DecidableEq, Repr

/-- What an event says. -/
inductive EventKind where
  | streamStart
  | streamEnd
  | documentStart
  | documentEnd
  | alias (name : String)
  | scalar (properties : Properties) (text : String) (style : Style)
  | sequenceStart (properties : Properties)
  | sequenceEnd
  | mappingStart (properties : Properties)
  | mappingEnd
deriving DecidableEq, Repr

/-- An event with the mark where it starts. -/
structure Event where
  kind : EventKind
  mark : Mark
deriving DecidableEq, Repr

/-- A document as events, up to its end or to an error. -/
structure Events where
  list : List Event
  error : Option Error
deriving Repr

end DocStamp.Yaml
