/-
Reading values of known shape out of a YAML document.

A reader asks for text, for a list or for a record with named fields.
A mistake is placed at the innermost list, record or text that was being
read when it came up, under the path that leads there.
-/
import DocStamp.Yaml.Event.Parse
import DocStamp.Yaml.Node
import DocStamp.Yaml.Scalar

namespace DocStamp.Yaml

/-! ## Paths -/

def rootPath : String := "."

/-- The path to a field; a key that is no text is unknown. -/
def fieldPath (parent : String) (name : Option String) : String :=
  (if parent == rootPath then "" else parent ++ ".") ++ name.getD "?"

def itemPath (parent : String) (index : Nat) : String := s!"{parent}[{index}]"

/-! ## Readers -/

/-- Reads a value at a path. -/
abbrev Reader (α : Type) := Document → String → Node → Except Error α

/-- What a scalar stands for, where text is not expected. -/
def foundScalar (tag : Option String) (style : Style) (s : String) : Except Error Found :=
  let wrong (expected : String) : Except Error Found :=
    .error (.mistake (.wrongValue (.string s) expected) none)
  match tag with
  | some "tag:yaml.org,2002:bool" =>
      match bool? s with
      | some b => .ok (.bool b)
      | none => wrong "a boolean"
  | some "tag:yaml.org,2002:int" =>
      match (int? s).bind foundInt? with
      | some found => .ok found
      | none => wrong "an integer"
  | some "tag:yaml.org,2002:float" =>
      match float? s with
      | some text => .ok (.float text)
      | none => wrong "a float"
  | some "tag:yaml.org,2002:null" => if isNull s then .ok .unit else wrong "null"
  | some t => .ok (if t.startsWith "!" && style = .plain then resolvePlain s else .string s)
  | none => .ok (if style = .plain then resolvePlain s else .string s)

def refuse {α : Type} (d : Document) (expected : String) : Node → Except Error α
  | .scalar _ tag style s => do
      throw (.mistake (.wrongType (← foundScalar tag style s) expected) none)
  | .sequence _ _ => .error (.mistake (.wrongType .sequence expected) none)
  | .mapping _ _ => .error (.mistake (.wrongType .map expected) none)
  | _ => .error (d.error.getD .missingValue)

/-- The mark of a value, where a mistake in it is placed. -/
def Node.mark : Node → Mark
  | .scalar m _ _ _ => m
  | .sequence m _ => m
  | .mapping m _ => m
  | _ => ⟨0, 0, 0⟩

/-- The value that an alias stands for; any other value is itself. -/
def Document.follow (d : Document) : Node → Node
  | .alias id => (d.target? id).getD .cut
  | n => n

/-- Places a mistake of a reader at the value it was reading. -/
def located {α : Type} (path : String) (n : Node) (r : Except Error α) : Except Error α :=
  r.mapError (Error.locate path n.mark)

/-! ## Scalars and lists -/

/-- Reads text: any scalar, as it is written. -/
def text (expected : String) : Reader String := fun d path n =>
  let n := d.follow n
  located path n <|
    match n with
    | .scalar _ _ _ s => .ok s
    | n => refuse d expected n

/-- Is this a plain scalar without text, which stands for no value? -/
def isBlankScalar : Node → Bool
  | .scalar _ _ .plain "" => true
  | _ => false

/-- Reads the items of a list in order, from an index on. -/
def itemsFrom {α : Type} (read : Reader α) (d : Document) (path : String) :
    Nat → List Node → Except Error (List α)
  | _, [] => .ok []
  | _, .cut :: _ => .error (d.error.getD .missingValue)
  | i, n :: ns => do
      let a ← read d (itemPath path i) n
      return a :: (← itemsFrom read d path (i + 1) ns)

/-- Reads a list; no value at all is the empty list. -/
def list {α : Type} (read : Reader α) : Reader (List α) := fun d path n =>
  let n := d.follow n
  located path n <|
    if isBlankScalar n then .ok []
    else
      match n with
      | .sequence _ items => itemsFrom read d path 0 items
      | n => refuse d "a sequence" n

/-- Reads text that may be absent: a plain scalar may stand for nothing. -/
def optional (read : Reader String) : Reader (Option String) := fun d path n =>
  match d.follow n with
  | .scalar _ (some "tag:yaml.org,2002:null") .plain s =>
      if isNull s then .ok none
      else .error (.mistake (.wrongValue (.string s) "null") none)
  | .scalar m none .plain s =>
      if s == "" || isNull s then .ok none
      else some <$> read d path (.scalar m none .plain s)
  | n => some <$> read d path n

/-! ## Records -/

/-- A step of reading a record: takes the value of one field. -/
abbrev FieldReader (σ : Type) := σ → Document → String → Node → Except Error σ

/-- The fields of a record, by name. -/
structure Fields (σ : Type) where
  /-- What the record is called in messages. -/
  expected : String
  fields : List (String × FieldReader σ)

namespace Fields

variable {σ : Type}

def names (f : Fields σ) : List String := f.fields.map Prod.fst

/-- Finds the field that a key names. -/
def key (f : Fields σ) (d : Document) (path : String) (n : Node) :
    Except Error (String × FieldReader σ) := do
  let n := d.follow n
  let name ← text "field identifier" d path n
  match f.fields.find? (·.1 == name) with
  | some field => return field
  | none => throw (.mistake (.unknownField name f.names) (some (path, n.mark)))

/-- The name of a key in paths; only a scalar has one. -/
def keyName? : Node → Option String
  | .scalar _ _ _ s => some s
  | _ => none

/-- Reads the entries of a record in order; `seen` are the fields that were there. -/
def entries (f : Fields σ) (d : Document) (path : String) :
    σ → List String → List (Node × Node) → Except Error (σ × List String)
  | s, seen, [] => .ok (s, seen)
  | s, seen, (key, value) :: rest => do
      let (name, read) ← f.key d path key
      if seen.contains name then throw (.mistake (.duplicateField name) none)
      let s ← read s d (fieldPath path (keyName? key)) value
      entries f d path s (name :: seen) rest

/-- Reads a record; no value at all has no entries.  `finish` sees which fields were there. -/
def record {α : Type} (f : Fields σ) (start : σ) (finish : σ → List String → Except Mistake α) :
    Reader α := fun d path n =>
  let n := d.follow n
  located path n <| do
    let (s, seen) ← if isBlankScalar n then pure (start, [])
      else
        match n with
        | .mapping _ es => f.entries d path start [] es
        | n => refuse d f.expected n
    match finish s seen with
    | .ok a => return a
    | .error m => throw (.mistake m none)

end Fields

/-! ## Documents -/

/-- Reads the one document of a text; a text without one has no entries. -/
def decode {α : Type} (blank : Except Error α) (read : Reader α) (source : String) :
    Except Error α := do
  let events := Events.parse source
  let (d, rest) := Document.build events.error .empty events.list
  let a ← match d.root with
    | some n => read d rootPath n
    | none => blank
  if let some e := d.error then throw e
  if !Document.isLast events.error rest then throw .manyDocuments
  return a

end DocStamp.Yaml
