/-
Readers of JSON values, each for one type.

A reader is given how many more levels of lists and objects may open,
and the text; it gives back the rest of the text.  Faults are reported
in the order of the text.  A record may be written as an object or as a
list of its fields in order.
-/
import DocStamp.Json.Skip

namespace DocStamp.Json

/-- Reads a value from the front of a text. -/
abbrev Reader (α : Type) := Nat → List Char → Except Error (α × List Char)

/-- The number of levels at the start. -/
def levels : Nat := 128

/-- Goes one level down. -/
def descend (depth : Nat) : Except Error Nat :=
  if depth ≤ 1 then .error .tooDeep else .ok (depth - 1)

/-! ## What stands where something else was expected -/

/-- What stands at the front of a text, as messages say it. -/
def found : List Char → Except Error Found
  | 'n' :: cs => do
      let _ ← restOfNull cs
      return .null
  | 't' :: cs => do
      let _ ← restOfTrue cs
      return .bool true
  | 'f' :: cs => do
      let _ ← restOfFalse cs
      return .bool false
  | '-' :: cs => do return (← readNumber true cs).1.found
  | '"' :: cs => do return .string (← readString cs).1
  | '[' :: _ => .ok .sequence
  | '\x7b' :: _ => .ok .map
  | c :: cs => do
      if c.isDigit then return (← readNumber false (c :: cs)).1.found else throw .noValue
  | [] => .error .endInValue

/-- Refuses whatever stands at the front of a text. -/
def refuse {α : Type} (expected : String) (cs : List Char) : Except Error α := do
  throw (.wrongType (← found cs) expected)

/-! ## Scalars -/

def string (expected : String) : Reader String := fun _ cs =>
  match skipSpaces cs with
  | '"' :: rest => readString rest
  | cs => refuse expected cs

def bool : Reader Bool := fun _ cs =>
  match skipSpaces cs with
  | 't' :: rest => (true, ·) <$> restOfTrue rest
  | 'f' :: rest => (false, ·) <$> restOfFalse rest
  | cs => refuse "a boolean" cs

def unit : Reader Unit := fun _ cs =>
  match skipSpaces cs with
  | 'n' :: rest => ((), ·) <$> restOfNull rest
  | cs => refuse "unit" cs

/-- Takes a number for a natural number of 32 bits. -/
def nat32 : Number → Except Error Nat
  | .integer n =>
      if 0 ≤ n ∧ n < 0x100000000 then .ok n.toNat else .error (.wrongValue (.integer n) "u32")
  | x => .error (.wrongType x.found "u32")

def natural : Reader Nat := fun _ cs =>
  match skipSpaces cs with
  | '-' :: rest => do
      let (x, rest) ← readNumber true rest
      return (← nat32 x, rest)
  | cs =>
      if (cs.head?.map Char.isDigit).getD false then do
        let (x, rest) ← readNumber false cs
        return (← nat32 x, rest)
      else refuse "u32" cs

def optional {α : Type} (read : Reader α) : Reader (Option α) := fun depth cs =>
  match skipSpaces cs with
  | 'n' :: rest => (none, ·) <$> restOfNull rest
  | cs => do
      let (a, rest) ← read depth cs
      return (some a, rest)

/-! ## Lists -/

/-- Is there another element?  If so, the text goes on with it. -/
def nextElement (first : Bool) (cs : List Char) : Except Error (Bool × List Char) :=
  match skipSpaces cs with
  | [] => .error .endInList
  | ']' :: rest => .ok (false, ']' :: rest)
  | c :: rest =>
      if first then .ok (true, c :: rest)
      else if c = ',' then
        match skipSpaces rest with
        | [] => .error .endInValue
        | ']' :: _ => .error .trailingComma
        | rest => .ok (true, rest)
      else .error .noListEnd

def closeList (cs : List Char) : Except Error (List Char) :=
  match skipSpaces cs with
  | [] => .error .endInList
  | ']' :: rest => .ok rest
  | ',' :: rest =>
      match skipSpaces rest with
      | ']' :: _ => .error .trailingComma
      | _ => .error .trailingCharacters
  | _ => .error .trailingCharacters

/-- Reads the elements of a list, fewer than `n`. -/
def elements {α : Type} (read : Reader α) (depth : Nat) :
    Nat → Bool → List Char → Except Error (List α × List Char)
  | 0, _, _ => .error .endInList
  | n + 1, first, cs => do
      let (another, cs) ← nextElement first cs
      if another then
        let (a, cs) ← read depth cs
        let (more, rest) ← elements read depth n false cs
        return (a :: more, rest)
      else return ([], cs)

def list {α : Type} (read : Reader α) : Reader (List α) := fun depth cs =>
  match skipSpaces cs with
  | '[' :: rest => do
      let depth ← descend depth
      let (as, rest) ← elements read depth (rest.length + 1) true rest
      return (as, ← closeList rest)
  | cs => refuse "a sequence" cs

/-! ## Objects -/

/-- Is there another key?  If so, the text goes on with its string. -/
def nextKey (first : Bool) (cs : List Char) : Except Error (Bool × List Char) :=
  match skipSpaces cs with
  | [] => .error .endInObject
  | '\x7d' :: rest => .ok (false, '\x7d' :: rest)
  | c :: rest =>
      if first then if c = '"' then .ok (true, rest) else .error .keyNoString
      else if c = ',' then
        match skipSpaces rest with
        | [] => .error .endInValue
        | '"' :: rest => .ok (true, rest)
        | '\x7d' :: _ => .error .trailingComma
        | _ => .error .keyNoString
      else .error .noObjectEnd

def closeObject (cs : List Char) : Except Error (List Char) :=
  match skipSpaces cs with
  | [] => .error .endInObject
  | '\x7d' :: rest => .ok rest
  | ',' :: _ => .error .trailingComma
  | _ => .error .trailingCharacters

/-! ## Records -/

/-- A field of a record: its name, whether it has to be there, and how its value is taken in. -/
structure Field (σ : Type) where
  name : String
  required : Bool
  read : σ → Reader σ

/-- A field that is set from the value that a reader gives. -/
def Field.of {σ α : Type} (name : String) (required : Bool) (read : Reader α) (set : σ → α → σ) :
    Field σ :=
  ⟨name, required, fun s depth cs => do
    let (a, rest) ← read depth cs
    return (set s a, rest)⟩

/-- The shape of a record. -/
structure Record (σ : Type) where
  /-- What the record is called in messages. -/
  expected : String
  fields : List (Field σ)
  /-- Are other fields refused? -/
  closed : Bool
  /-- May a list of its fields end early? -/
  short : Bool

namespace Record

variable {σ : Type}

def names (r : Record σ) : List String := r.fields.map Field.name

/-- What the record is called in messages, with the number of its fields. -/
def counted (r : Record σ) : String :=
  match r.fields.length with
  | 1 => s!"{r.expected} with 1 element"
  | n => s!"{r.expected} with {n} elements"

end Record

/-- Reads fields from the elements of a list, from the one with number `i` on.  A list
that ends early is an error unless `short` allows it. -/
def inOrder {σ : Type} (counted : String) (short : Bool) (depth : Nat) :
    Nat → List (Field σ) → Bool → σ → List Char → Except Error (σ × List Char)
  | _, [], _, s, cs => .ok (s, cs)
  | i, f :: fs, first, s, cs => do
      let (another, cs) ← nextElement first cs
      if another then
        let (s, cs) ← f.read s depth cs
        inOrder counted short depth (i + 1) fs false s cs
      else if short then return (s, cs)
      else throw (.wrongLength i counted)

/-- Reads a list with one element for each field. -/
def tuple {σ : Type} (expected : String) (fields : List (Field σ)) (start : σ) : Reader σ :=
  fun depth cs =>
    match skipSpaces cs with
    | '[' :: rest => do
        let depth ← descend depth
        let (s, rest) ← inOrder expected false depth 0 fields true start rest
        return (s, ← closeList rest)
    | cs => refuse expected cs

namespace Record

variable {σ : Type}

/-- Reads fields by their names, fewer than `n`; `seen` are those that were there. -/
def byName (r : Record σ) (depth : Nat) :
    Nat → Bool → List String → σ → List Char → Except Error ((σ × List String) × List Char)
  | 0, _, _, _, _ => .error .endInObject
  | n + 1, first, seen, s, cs => do
      let (another, cs) ← nextKey first cs
      if another then
        let (name, cs) ← readString cs
        match r.fields.find? (·.name == name) with
        | some f =>
            if seen.contains name then throw (.duplicateField name)
            let (s, cs) ← f.read s depth (← colon cs)
            byName r depth n false (name :: seen) s cs
        | none =>
            if r.closed then throw (.unknownField name r.names)
            byName r depth n false seen s (← skipValue (← colon cs))
      else return ((s, seen), cs)

/-- Reads a record; fields that need not be there keep what they have in `start`. -/
def read (r : Record σ) (start : σ) : Reader σ := fun depth cs =>
  match skipSpaces cs with
  | '[' :: rest => do
      let depth ← descend depth
      let (s, rest) ← inOrder r.counted r.short depth 0 r.fields true start rest
      return (s, ← closeList rest)
  | '\x7b' :: rest => do
      let depth ← descend depth
      let ((s, seen), rest) ← r.byName depth (rest.length + 1) true [] start rest
      match r.fields.find? fun f => f.required && !seen.contains f.name with
      | some f => throw (.missingField f.name)
      | none => return (s, ← closeObject rest)
  | cs => refuse r.expected cs

end Record

/-! ## Alternatives -/

/-- One of several alternatives of a value. -/
structure Variant (α : Type) where
  name : String
  /-- The value that the bare name stands for. -/
  bare : Option α
  /-- Reads the value behind the name. -/
  read : Reader α

namespace Variant

variable {α : Type}

/-- An alternative without a value of its own. -/
def plain (name : String) (a : α) : Variant α :=
  ⟨name, some a, fun depth cs => do return (a, (← unit depth cs).2)⟩

/-- An alternative with a value of its own. -/
def carrying {β : Type} (name : String) (read : Reader β) (make : β → α) : Variant α :=
  ⟨name, none, fun depth cs => do
    let (b, rest) ← read depth cs
    return (make b, rest)⟩

/-- Reads the name of an alternative. -/
def readName (variants : List (Variant α)) (cs : List Char) :
    Except Error (Variant α × List Char) := do
  let (name, rest) ← string "variant identifier" 0 cs
  match variants.find? (·.name == name) with
  | some v => return (v, rest)
  | none => throw (.unknownVariant name (variants.map Variant.name))

/-- Reads one of several alternatives: a bare name, or an object with the name and the value. -/
def readOne (variants : List (Variant α)) : Reader α := fun depth cs =>
  match skipSpaces cs with
  | '\x7b' :: rest => do
      let depth ← descend depth
      let (v, rest) ← readName variants rest
      let (a, rest) ← v.read depth (← colon rest)
      match skipSpaces rest with
      | '\x7d' :: rest => return (a, rest)
      | [] => throw .endInObject
      | _ => throw .noValue
  | '"' :: rest => do
      let (v, rest) ← readName variants ('"' :: rest)
      match v.bare with
      | some a => return (a, rest)
      | none => throw (.wrongType .bareVariant "newtype variant")
  | [] => .error .endInValue
  | _ => .error .noValue

end Variant

/-! ## Whole texts -/

/-- Reads entries of an object, fewer than `n`, each with the keys before it. -/
def entries (read : List String → String → List Char → Except Error (List Char)) :
    Nat → Bool → List String → List Char → Except Error (List Char)
  | 0, _, _, _ => .error .endInObject
  | n + 1, first, seen, cs => do
      let (another, cs) ← nextKey first cs
      if another then
        let (name, cs) ← readString cs
        entries read n false (name :: seen) (← read seen name cs)
      else return cs

/-- Reads the one value of a text. -/
def parse {α : Type} (read : Reader α) (source : String) : Except Error α := do
  let (a, rest) ← read levels source.toList
  if (skipSpaces rest).isEmpty then return a else throw .trailingCharacters

end DocStamp.Json
