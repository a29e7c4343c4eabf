/-
Start tags: their attributes and the name spaces they declare.

Attributes are checked one by one as they are read; names are resolved
when the tag ends, attributes first and the element last, against the
declarations of the tag itself and those of the elements around it.
-/
import DocStamp.Xml.Reference
import DocStamp.Xml.Tree

namespace DocStamp.Xml

/-! ## Name spaces -/

/-- The name space of names that begin with `xml:`. -/
def xmlSpace : String := "http://www.w3.org/XML/1998/namespace"

/-- The name space of declarations, which no document may declare. -/
def xmlnsSpace : String := "http://www.w3.org/2000/xmlns/"

/-- Declared name spaces by their short name; no short name is the default. -/
abbrev Scope := List (Option String × String)

def Scope.declares (scope : Scope) (short : Option String) : Bool :=
  scope.any fun d => d.1 == short

/-- The scope inside an element: its own declarations, then those around it. -/
def Scope.within (around own : Scope) : Scope :=
  own ++ around.filter fun d => !Scope.declares own d.1

/-- The name space of a short name; none declared is fine only without a short name. -/
def Scope.space (scope : Scope) (short : String) (p : Position) : Except Error (Option String) :=
  match scope.find? fun d => d.1 == (if short == "" then none else some short) with
  | some d => .ok (some d.2)
  | none => if short == "" then .ok none else .error (.unknownSpace short p)

/-! ## Declarations and attributes -/

/-- What a start tag holds besides its name. -/
structure TagBody where
  declared : Scope
  attributes : List (TagName × Position)
deriving Repr

namespace TagBody

def empty : TagBody := ⟨[], []⟩

def declareShort (b : TagBody) (short value : String) (p : Position) : Except Error TagBody :=
  if value == xmlnsSpace then .error (.declaredXmlns p)
  else if short == "xml" && value != xmlSpace then .error (.xmlPrefixMisused p)
  else if short != "xml" && value == xmlSpace then .error (.xmlSpaceMisused p)
  else if Scope.declares b.declared (some short) then .error (.duplicateSpace short p)
  else if value == xmlSpace then .ok b
  else .ok { b with declared := b.declared ++ [(some short, value)] }

def declareDefault (b : TagBody) (value : String) (p : Position) : Except Error TagBody :=
  if value == xmlSpace then .error (.xmlSpaceMisused p)
  else if value == xmlnsSpace then .error (.declaredXmlns p)
  else .ok { b with declared := b.declared ++ [(none, value)] }

/-- Adds an attribute, which may be a declaration. -/
def add (b : TagBody) (name : TagName) (value : String) (p : Position) : Except Error TagBody :=
  if name.space == "xmlns" then b.declareShort name.localName value p
  else if name.localName == "xmlns" then b.declareDefault value p
  else .ok { b with attributes := b.attributes ++ [(name, p)] }

/-- The name space of an attribute; one without a short name has none. -/
def attributeSpace (scope : Scope) (name : TagName) (p : Position) :
    Except Error (Option String) :=
  if name.space == "xml" then .ok (some xmlSpace)
  else if name.space == "" then .ok none
  else scope.space name.space p

/-- Resolves the attributes in order and refuses a name that was there before. -/
def checkAttributes (scope : Scope) (seen : List Name) :
    List (TagName × Position) → Except Error Unit
  | [] => .ok ()
  | (name, p) :: rest => do
      let full : Name := ⟨← attributeSpace scope name p, name.localName⟩
      if seen.contains full then throw (.duplicateAttribute name.localName p)
      checkAttributes scope (full :: seen) rest

end TagBody

/-! ## Start tags -/

/-- An attribute as it is written: its name and its value with references. -/
structure RawAttribute where
  name : TagName
  value : List Char
  valueAt : Position
deriving Repr

def Cursor.readAttribute (k : Cursor) : Except Error (RawAttribute × Cursor) := do
  let (name, k) ← k.readTagName
  let k ← k.skipSpaces.expectChar '='
  let (mark, k) ← k.skipSpaces.readQuote
  let ends : List Char → Bool := fun cs => cs.head? == some mark || cs.head? == some '<'
  let (value, k') ← Cursor.readUntil ends k.rest k.position
  return (⟨name, value, k.position⟩, ← k'.expectChar mark)

/-- How a start tag ends. -/
inductive TagEnd where
  /-- With `>`: content follows. -/
  | opened
  /-- With `/>`: there is no content. -/
  | closed
  /-- With the document. -/
  | cut
deriving DecidableEq, Repr

/-- Reads a start tag behind its name, at most `n` attributes of it. -/
def Cursor.readTagBody : Nat → TagBody → Cursor → Except Error (TagBody × TagEnd × Cursor)
  | 0, b, k => .ok (b, .cut, k)
  | n + 1, b, k =>
      if k.rest.isEmpty then .ok (b, .cut, k)
      else
        let spaced := k.atSpace
        let k := k.skipSpaces
        match k.rest with
        | [] => .error .endOfStream
        | '/' :: _ => do return (b, .closed, ← (k.advance 1).expectChar '>')
        | '>' :: _ => .ok (b, .opened, k.advance 1)
        | c :: _ =>
            if spaced then do
              let (a, k') ← k.readAttribute
              let value := attributeChars (← resolve a.value a.valueAt)
              readTagBody n (← b.add a.name (String.ofList value) k.position) k'
            else .error (.blank (firstByte c) k.position)

/-- The expanded name of an element and the scope inside it. -/
def TagBody.close (b : TagBody) (around : Scope) (name : TagName) (p : Position) :
    Except Error (Name × Scope) := do
  let scope := Scope.within around b.declared
  TagBody.checkAttributes scope [] b.attributes
  return (⟨← scope.space name.space p, name.localName⟩, scope)

end DocStamp.Xml
