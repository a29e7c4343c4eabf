/-
The tree of a YAML document.

A tree is built from events and so may break off: where the document has
an error, the tree ends in a cut, and whoever reads up to the cut meets
the error.  An alias names its anchor by number; the numbers are given
out in the order of the anchors, by how many names are known, so a name
that is taken again leaves its number to the next new name.
-/
import DocStamp.Yaml.Event

namespace DocStamp.Yaml

/-- A value of a document. -/
inductive Node where
  | scalar (mark : Mark) (tag : Option String) (style : Style) (text : String)
  | sequence (mark : Mark) (items : List Node)
  | mapping (mark : Mark) (entries : List (Node × Node))
  | alias (id : Nat)
  /-- Where the document breaks off. -/
  | cut
deriving Repr

/-! ## Collections -/

/-- A collection that is not closed yet, its parts latest first. -/
inductive Frame where
  | sequence (mark : Mark) (items : List Node)
  | mapping (mark : Mark) (entries : List (Node × Node))
  /-- A mapping whose last key waits for its value. -/
  | pair (mark : Mark) (entries : List (Node × Node)) (key : Node)
deriving Repr

namespace Frame

def add : Frame → Node → Frame
  | .sequence m items, n => .sequence m (n :: items)
  | .mapping m entries, n => .pair m entries n
  | .pair m entries key, n => .mapping m ((key, n) :: entries)

def close : Frame → Node
  | .sequence m items => .sequence m items.reverse
  | .mapping m entries => .mapping m entries.reverse
  | .pair m entries key => .mapping m ((key, .cut) :: entries).reverse

def cut : Frame → Node
  | .sequence m items => .sequence m (.cut :: items).reverse
  | .mapping m entries => .mapping m ((.cut, .cut) :: entries).reverse
  | .pair m entries key => .mapping m ((key, .cut) :: entries).reverse

end Frame

/-! ## Building -/

/-- An anchored value: its number, and where among the values it begins. -/
structure Anchored where
  id : Nat
  place : Nat
  node : Node
deriving Repr

/-- A document that is being built. -/
structure Builder where
  /-- The known names of anchors with their numbers, latest first. -/
  names : List (String × Nat)
  anchored : List Anchored
  /-- The number of values begun so far. -/
  count : Nat
  /-- The open collections, innermost first, with their anchors. -/
  frames : List (Frame × Option (Nat × Nat))
  root : Option Node
deriving Repr

namespace Builder

def empty : Builder := ⟨[], [], 0, [], none⟩

/-- Gives a name its number, and counts the value that it stands at. -/
def name (b : Builder) (anchor : Option String) : Option (Nat × Nat) × Builder :=
  match anchor with
  | none => (none, { b with count := b.count + 1 })
  | some a =>
      let id := b.names.length
      let others := b.names.filter (·.1 != a)
      (some (id, b.count), { b with names := (a, id) :: others, count := b.count + 1 })

/-- Puts a finished value into the innermost collection. -/
def put (b : Builder) (anchor : Option (Nat × Nat)) (n : Node) : Builder :=
  let b := match anchor with
    | some (id, place) => { b with anchored := ⟨id, place, n⟩ :: b.anchored }
    | none => b
  match b.frames with
  | [] => { b with root := some n }
  | (f, a) :: frames => { b with frames := (f.add n, a) :: frames }

def opened (b : Builder) (anchor : Option String) (f : Frame) : Builder :=
  let (a, b) := b.name anchor
  { b with frames := (f, a) :: b.frames }

def closed (b : Builder) : Builder :=
  match b.frames with
  | [] => b
  | (f, a) :: frames => { b with frames := frames }.put a f.close

/-- Cuts off open collections, innermost first, each with what was cut off inside it.
Gives the outermost value and the anchored ones. -/
def cutFrames (inner : Option Node) (anchored : List Anchored) :
    List (Frame × Option (Nat × Nat)) → Option Node × List Anchored
  | [] => (inner, anchored)
  | (f, a) :: frames =>
      let n := (inner.elim f f.add).cut
      let anchored := match a with
        | some (id, place) => ⟨id, place, n⟩ :: anchored
        | none => anchored
      cutFrames (some n) anchored frames

end Builder

/-! ## Documents -/

/-- A document: its value, its anchors, and the error at which it breaks off. -/
structure Document where
  /-- None for a stream without a document. -/
  root : Option Node
  anchored : List Anchored
  error : Option Error
deriving Repr

namespace Document

/-- The document that breaks off here with an error. -/
def brokenOff (b : Builder) (error : Error) : Document :=
  let (outer, anchored) := Builder.cutFrames none b.anchored b.frames
  ⟨some ((outer <|> b.root).getD .cut), anchored, some error⟩

/-- Builds the first document of some events, and gives the events behind it. -/
def build (error : Option Error) : Builder → List Event → Document × List Event
  | b, [] => (brokenOff b (error.getD .missingValue), [])
  | b, e :: es =>
      match e.kind with
      | .streamStart | .documentStart => build error b es
      | .streamEnd => (⟨b.root, b.anchored, none⟩, [])
      | .documentEnd => (⟨b.root, b.anchored, none⟩, es)
      | .alias name =>
          match b.names.find? (·.1 == name) with
          | some (_, id) => build error ({ b with count := b.count + 1 }.put none (.alias id)) es
          | none => (brokenOff b (.unknownAnchor e.mark), es)
      | .scalar props text style =>
          let (a, b) := b.name props.anchor
          build error (b.put a (.scalar e.mark props.tag style text)) es
      | .sequenceStart props => build error (b.opened props.anchor (.sequence e.mark [])) es
      | .mappingStart props => build error (b.opened props.anchor (.mapping e.mark [])) es
      | .sequenceEnd | .mappingEnd => build error b.closed es

/-- Does the rest of a stream hold nothing but its end? -/
def isLast (error : Option Error) (es : List Event) : Bool :=
  match es with
  | [] => error.isNone
  | e :: _ => e.kind == .streamEnd

/-- The anchored value with a number: of several, the one that begins last. -/
def target? (d : Document) (id : Nat) : Option Node :=
  let best := (d.anchored.filter (·.id == id)).foldl (fun (best : Option Anchored) a =>
    match best with
    | some b => if b.place < a.place then some a else some b
    | none => some a) none
  best.map (·.node)

end Document

end DocStamp.Yaml
