/-
# The tree of a written document

The events of a value build a node that shows the value: the same texts,
lists and maps, with marks of where they stood.  So whoever reads a
written document reads such a node.
-/
import DocStamp.Proofs.Yaml.Events
import DocStamp.Yaml.Decode

namespace DocStamp.Yaml

/-! ## Nodes that show a value -/

/-- A key in a document. -/
def ShowsKey (key : String) (n : Node) : Prop := ∃ m, n = .scalar m none .plain key

mutual

/-- The node is the value, read from a document. -/
def Value.Shown : Value → Node → Prop
  | .null, n => ∃ m, n = .scalar m none .plain "null"
  | .text s, n => ∃ m, n = .scalar m none (layoutOf s).style s
  | .list items, n => ∃ m ns, n = .sequence m ns ∧ Value.ItemsShown items ns
  | .map entries, n => ∃ m ns, n = .mapping m ns ∧ Value.EntriesShown entries ns

def Value.ItemsShown : List Value → List Node → Prop
  | [], ns => ns = []
  | item :: items, ns => ∃ n ns', ns = n :: ns' ∧ item.Shown n ∧ Value.ItemsShown items ns'

def Value.EntriesShown : List (String × Value) → List (Node × Node) → Prop
  | [], ns => ns = []
  | (key, value) :: entries, ns =>
      ∃ k n ns', ns = (k, n) :: ns' ∧ ShowsKey key k ∧ value.Shown n ∧
        Value.EntriesShown entries ns'

end

theorem Value.EntriesShown.of_append {as bs : List (String × Value)} {ns : List (Node × Node)}
    (h : Value.EntriesShown (as ++ bs) ns) :
    ∃ xs ys, ns = xs ++ ys ∧ Value.EntriesShown as xs ∧ Value.EntriesShown bs ys := by
  induction as generalizing ns with
  | nil => exact ⟨[], ns, rfl, rfl, h⟩
  | cons e as ih =>
      obtain ⟨key, value⟩ := e
      obtain ⟨k, n, ns, rfl, hkey, hvalue, hmore⟩ := h
      obtain ⟨xs, ys, rfl, hxs, hys⟩ := ih hmore
      exact ⟨(k, n) :: xs, ys, rfl, ⟨k, n, xs, rfl, hkey, hvalue, hxs⟩, hys⟩

theorem Value.EntriesShown.keys {entries : List (String × Value)} {ns : List (Node × Node)}
    (h : Value.EntriesShown entries ns) :
    ns.map (fun e => Fields.keyName? e.1) = (entries.map Prod.fst).map some := by
  induction entries generalizing ns with
  | nil =>
      obtain rfl : ns = [] := h
      rfl
  | cons e entries ih =>
      obtain ⟨key, value⟩ := e
      obtain ⟨k, n, ns, rfl, ⟨m, rfl⟩, -, hmore⟩ := h
      rw [List.map_cons, List.map_cons, List.map_cons, ih hmore]
      rfl

/-! ## Building them -/

namespace Document

/-- The events put a value into the innermost collection. -/
def Builds (es : List Event) (n : Node) : Prop :=
  ∀ error (b : Builder) rest, ∃ c, build error b (es ++ rest) =
    build error ({ b with count := c }.put none n) rest

variable {es : List Event}

theorem exists_event {k : EventKind} {ks : List EventKind} (h : es.map Event.kind = k :: ks) :
    ∃ m es', es = ⟨k, m⟩ :: es' ∧ es'.map Event.kind = ks := by
  obtain ⟨⟨k, m⟩, es', rfl, rfl, hes⟩ := List.map_eq_cons_iff.1 h
  exact ⟨m, es', rfl, hes⟩

theorem builds_scalar (m : Mark) (s : String) (style : Style) :
    Builds [⟨.scalar .none s style, m⟩] (.scalar m none style s) := by
  intro error b rest
  exact ⟨b.count + 1, rfl⟩

theorem build_items {items : List Value}
    (hitems : ∀ v ∈ items, ∀ es : List Event, es.map Event.kind = v.events →
      ∃ n, v.Shown n ∧ Builds es n)
    (hes : es.map Event.kind = Value.itemEvents items) :
    ∃ ns, Value.ItemsShown items ns ∧ ∀ error (b : Builder) m done frames rest, ∃ c,
      build error { b with frames := (.sequence m done, none) :: frames } (es ++ rest) =
        build error { b with count := c, frames :=
          (.sequence m (ns.reverse ++ done), none) :: frames } rest := by
  induction items generalizing es with
  | nil =>
      obtain rfl : es = [] := List.map_eq_nil_iff.1 hes
      exact ⟨[], rfl, fun error b m done frames rest => ⟨b.count, rfl⟩⟩
  | cons item items ih =>
      obtain ⟨own, others, rfl, hown, hothers⟩ := List.map_eq_append_iff.1 hes
      obtain ⟨n, hn, hbuild⟩ := hitems item List.mem_cons_self own hown
      obtain ⟨ns, hns, hmore⟩ := ih (fun v hv => hitems v (List.mem_cons_of_mem item hv)) hothers
      refine ⟨n :: ns, ⟨n, ns, rfl, hn, hns⟩, fun error b m done frames rest => ?_⟩
      obtain ⟨c, hc⟩ := hbuild error { b with frames := (.sequence m done, none) :: frames }
        (others ++ rest)
      obtain ⟨c', hc'⟩ := hmore error { b with count := c } m (n :: done) frames rest
      refine ⟨c', ?_⟩
      rw [List.append_assoc, hc, List.reverse_cons, List.append_assoc]
      exact hc'

theorem build_entries {entries : List (String × Value)}
    (hentries : ∀ e ∈ entries, ∀ es : List Event, es.map Event.kind = e.2.events →
      ∃ n, e.2.Shown n ∧ Builds es n)
    (hes : es.map Event.kind = Value.entryEvents entries) :
    ∃ ns, Value.EntriesShown entries ns ∧ ∀ error (b : Builder) m done frames rest, ∃ c,
      build error { b with frames := (.mapping m done, none) :: frames } (es ++ rest) =
        build error { b with count := c, frames :=
          (.mapping m (ns.reverse ++ done), none) :: frames } rest := by
  induction entries generalizing es with
  | nil =>
      obtain rfl : es = [] := List.map_eq_nil_iff.1 hes
      exact ⟨[], rfl, fun error b m done frames rest => ⟨b.count, rfl⟩⟩
  | cons e entries ih =>
      obtain ⟨key, value⟩ := e
      obtain ⟨mark, more, rfl, hmore⟩ := exists_event hes
      obtain ⟨own, others, rfl, hown, hothers⟩ := List.map_eq_append_iff.1 hmore
      obtain ⟨n, hn, hbuild⟩ := hentries (key, value) List.mem_cons_self own hown
      obtain ⟨ns, hns, hlater⟩ := ih (fun e he => hentries e (List.mem_cons_of_mem _ he)) hothers
      refine ⟨(.scalar mark none .plain key, n) :: ns, ⟨_, n, ns, rfl, ⟨mark, rfl⟩, hn, hns⟩,
        fun error b m done frames rest => ?_⟩
      -- The value is built while its key waits in the frame.
      obtain ⟨c, hc⟩ := hbuild error { b with
        count := b.count + 1,
        frames := (.pair m done (.scalar mark none .plain key), none) :: frames } (others ++ rest)
      obtain ⟨c', hc'⟩ := hlater error { b with count := c } m
        ((.scalar mark none .plain key, n) :: done) frames rest
      refine ⟨c', ?_⟩
      rw [List.reverse_cons, List.append_assoc, List.cons_append, List.append_assoc]
      exact hc.trans hc'

/-- The events of a value build a node that shows it. -/
theorem builds_of_writable {v : Value} (hv : v.Writable) {es : List Event}
    (hes : es.map Event.kind = v.events) : ∃ n, v.Shown n ∧ Builds es n := by
  induction hv generalizing es with
  | null =>
      obtain ⟨m, more, rfl, hmore⟩ := exists_event hes
      obtain rfl : more = [] := List.map_eq_nil_iff.1 hmore
      exact ⟨_, ⟨m, rfl⟩, builds_scalar m _ _⟩
  | text s =>
      obtain ⟨m, more, rfl, hmore⟩ := exists_event hes
      obtain rfl : more = [] := List.map_eq_nil_iff.1 hmore
      exact ⟨_, ⟨m, rfl⟩, builds_scalar m _ _⟩
  | list _ ih =>
      obtain ⟨m, more, rfl, hmore⟩ := exists_event hes
      obtain ⟨own, last, rfl, hown, hlast⟩ := List.map_eq_append_iff.1 hmore
      obtain ⟨m', none, rfl, hnone⟩ := exists_event hlast
      obtain rfl : none = [] := List.map_eq_nil_iff.1 hnone
      obtain ⟨ns, hns, hbuild⟩ := build_items (fun v hv es => ih v hv) hown
      refine ⟨.sequence m ns, ⟨m, ns, rfl, hns⟩, fun error b rest => ?_⟩
      obtain ⟨c, hc⟩ := hbuild error { b with count := b.count + 1 } m [] b.frames
        (⟨.sequenceEnd, m'⟩ :: rest)
      refine ⟨c, ?_⟩
      rw [List.append_nil] at hc
      rw [List.cons_append, List.append_assoc]
      refine hc.trans ?_
      show build error (Builder.put { b with count := c } none (.sequence m ns.reverse.reverse))
        rest = _
      rw [List.reverse_reverse]
  | map _ _ ih =>
      obtain ⟨m, more, rfl, hmore⟩ := exists_event hes
      obtain ⟨own, last, rfl, hown, hlast⟩ := List.map_eq_append_iff.1 hmore
      obtain ⟨m', none, rfl, hnone⟩ := exists_event hlast
      obtain rfl : none = [] := List.map_eq_nil_iff.1 hnone
      obtain ⟨ns, hns, hbuild⟩ := build_entries (fun e he es => ih e he) hown
      refine ⟨.mapping m ns, ⟨m, ns, rfl, hns⟩, fun error b rest => ?_⟩
      obtain ⟨c, hc⟩ := hbuild error { b with count := b.count + 1 } m [] b.frames
        (⟨.mappingEnd, m'⟩ :: rest)
      refine ⟨c, ?_⟩
      rw [List.append_nil] at hc
      rw [List.cons_append, List.append_assoc]
      refine hc.trans ?_
      show build error (Builder.put { b with count := c } none (.mapping m ns.reverse.reverse))
        rest = _
      rw [List.reverse_reverse]

/-- The events of a stream with one value build a document of the node that shows it. -/
theorem build_document {v : Value} (hv : v.Writable) (hes : es.map Event.kind =
      .streamStart :: .documentStart :: (v.events ++ [.documentEnd, .streamEnd])) :
    ∃ n m, v.Shown n ∧ build none .empty es = (⟨some n, [], none⟩, [⟨.streamEnd, m⟩]) := by
  obtain ⟨m₁, es₁, rfl, hes₁⟩ := exists_event hes
  obtain ⟨m₂, es₂, rfl, hes₂⟩ := exists_event hes₁
  obtain ⟨own, es₃, rfl, hown, hes₃⟩ := List.map_eq_append_iff.1 hes₂
  obtain ⟨m₃, es₄, rfl, hes₄⟩ := exists_event hes₃
  obtain ⟨m₄, es₅, rfl, hes₅⟩ := exists_event hes₄
  obtain rfl : es₅ = [] := List.map_eq_nil_iff.1 hes₅
  obtain ⟨n, hn, hbuild⟩ := builds_of_writable hv hown
  obtain ⟨c, hc⟩ := hbuild none .empty [⟨.documentEnd, m₃⟩, ⟨.streamEnd, m₄⟩]
  exact ⟨n, m₄, hn, hc⟩

end Document

/-- Whoever reads a written document reads a node that shows its map. -/
theorem decode_write {entries : List (String × Value)} (hne : entries ≠ [])
    (hwritable : (Value.map entries).Writable) :
    ∃ d m ns, Value.EntriesShown entries ns ∧
      ∀ {α : Type} (blank : Except Error α) (read : Reader α),
        decode blank read (write entries) = read d rootPath (.mapping m ns) := by
  obtain ⟨es, hparse, hes⟩ := parse_write hne hwritable
  obtain ⟨n, m, ⟨mark, ns, rfl, hns⟩, hbuild⟩ := Document.build_document hwritable hes
  refine ⟨⟨some (.mapping mark ns), [], none⟩, mark, ns, hns, fun blank read => ?_⟩
  have hlast : Document.isLast none [⟨.streamEnd, m⟩] = true := rfl
  simp only [decode, hparse, hbuild, hlast]
  cases read ⟨some (.mapping mark ns), [], none⟩ rootPath (.mapping mark ns) <;> rfl

end DocStamp.Yaml
