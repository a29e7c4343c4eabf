/-
# What trees mean

A tree that is written out, without aliases and not cut off, means the
same wherever it stands.  So a reader of such trees is known by the
relation between a tree and what it means.  Here are the relations of
texts, of texts that may be absent, and of lists.
-/
import DocStamp.Proofs.Yaml.Reader
import Mathlib.Data.List.Forall2

namespace DocStamp.Yaml

/-! ## Trees that are written out -/

/-- Every part of the tree stands where it is: none is an alias, and none is cut off. -/
inductive Node.Direct : Node → Prop
  | scalar (m : Mark) (tag : Option String) (style : Style) (s : String) :
      Direct (.scalar m tag style s)
  | sequence (m : Mark) {items : List Node} (h : ∀ n ∈ items, Direct n) :
      Direct (.sequence m items)
  | mapping (m : Mark) {entries : List (Node × Node)} (hkeys : ∀ e ∈ entries, Direct e.1)
      (hvalues : ∀ e ∈ entries, Direct e.2) : Direct (.mapping m entries)

namespace Node

theorem Direct.follow_eq {n : Node} (h : n.Direct) (d : Document) : d.follow n = n := by
  cases h <;> rfl

theorem Direct.ne_cut {n : Node} (h : n.Direct) : n ≠ .cut := by
  rintro rfl
  cases h

/-- The items of a list; a plain scalar without text has none. -/
inductive HasItems : Node → List Node → Prop
  | blank (m : Mark) (tag : Option String) : HasItems (.scalar m tag .plain "") []
  | items (m : Mark) (ns : List Node) : HasItems (.sequence m ns) ns

/-- The entries of a record; a plain scalar without text has none. -/
inductive HasEntries : Node → List (Node × Node) → Prop
  | blank (m : Mark) (tag : Option String) : HasEntries (.scalar m tag .plain "") []
  | entries (m : Mark) (es : List (Node × Node)) : HasEntries (.mapping m es) es

theorem HasEntries.direct {n : Node} {es : List (Node × Node)} (h : n.HasEntries es)
    (hn : n.Direct) : (∀ e ∈ es, e.1.Direct) ∧ ∀ e ∈ es, e.2.Direct := by
  cases h with
  | blank m tag => exact ⟨List.forall_mem_nil _, List.forall_mem_nil _⟩
  | entries m _ =>
      cases hn with
      | mapping _ hkeys hvalues => exact ⟨hkeys, hvalues⟩

theorem eq_of_isBlankScalar {n : Node} (h : isBlankScalar n = true) :
    ∃ m tag, n = .scalar m tag .plain "" := by
  unfold isBlankScalar at h
  split at h
  next m tag => exact ⟨m, tag, rfl⟩
  next => cases h

end Node

/-! ## What texts and lists mean -/

section

variable {α : Type}

/-- The reader takes a tree that is written out for what it means, and refuses one that means
nothing, in every document and under every path. -/
def Decides (read : Reader α) (Means : Node → α → Prop) : Prop :=
  ∀ d path n a, n.Direct → (read d path n = .ok a ↔ Means n a)

theorem located_eq_ok_iff {path : String} {n : Node} {r : Except Error α} {a : α} :
    located path n r = .ok a ↔ r = .ok a := by
  refine ⟨located_eq_ok, ?_⟩
  rintro rfl
  rfl

theorem map_eq_ok_iff {β : Type} {g : α → β} {x : Except Error α} {b : β} :
    g <$> x = .ok b ↔ ∃ a, x = .ok a ∧ b = g a := by
  cases x with
  | error e =>
      constructor
      · intro h
        cases h
      · rintro ⟨a, h, -⟩
        cases h
  | ok a =>
      constructor
      · intro h
        cases h
        exact ⟨a, rfl, rfl⟩
      · rintro ⟨a', h, rfl⟩
        cases h
        rfl

/-- A scalar means its text. -/
def MeansText (n : Node) (s : String) : Prop := ∃ m tag style, n = .scalar m tag style s

theorem decides_text (expected : String) : Decides (text expected) MeansText := by
  intro d path n s hn
  rw [text, hn.follow_eq, located_eq_ok_iff]
  constructor
  · intro h
    cases hn with
    | scalar m tag style t =>
        cases h
        exact ⟨m, tag, style, rfl⟩
    | sequence m _ => exact absurd h (refuse_ne_ok _ _ _ _)
    | mapping m _ _ => exact absurd h (refuse_ne_ok _ _ _ _)
  · rintro ⟨m, tag, style, rfl⟩
    rfl

/-- The tag of a scalar that is said to be nothing. -/
def nullTag : String := "tag:yaml.org,2002:null"

/-- A plain scalar may mean that there is no text: if it has no tag, by being empty or a word for
nothing, and under the tag for nothing only by such a word. -/
inductive MeansOptionalText : Node → Option String → Prop
  | blank (m : Mark) {s : String} (h : (s == "" || isNull s) = true) :
      MeansOptionalText (.scalar m none .plain s) none
  | null (m : Mark) {s : String} (h : isNull s = true) :
      MeansOptionalText (.scalar m (some nullTag) .plain s) none
  | text (m : Mark) {tag : Option String} {style : Style} {s : String}
      (h : style = .plain → tag ≠ some nullTag ∧ (tag = none → (s == "" || isNull s) = false)) :
      MeansOptionalText (.scalar m tag style s) (some s)

theorem decides_optional (expected : String) :
    Decides (optional (text expected)) MeansOptionalText := by
  intro d path n o hn
  rw [optional, hn.follow_eq]
  split
  next m s =>
    constructor
    · intro h
      split at h
      next hnull =>
        cases h
        exact .null m hnull
      next => cases h
    · intro h
      cases h with
      | null _ h => rw [if_pos h]
      | text _ h => exact absurd rfl (h rfl).1
  next m s =>
    constructor
    · intro h
      split at h
      next hnull =>
        cases h
        exact .blank m hnull
      next htext =>
        cases h
        exact .text m fun _ => ⟨by simp, fun _ => Bool.eq_false_iff.2 htext⟩
    · intro h
      cases h with
      | blank _ h => rw [if_pos h]
      | text _ h =>
          rw [(h rfl).2 rfl, if_neg Bool.false_ne_true]
          rfl
  next hnull hnone =>
    -- Any other scalar is text, and nothing else is.
    rw [map_eq_ok_iff]
    constructor
    · rintro ⟨s, hs, rfl⟩
      obtain ⟨m, tag, style, rfl⟩ := (decides_text _ _ _ _ _ hn).1 hs
      refine .text m ?_
      rintro rfl
      refine ⟨?_, ?_⟩
      · rintro rfl
        exact hnull m s rfl
      · rintro rfl
        exact (hnone m s rfl).elim
    · intro h
      cases h with
      | blank m h => exact (hnone m _ rfl).elim
      | null m h => exact (hnull m _ rfl).elim
      | text m h => exact ⟨_, rfl, rfl⟩

/-- What a list means, if its items mean what `Item` says. -/
def MeansList (Item : Node → α → Prop) (n : Node) (as : List α) : Prop :=
  ∃ ns, n.HasItems ns ∧ List.Forall₂ Item ns as

theorem itemsFrom_eq_ok_iff {read : Reader α} {Item : Node → α → Prop} (hread : Decides read Item)
    {ns : List Node} (hns : ∀ n ∈ ns, n.Direct) (d : Document) (path : String) (i : Nat)
    (as : List α) : itemsFrom read d path i ns = .ok as ↔ List.Forall₂ Item ns as := by
  induction ns generalizing i as with
  | nil =>
      rw [List.forall₂_nil_left_iff]
      constructor
      · intro h
        cases h
        rfl
      · rintro rfl
        rfl
  | cons n ns ih =>
      obtain ⟨hn, hns⟩ := List.forall_mem_cons.1 hns
      rw [itemsFrom_cons hn.ne_cut, List.forall₂_cons_left_iff]
      constructor
      · intro h
        obtain ⟨a, ha, h⟩ := bind_eq_ok h
        obtain ⟨rest, hrest, h⟩ := bind_eq_ok h
        cases h
        exact ⟨a, rest, (hread _ _ _ _ hn).1 ha, (ih hns _ _).1 hrest, rfl⟩
      · rintro ⟨a, rest, ha, hrest, rfl⟩
        rw [(hread _ _ _ _ hn).2 ha, ok_bind, (ih hns _ _).2 hrest]
        rfl

theorem decides_list {read : Reader α} {Item : Node → α → Prop} (hread : Decides read Item) :
    Decides (list read) (MeansList Item) := by
  intro d path n as hn
  rw [list, hn.follow_eq, located_eq_ok_iff]
  constructor
  · intro h
    split at h
    next hblank =>
      obtain ⟨m, tag, rfl⟩ := Node.eq_of_isBlankScalar hblank
      cases h
      exact ⟨[], .blank m tag, .nil⟩
    next =>
      cases hn with
      | sequence m hitems =>
          exact ⟨_, .items m _, (itemsFrom_eq_ok_iff hread hitems d path 0 as).1 h⟩
      | scalar m tag style s => exact absurd h (refuse_ne_ok _ _ _ _)
      | mapping m _ _ => exact absurd h (refuse_ne_ok _ _ _ _)
  · rintro ⟨ns, hns, has⟩
    cases hns with
    | blank m tag =>
        cases has
        rfl
    | items m _ =>
        cases hn with
        | sequence _ hitems => exact (itemsFrom_eq_ok_iff hread hitems d path 0 as).2 has

end

end DocStamp.Yaml
