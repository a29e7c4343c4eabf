/-
# What can be seen of a tree of files

`Node.view` says what stands at each location: a file with its content,
a link with its target, a directory, or nothing.  The order in which
directories list their entries is not part of it.  Operations on trees
are specified by what they do to the view: putting a leaf into a
directory changes the view at one location (`view_setAt`).

`Node.Proper` is what every tree on a disk has: the entries of a
directory have different names, and names they are.  `Node.LinkFree`
says that no link can be seen.
-/
import DocStamp.Proofs.Path.Pieces

namespace DocStamp.Files.Node

open DocStamp.Path (IsName AreNames)

/-! ## Locations -/

/-- What is at a location, without what is below it. -/
inductive Item where
  | file (content : Content)
  | link (target : String)
  | dir
deriving DecidableEq, Repr

def item : Node → Item
  | .file c => .file c
  | .link t => .link t
  | .dir _ => .dir

/-- What stands at a location. -/
def view (n : Node) (l : Location) : Option Item := (n.at? l).map item

theorem isDir_iff {n : Node} : n.isDir = true ↔ n.item = .dir := by
  cases n <;> simp [isDir, item]

theorem at?_nil (n : Node) : n.at? [] = some n := by
  cases n <;> rfl

theorem at?_cons (n : Node) (name : String) (names : Location) :
    n.at? (name :: names) = Option.bind ( Node.entry? n name) (·.at? names) := by
  cases h : n.entry? name <;> simp [at?, h]

theorem at?_append (n : Node) (a b : Location) :
    n.at? (a ++ b) = (n.at? a).bind (·.at? b) := by
  induction a generalizing n with
  | nil => simp [at?_nil]
  | cons name a ih =>
      rw [List.cons_append, at?_cons, at?_cons]
      cases n.entry? name with
      | none => rfl
      | some m => exact ih m

theorem view_append {n m : Node} {a : Location} (h : n.at? a = some m) (b : Location) :
    n.view (a ++ b) = m.view b := by
  simp [view, at?_append, h]

theorem view_of_at? {n m : Node} {l : Location} (h : n.at? l = some m) :
    n.view l = some m.item := by
  simp [view, h]

theorem view_eq_some {n : Node} {l : Location} {i : Item} (h : n.view l = some i) :
    ∃ m, n.at? l = some m ∧ m.item = i := Option.map_eq_some_iff.1 h

theorem view_eq_dir {n : Node} {l : Location} (h : n.view l = some .dir) :
    ∃ entries, n.at? l = some (.dir entries) := by
  obtain ⟨m, hm, hi⟩ := view_eq_some h
  cases m with
  | dir entries => exact ⟨entries, hm⟩
  | file | link => cases hi

theorem view_eq_file {n : Node} {l : Location} {c : Content} (h : n.view l = some (.file c)) :
    n.at? l = some (.file c) := by
  obtain ⟨m, hm, hi⟩ := view_eq_some h
  cases m with
  | file => cases hi; exact hm
  | link | dir => cases hi

theorem view_eq_link {n : Node} {l : Location} {t : String} (h : n.view l = some (.link t)) :
    n.at? l = some (.link t) := by
  obtain ⟨m, hm, hi⟩ := view_eq_some h
  cases m with
  | link => cases hi; exact hm
  | file | dir => cases hi

theorem entry?_eq_some {n m : Node} {name : String} (h : n.entry? name = some m) :
    ∃ entries, n = .dir entries ∧ entries.lookup name = some m := by
  cases n with
  | dir entries => exact ⟨entries, rfl, h⟩
  | file | link => cases h

theorem view_dir_of_append {n : Node} {a b : Location} {i : Item} (hb : b ≠ [])
    (h : n.view (a ++ b) = some i) : n.view a = some .dir := by
  obtain ⟨m, hm, -⟩ := view_eq_some h
  obtain ⟨m', hm', hb'⟩ := Option.bind_eq_some_iff.1 (at?_append n a b ▸ hm)
  cases b with
  | nil => exact absurd rfl hb
  | cons name b =>
      obtain ⟨k, hk, -⟩ := Option.bind_eq_some_iff.1 (at?_cons m' name b ▸ hb')
      obtain ⟨entries, rfl, -⟩ := entry?_eq_some hk
      exact view_of_at? hm'

theorem view_dropLast {n : Node} {l : Location} (h : n.view l = some .dir) :
    n.view l.dropLast = some .dir := by
  rcases List.eq_nil_or_concat l with rfl | ⟨init, name, rfl⟩
  · exact h
  · rw [List.concat_eq_append] at h
    simpa using view_dir_of_append (by simp) h

theorem view_dir_root {n : Node} {l : Location} (h : n.view l = some .dir) :
    n.view [] = some .dir := by
  cases l with
  | nil => exact h
  | cons x xs => exact view_dir_of_append (a := []) (by simp) h

theorem view_below_eq_none {n : Node} {a b : Location} (hb : b ≠ [])
    (h : n.view a ≠ some .dir) : n.view (a ++ b) = none := by
  cases hv : n.view (a ++ b) with
  | none => rfl
  | some i => exact absurd (view_dir_of_append hb hv) h

/-! ## Putting a leaf into a directory -/

theorem lookup_cons_eq (name : String) (m : Node) (entries : List (String × Node)) (x : String) :
    ((name, m) :: entries).lookup x = if x = name then some m else entries.lookup x := by
  rw [List.lookup_cons]
  by_cases h : x = name
  · simp [h]
  · simp [h, beq_eq_false_iff_ne.2 h]

theorem lookup_setEntry (name : String) (m : Node) (entries : List (String × Node))
    (x : String) :
    (setEntry name m entries).lookup x = if x = name then some m else entries.lookup x := by
  induction entries with
  | nil => simp only [setEntry, lookup_cons_eq]
  | cons e entries ih =>
      obtain ⟨other, k⟩ := e
      by_cases ho : other = name
      · by_cases h : x = name <;> simp only [setEntry, ho, if_true, lookup_cons_eq, h, if_false]
      · simp only [setEntry, ho, if_false, lookup_cons_eq, ih]
        by_cases h : x = other
        · simp [h, ho]
        · simp [h]

theorem entry?_setEntry (name : String) (m : Node) (entries : List (String × Node)) (x : String) :
    Node.entry? (.dir (setEntry name m entries)) x =
      if x = name then some m else Node.entry? (.dir entries) x :=
  lookup_setEntry name m entries x

theorem setAt_singleton (m : Node) (entries : List (String × Node)) (name : String) :
    (Node.dir entries).setAt m [name] = .dir (setEntry name m entries) := by
  simp [setAt]

theorem setAt_cons (m child : Node) {entries : List (String × Node)} {name : String}
    {names : Location} (hne : names ≠ []) (h : entries.lookup name = some child) :
    (Node.dir entries).setAt m (name :: names) = .dir (setEntry name (child.setAt m names) entries) := by
  cases names with
  | nil => exact absurd rfl hne
  | cons n ns => simp [setAt, h]

/-- Putting a node into a directory shows it there, with what is below it, and changes
nothing else that can be seen. -/
theorem at?_setAt_view (m : Node) (name : String) :
    ∀ {root : Node} {dir : Location} {entries : List (String × Node)},
      root.at? dir = some (.dir entries) → ∀ l : Location,
        (root.setAt m (dir ++ [name])).view l =
          if dir ++ [name] <+: l then m.view (l.drop (dir.length + 1)) else root.view l
  | root, [], entries, h, l => by
      rw [at?_nil, Option.some.injEq] at h
      subst h
      rw [List.nil_append, setAt_singleton]
      cases l with
      | nil => simp [view, at?_nil, item]
      | cons x xs =>
          by_cases hx : x = name
          · simp [view, at?_cons, entry?_setEntry, hx]
          · simp [view, at?_cons, entry?_setEntry, hx, Ne.symm hx]
  | root, d :: ds, entries, h, l => by
      obtain ⟨child, hc, hds⟩ := Option.bind_eq_some_iff.1 (at?_cons root d ds ▸ h)
      obtain ⟨es, rfl, hl⟩ := entry?_eq_some hc
      have ih := at?_setAt_view m name hds
      rw [List.cons_append, setAt_cons m child (by simp) hl]
      cases l with
      | nil => simp [view, at?_nil, item]
      | cons x xs =>
          by_cases hx : x = d
          · subst hx
            have := ih xs
            simp only [view] at this
            simp [view, at?_cons, entry?_setEntry, hc, this]
          · simp [view, at?_cons, entry?_setEntry, hx, Ne.symm hx]

/-- Nothing is below a leaf. -/
def IsLeaf (m : Node) : Prop := ∀ l, l ≠ [] → m.view l = none

theorem isLeaf_file (c : Content) : IsLeaf (.file c) := by
  intro l hl
  cases l with
  | nil => exact absurd rfl hl
  | cons x xs => rfl

theorem isLeaf_dir_nil : IsLeaf (.dir []) := by
  intro l hl
  cases l with
  | nil => exact absurd rfl hl
  | cons x xs => rfl

/-- Putting a leaf into a directory, where no directory is, changes the view there and
nowhere else. -/
theorem view_setAt {root m : Node} {dir : Location} {name : String} (hm : IsLeaf m)
    (hdir : root.view dir = some .dir) (hfree : root.view (dir ++ [name]) ≠ some .dir)
    (l : Location) :
    (root.setAt m (dir ++ [name])).view l =
      if l = dir ++ [name] then some m.item else root.view l := by
  obtain ⟨entries, he⟩ := view_eq_dir hdir
  rw [at?_setAt_view m name he]
  by_cases hpre : dir ++ [name] <+: l
  · obtain ⟨rest, rfl⟩ := hpre
    have hdrop : (dir ++ [name] ++ rest).drop (dir.length + 1) = rest := by
      simp [List.append_assoc]
    rw [if_pos ⟨rest, rfl⟩, hdrop]
    by_cases hr : rest = []
    · simp [hr, view, at?_nil]
    · rw [if_neg (by simpa using hr), hm rest hr, view_below_eq_none hr hfree]
  · have hne : l ≠ dir ++ [name] := fun h => hpre (h ▸ List.prefix_rfl)
    rw [if_neg hpre, if_neg hne]

theorem setEntry_self {name : String} {m : Node} {entries : List (String × Node)}
    (h : entries.lookup name = some m) : setEntry name m entries = entries := by
  induction entries with
  | nil => cases h
  | cons e entries ih =>
      obtain ⟨other, k⟩ := e
      rw [lookup_cons_eq] at h
      by_cases ho : other = name
      · rw [if_pos ho.symm, Option.some.injEq] at h
        simp [setEntry, ho, h]
      · rw [if_neg fun hn => ho hn.symm] at h
        simp [setEntry, ho, ih h]

theorem setAt_self {m : Node} : ∀ {root : Node} {l : Location}, root.at? l = some m →
    root.setAt m l = root
  | root, [], h => by
      rw [at?_nil, Option.some.injEq] at h
      simp [setAt, h]
  | root, name :: names, h => by
      obtain ⟨child, hc, hnames⟩ := Option.bind_eq_some_iff.1 (at?_cons root name names ▸ h)
      obtain ⟨entries, rfl, hl⟩ := entry?_eq_some hc
      cases names with
      | nil =>
          rw [at?_nil, Option.some.injEq] at hnames
          rw [setAt_singleton, setEntry_self (hnames ▸ hl)]
      | cons n ns => rw [setAt_cons m child (by simp) hl, setAt_self hnames, setEntry_self hl]

/-! ## Proper trees -/

/-- Directories list different names, and names only. -/
inductive Proper : Node → Prop
  | file (c : Content) : Proper (.file c)
  | link (t : String) : Proper (.link t)
  | dir {entries : List (String × Node)} : (entries.map Prod.fst).Nodup →
      (∀ e ∈ entries, IsName e.1) → (∀ e ∈ entries, Proper e.2) → Proper (.dir entries)

theorem Proper.nodup {entries : List (String × Node)} (h : Proper (.dir entries)) :
    (entries.map Prod.fst).Nodup := by
  cases h; assumption

theorem Proper.isName {entries : List (String × Node)} (h : Proper (.dir entries)) :
    ∀ e ∈ entries, IsName e.1 := by
  cases h; assumption

theorem Proper.entry {entries : List (String × Node)} (h : Proper (.dir entries)) :
    ∀ e ∈ entries, Proper e.2 := by
  cases h; assumption

@[simp] theorem proper_file (c : Content) : Proper (.file c) := .file c

@[simp] theorem proper_link (t : String) : Proper (.link t) := .link t

theorem proper_dir_iff {entries : List (String × Node)} : Proper (.dir entries) ↔
    (entries.map Prod.fst).Nodup ∧ ∀ e ∈ entries, IsName e.1 ∧ Proper e.2 :=
  ⟨fun h => ⟨h.nodup, fun e he => ⟨h.isName e he, h.entry e he⟩⟩,
    fun h => .dir h.1 (fun e he => (h.2 e he).1) fun e he => (h.2 e he).2⟩

theorem mem_of_lookup {entries : List (String × Node)} {name : String} {m : Node}
    (h : entries.lookup name = some m) : (name, m) ∈ entries := by
  obtain ⟨as, bs, rfl, -⟩ := List.lookup_eq_some_iff.1 h
  simp

theorem Proper.lookup_of_mem {entries : List (String × Node)} {e : String × Node}
    (h : Proper (.dir entries)) (he : e ∈ entries) : entries.lookup e.1 = some e.2 := by
  have hnodup := h.nodup
  obtain ⟨as, bs, rfl⟩ := List.append_of_mem he
  refine List.lookup_eq_some_iff.2 ⟨as, bs, rfl, fun p hp => ?_⟩
  simp only [List.map_append, List.map_cons, List.nodup_append] at hnodup
  simpa using fun heq : e.1 = p.1 =>
    hnodup.2.2 p.1 (List.mem_map_of_mem hp) e.1 List.mem_cons_self heq.symm

/-- Locations in a proper tree are made of names, and lead to proper trees. -/
theorem Proper.at? : ∀ {root n : Node} {l : Location}, Proper root → root.at? l = some n →
    AreNames l ∧ Proper n
  | root, n, [], h, hl => by
      rw [at?_nil, Option.some.injEq] at hl
      exact ⟨Path.areNames_nil, hl ▸ h⟩
  | root, n, name :: names, h, hl => by
      obtain ⟨child, hc, hnames⟩ := Option.bind_eq_some_iff.1 (at?_cons root name names ▸ hl)
      obtain ⟨entries, rfl, hlookup⟩ := entry?_eq_some hc
      have hmem := mem_of_lookup hlookup
      obtain ⟨hn, hp⟩ := (h.entry _ hmem).at? hnames
      refine ⟨fun x hx => ?_, hp⟩
      rcases List.mem_cons.1 hx with rfl | hx
      · exact h.isName _ hmem
      · exact hn x hx

theorem Proper.areNames {root : Node} {l : Location} {i : Item} (h : Proper root)
    (hv : root.view l = some i) : AreNames l := by
  obtain ⟨n, hn, -⟩ := view_eq_some hv
  exact (h.at? hn).1

theorem mem_setEntry {name : String} {m : Node} {entries : List (String × Node)}
    {e : String × Node} (h : e ∈ setEntry name m entries) : e = (name, m) ∨ e ∈ entries := by
  induction entries with
  | nil => exact .inl (List.mem_singleton.1 h)
  | cons d entries ih =>
      obtain ⟨other, k⟩ := d
      unfold setEntry at h
      split at h
      · rcases List.mem_cons.1 h with h | h
        · exact .inl h
        · exact .inr (List.mem_cons_of_mem _ h)
      · rcases List.mem_cons.1 h with h | h
        · exact .inr (h ▸ List.mem_cons_self)
        · exact (ih h).imp_right (List.mem_cons_of_mem _)

theorem nodup_setEntry {name : String} {m : Node} {entries : List (String × Node)}
    (h : (entries.map Prod.fst).Nodup) : ((setEntry name m entries).map Prod.fst).Nodup := by
  induction entries with
  | nil => simp [setEntry]
  | cons d entries ih =>
      obtain ⟨other, k⟩ := d
      obtain ⟨hnot, htail⟩ := List.nodup_cons.1 h
      by_cases ho : other = name
      · simpa [setEntry, ho] using h
      · rw [setEntry, if_neg ho]
        refine List.nodup_cons.2 ⟨fun hmem => ?_, ih htail⟩
        obtain ⟨e, he, heq⟩ := List.mem_map.1 hmem
        rcases mem_setEntry he with rfl | he
        · exact ho heq.symm
        · exact hnot (List.mem_map.2 ⟨e, he, heq⟩)

theorem Proper.setEntry {name : String} {m : Node} {entries : List (String × Node)}
    (h : Proper (.dir entries)) (hn : IsName name) (hm : Proper m) :
    Proper (.dir (setEntry name m entries)) := by
  refine .dir (nodup_setEntry h.nodup) (fun e he => ?_) fun e he => ?_
  · rcases mem_setEntry he with rfl | he
    · exact hn
    · exact h.isName e he
  · rcases mem_setEntry he with rfl | he
    · exact hm
    · exact h.entry e he

theorem Proper.setAt {m : Node} {name : String} (hn : IsName name) (hm : Proper m) :
    ∀ {root : Node} {dir : Location} {entries : List (String × Node)}, Proper root →
      root.at? dir = some (.dir entries) → Proper (root.setAt m (dir ++ [name]))
  | root, [], entries, h, hdir => by
      rw [at?_nil, Option.some.injEq] at hdir
      subst hdir
      rw [List.nil_append, setAt_singleton]
      exact h.setEntry hn hm
  | root, d :: ds, entries, h, hdir => by
      obtain ⟨child, hc, hds⟩ := Option.bind_eq_some_iff.1 (at?_cons root d ds ▸ hdir)
      obtain ⟨es, rfl, hl⟩ := entry?_eq_some hc
      have hmem := mem_of_lookup hl
      rw [List.cons_append, setAt_cons m child (by simp) hl]
      exact h.setEntry (h.isName _ hmem) (Proper.setAt hn hm (h.entry _ hmem) hds)

/-! ## Trees without links -/

/-- No link can be seen. -/
def LinkFree (n : Node) : Prop := ∀ l t, n.view l ≠ some (.link t)

theorem linkFree_file (c : Content) : LinkFree (.file c) := by
  intro l t
  cases l with
  | nil => simp [view, at?_nil, item]
  | cons x xs => rw [isLeaf_file c _ (by simp)]; simp

theorem linkFree_dir {entries : List (String × Node)} (h : ∀ e ∈ entries, LinkFree e.2) :
    LinkFree (.dir entries) := by
  intro l t hv
  cases l with
  | nil => simp [view, at?_nil, item] at hv
  | cons x xs =>
      obtain ⟨m, hm, hi⟩ := view_eq_some hv
      obtain ⟨child, hc, hxs⟩ := Option.bind_eq_some_iff.1 (at?_cons _ x xs ▸ hm)
      exact h _ (mem_of_lookup hc) xs t (hi ▸ view_of_at? hxs)

end DocStamp.Files.Node
