/-
# Operations where there are no links

A session is `Plain` if its tree is proper and shows no links, and its
current directory is there.  On a plain session an operation acts at the
location of its path: `Session.Puts` says that one leaf was put there
and nothing else changed, `Session.Grows` that directories were added.
-/
import DocStamp.Proofs.Files.Parents

namespace DocStamp.Files

open DocStamp.Path (AreNames IsName)

namespace Session

/-! ## Plain sessions -/

/-- The tree is proper and shows no links, and the current directory is there. -/
structure Plain (s : Session) : Prop where
  proper : s.root.Proper
  linkFree : s.root.LinkFree
  here : s.root.view s.here = some .dir

theorem Plain.areNames_here {s : Session} (h : s.Plain) : AreNames s.here := by
  obtain ⟨entries, he⟩ := Node.view_eq_dir h.here
  exact (h.proper.at? he).1

theorem Plain.view_startOf {s : Session} (h : s.Plain) (text : String) :
    s.root.view (startOf text s.here) = some .dir := by
  unfold startOf
  split
  · exact Node.view_dir_root h.here
  · exact h.here

theorem Plain.locate_ok {s : Session} (hs : s.Plain) {aim : Aim} {p : Path} {spot : Spot}
    (h : s.locate aim p = .ok spot) :
    spot.location = p.location s.here ∧ spot.Holds s.root := by
  obtain ⟨-, hfollow⟩ := locate_ok_iff.1 h
  have := follow_ok hs.linkFree (hs.view_startOf p.text) hfollow
  rwa [foldl_move_stepsOf] at this

theorem Plain.node_ok {s : Session} (hs : s.Plain) {p : Path} {n : Node}
    (h : s.node p = .ok n) : s.root.at? (p.location s.here) = some n := by
  obtain ⟨l, hl⟩ := node_ok_iff.1 h
  obtain ⟨hloc, hholds⟩ := hs.locate_ok hl
  exact hloc ▸ hholds

theorem Plain.readText_ok {s : Session} (hs : s.Plain) {p : Path} {t : String}
    (h : s.readText p = .ok t) : s.root.view (p.location s.here) = some (.file (.text t)) :=
  Node.view_of_at? (hs.node_ok (readText_ok_iff.1 h))

/-- One leaf was put at a location, and nothing else can be seen to have changed. -/
structure Puts (s : Session) (l : Location) (i : Node.Item) (s' : Session) : Prop where
  plain : s'.Plain
  here : s'.here = s.here
  view : ∀ x, s'.root.view x = if x = l then some i else s.root.view x

theorem Plain.puts {s : Session} (hs : s.Plain) {d : Location} {name : String} {m : Node}
    (hname : IsName name) (hleaf : m.IsLeaf) (hm : m.Proper) (hlink : ∀ t, m.item ≠ .link t)
    (hdir : s.root.view d = some .dir) (hfree : s.root.view (d ++ [name]) ≠ some .dir) :
    s.Puts (d ++ [name]) m.item { s with root := s.root.setAt m (d ++ [name]) } := by
  have hview := Node.view_setAt (m := m) hleaf hdir hfree
  obtain ⟨entries, he⟩ := Node.view_eq_dir hdir
  refine ⟨⟨Node.Proper.setAt hname hm hs.proper he, fun l t => ?_, ?_⟩, rfl, hview⟩
  · rw [hview]
    split
    · simpa using hlink t
    · exact hs.linkFree l t
  · have hne : s.here ≠ d ++ [name] := fun h => hfree (h ▸ hs.here)
    simp only [hview, if_neg hne, hs.here]

theorem Plain.isName_last {s : Session} (hs : s.Plain) {p : Path} {d : Location} {name : String}
    (h : d ++ [name] = p.location s.here) : IsName name := by
  have hnames := Path.areNames_location hs.areNames_here p
  rw [← h] at hnames
  exact hnames name (by simp)

/-- A name that is short enough and holds no zero. -/
def Fits (name : String) : Prop := name.utf8ByteSize ≤ nameLimit ∧ '\x00' ∉ name.toList

theorem Plain.fits_of_free {s : Session} (hs : s.Plain) {aim : Aim} {p : Path} {d : Location}
    {name : String} (h : s.locate aim p = .ok (.free d name)) : Fits name := by
  obtain ⟨hrefusal, hfollow⟩ := locate_ok_iff.1 h
  obtain ⟨hmem, hsize⟩ := follow_free hs.linkFree hfollow
  refine ⟨hsize, fun hnul => (refusal?_eq_none_iff.1 hrefusal).1 ?_⟩
  have hpart : name ∈ p.parts := by
    rcases stepsOf_eq p with e | e <;> rw [e] at hmem
    · exact hmem
    · rcases List.mem_append.1 hmem with hmem | hmem
      · exact hmem
      · rw [List.mem_singleton.1 hmem] at hnul
        cases hnul
  exact (Path.mem_parts_iff.1 ⟨name, hpart, hnul⟩).1

theorem Plain.makeDirectory_ok {s s' : Session} (hs : s.Plain) {p : Path}
    (h : s.makeDirectory p = .ok s') :
    s.root.view (p.location s.here) = none ∧ (∀ n ∈ (p.location s.here).getLast?, Fits n) ∧
      s.Puts (p.location s.here) .dir s' := by
  obtain ⟨d, name, hl, rfl⟩ := makeDirectory_ok_iff.1 h
  obtain ⟨hloc, hdir, hnone⟩ := hs.locate_ok hl
  rw [Spot.location] at hloc
  rw [← hloc]
  refine ⟨hnone, ?_, hs.puts (hs.isName_last hloc) Node.isLeaf_dir_nil
    (Node.proper_dir_iff.2 (by simp)) (by simp [Node.item]) hdir (by simp [hnone])⟩
  simpa using hs.fits_of_free hl

theorem Plain.writeFile_ok {s s' : Session} (hs : s.Plain) {p : Path} {c : Content}
    (h : s.writeFile p c = .ok s') :
    s.root.view (p.location s.here) ≠ some .dir ∧ s.Puts (p.location s.here) (.file c) s' := by
  obtain ⟨spot, hl, hne, rfl⟩ := writeFile_ok_iff.1 h
  obtain ⟨hloc, hholds⟩ := hs.locate_ok hl
  have hfree : s.root.view spot.location ≠ some .dir := by
    intro hv
    cases spot with
    | free d name => simp [Spot.location, hholds.2] at hv
    | found l n =>
        obtain ⟨entries, he⟩ := Node.view_eq_dir hv
        exact hne l entries (by rw [Option.some.inj (hholds.symm.trans he)])
  -- A file is never at the root, which is a directory.
  have hcons : ∃ d name, spot.location = d ++ [name] := by
    rcases List.eq_nil_or_concat spot.location with h | ⟨d, name, h⟩
    · exact absurd (h ▸ Node.view_dir_root hs.here) hfree
    · exact ⟨d, name, by rw [h, List.concat_eq_append]⟩
  obtain ⟨d, name, hd⟩ := hcons
  have hdir : s.root.view d = some .dir := by
    cases spot with
    | free d' name' =>
        obtain ⟨rfl, -⟩ := List.append_inj' hd rfl
        exact hholds.1
    | found l n =>
        have hv : s.root.view (d ++ [name]) = some n.item := hd ▸ Node.view_of_at? hholds
        exact Node.view_dir_of_append (by simp) hv
  rw [← hloc]
  refine ⟨hfree, ?_⟩
  rw [hd] at hloc hfree ⊢
  exact hs.puts (hs.isName_last hloc) (Node.isLeaf_file c) (.file c) (by simp [Node.item]) hdir hfree

/-! ## Making directories -/

/-- A directory whose name fits stands where nothing was. -/
structure Added (s s' : Session) (l : Location) : Prop where
  before : s.root.view l = none
  after : s'.root.view l = some .dir
  fits : ∀ n ∈ l.getLast?, Fits n

/-- Directories were added, and nothing else can be seen to have changed. -/
structure Grows (s s' : Session) : Prop where
  plain : s'.Plain
  here : s'.here = s.here
  view : ∀ l, s'.root.view l = s.root.view l ∨ Added s s' l

theorem Plain.grows_refl {s : Session} (hs : s.Plain) : s.Grows s :=
  ⟨hs, rfl, fun _ => .inl rfl⟩

theorem Grows.trans {s₁ s₂ s₃ : Session} (h : s₁.Grows s₂) (h' : s₂.Grows s₃) : s₁.Grows s₃ := by
  refine ⟨h'.plain, h'.here.trans h.here, fun l => ?_⟩
  rcases h.view l with e | ha
  · rcases h'.view l with e' | ha'
    · exact .inl (e'.trans e)
    · exact .inr ⟨e ▸ ha'.before, ha'.after, ha'.fits⟩
  · rcases h'.view l with e' | ha'
    · exact .inr ⟨ha.before, e'.trans ha.after, ha.fits⟩
    · cases ha'.before.symm.trans ha.after

theorem Grows.view_eq {s s' : Session} (h : s.Grows s') {l : Location} {i : Node.Item}
    (hv : s.root.view l = some i) : s'.root.view l = some i := by
  rcases h.view l with e | ha
  · rw [e, hv]
  · cases ha.before.symm.trans hv

theorem Grows.keeps {s s' : Session} (h : s.Grows s') : s.root.Keeps s'.root :=
  ⟨h.view_eq, h.view_eq⟩

theorem Puts.grows {s s' : Session} {l : Location} (h : s.Puts l .dir s')
    (hnone : s.root.view l = none) (hfits : ∀ n ∈ l.getLast?, Fits n) : s.Grows s' := by
  refine ⟨h.plain, h.here, fun x => ?_⟩
  by_cases hx : x = l
  · exact .inr ⟨hx ▸ hnone, by rw [h.view, if_pos hx], hx ▸ hfits⟩
  · exact .inl (by rw [h.view, if_neg hx])

theorem Puts.keeps {s s' : Session} {l : Location} {i : Node.Item} (hs : s.Plain)
    (h : s.Puts l i s') (hne : s.root.view l ≠ some .dir) : s.root.Keeps s'.root := by
  constructor
  · intro x hx
    rw [h.view, if_neg fun e : x = l => hne (e ▸ hx), hx]
  · intro x t hx
    exact absurd hx (hs.linkFree x t)

theorem Makes.grows {s s' : Session} (h : s.Makes s') (hs : s.Plain) : s.Grows s' := by
  induction h with
  | refl s => exact hs.grows_refl
  | step hmake _ ih =>
      obtain ⟨hnone, hfits, hputs⟩ := hs.makeDirectory_ok hmake
      have hgrows := hputs.grows hnone hfits
      exact hgrows.trans (ih hgrows.plain)

theorem Plain.ensureParent_run {ε : Type} {s : Session} (hs : s.Plain) (p : Path) :
    ∃ r s', s.run (ensureParent p : ExceptT ε (StateM Session) _) = (.ok r, s') ∧ s.Grows s' ∧
      (r = .ok () → s'.HasParent p) := by
  obtain ⟨r, s', hrun, hmakes⟩ := ensureParent_makes (ε := ε) s p
  refine ⟨r, s', hrun, hmakes.grows hs, ?_⟩
  rintro rfl
  exact hasParent_of_ensureParent hs.here hrun

/-! ## Doing it again -/

section

variable {s s' : Session} {p : Path}

theorem isDirectory_keeps (hk : s.root.Keeps s'.root) (hhere : s'.here = s.here)
    (h : s.isDirectory p = true) : s'.isDirectory p = true := by
  obtain ⟨n, hn, hi⟩ := isDirectory_iff.1 h
  cases n with
  | dir entries =>
      obtain ⟨_, entries', -, -, hn'⟩ := node_dir_keeps hk hhere hn
      exact isDirectory_iff.2 ⟨_, hn', rfl⟩
  | file | link => cases hi

/-- A text that was read is read again, and so is another one that is now in its place. -/
theorem Plain.readText_keeps (hs : s.Plain) (hk : s.root.Keeps s'.root)
    (hhere : s'.here = s.here) {t t' : String} (h : s.readText p = .ok t)
    (hv : s'.root.view (p.location s.here) = some (.file (.text t'))) :
    s'.readText p = .ok t' := by
  obtain ⟨l, hl⟩ := node_ok_iff.1 (readText_ok_iff.1 h)
  rw [← (hs.locate_ok hl).1] at hv
  obtain ⟨n, hn, hi⟩ := locate_keeps hk hhere (by simp) hl hv
  cases n with
  | file c =>
      cases hi
      exact readText_ok_iff.2 (node_ok_iff.2 ⟨_, hn⟩)
  | dir | link => cases hi

/-- Writing a file where it was written before, with what it holds, changes nothing. -/
theorem Plain.writeFile_again (hs : s.Plain) {s₁ : Session} {c c' : Content}
    (h : s.writeFile p c = .ok s₁) (hk : s.root.Keeps s'.root) (hhere : s'.here = s.here)
    (hv : s'.root.view (p.location s.here) = some (.file c')) : s'.writeFile p c' = .ok s' := by
  obtain ⟨spot, hl, -, -⟩ := writeFile_ok_iff.1 h
  rw [← (hs.locate_ok hl).1] at hv
  obtain ⟨n, hn, hi⟩ := locate_keeps hk hhere (by simp) hl hv
  cases n with
  | file c =>
      cases hi
      have hself := Node.setAt_self (Node.view_eq_file hv)
      exact writeFile_ok_iff.2 ⟨_, hn, by simp, by rw [Spot.location, hself]⟩
  | dir | link => cases hi

theorem HasParent.keeps (h : s.HasParent p) (hk : s.root.Keeps s'.root)
    (hhere : s'.here = s.here) : s'.HasParent p := by
  obtain ⟨q, hq, hdir⟩ := h
  exact ⟨q, hq, hdir.imp_right (isDirectory_keeps hk hhere)⟩

end

end Session

end DocStamp.Files
