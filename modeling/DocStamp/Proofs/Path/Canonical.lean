/-
# One path for each place

Resolving a path against a base is cleaning the two put together
(`resolve_eq_clean`), so all there is to say is about clean forms.

  * A path and its clean form lead to the same location, from every
    directory (`location_clean`).
  * A clean form holds nothing that could be left out (`isClean_clean`).
  * Two clean forms that lead to the same location from every directory
    are the same text (`clean_eq_clean_iff`).

The last one needs only two directories: from the root one sees the
names of a place, from far below how far up it goes.  What resolving
does twice, or to paths that are put together, follows from where the
results lead.
-/
import DocStamp.Proofs.Path.Clean

namespace DocStamp

open Files (Location startOf)
open DocStamp.Path (AreNames isIdle joinPieces piecesOf)

/-! ## A place is read back from its path -/

namespace Place

theorem foldl_walk_names (names : List String) (here : Place) :
    (names.map Path.Step.name).foldl walk here = here.append names := by
  induction names generalizing here with
  | nil => exact here.append_nil.symm
  | cons n names ih =>
      rw [List.map_cons, List.foldl_cons, ih]
      cases here <;> simp [walk, append]

theorem foldl_walk_ups (k ups : Nat) :
    (List.replicate k Path.Step.up).foldl walk (floating ups []) = floating (ups + k) [] := by
  induction k generalizing ups with
  | zero => rfl
  | succ k ih =>
      rw [List.replicate_succ, List.foldl_cons, walk, ih]
      congr 1
      omega

theorem place_toPath {here : Place} (h : AreNames here.names) : here.toPath.place = here := by
  rw [← Path.ofPath_eq, ofPath]
  cases here with
  | rooted l =>
      rw [steps_rooted (l := l) h, List.foldl_cons, walk, foldl_walk_names]
      rfl
  | floating ups l =>
      by_cases hhere : floating ups l = floating 0 []
      · rw [hhere, steps_nowhere]
        rfl
      · rw [steps_floating (l := l) h hhere, List.foldl_append, foldl_walk_ups, Nat.zero_add,
          foldl_walk_names]
        rfl

/-- The root shows the names of a place, and a directory far below it how far up it goes. -/
theorem eq_of_locate {a b : Place}
    (h : ∀ here, AreNames here → a.locate here = b.locate here) : a = b := by
  have hnames : a.names = b.names := by
    have hroot := h [] Path.areNames_nil
    cases a <;> cases b <;> simpa [locate, names] using hroot
  have hdeep : ∀ k, (a.locate (List.replicate k "d")).length =
      (b.locate (List.replicate k "d")).length := by
    intro k
    rw [h _ fun n hn => List.eq_of_mem_replicate hn ▸ by decide]
  have hrooted : ∀ l k, ((rooted l).locate (List.replicate k "d")).length = l.length :=
    fun _ _ => rfl
  have hfloating : ∀ ups l k, ((floating ups l).locate (List.replicate k "d")).length =
      k - ups + l.length := by
    intro ups l k
    simp [locate]
  cases a with
  | rooted l =>
      cases b with
      | rooted l' => exact congrArg rooted hnames
      | floating ups l' =>
          obtain rfl : l = l' := hnames
          have hlen := hdeep (ups + 1)
          rw [hrooted, hfloating] at hlen
          omega
  | floating ups l =>
      cases b with
      | rooted l' =>
          obtain rfl : l = l' := hnames
          have hlen := hdeep (ups + 1)
          rw [hrooted, hfloating] at hlen
          omega
      | floating ups' l' =>
          obtain rfl : l = l' := hnames
          have hlen := hdeep (ups + ups')
          rw [hfloating, hfloating] at hlen
          rw [show ups = ups' by omega]

end Place

/-! ## What a clean form looks like -/

namespace Path

/-- Nothing in the path could be left out: no `.` unless it is the whole path, no slash beside
another or at the end unless it is the root, and no `..` behind the root or behind a name. -/
structure IsClean (p : Path) : Prop where
  ne_empty : p.text ≠ ""
  no_here : p.text = "." ∨ "." ∉ piecesOf p.text
  no_double_slash : ¬ ['/', '/'] <:+: p.text.toList
  no_end_slash : p.text = "/" ∨ p.text.toList.getLast? ≠ some '/'
  ups_first : (piecesOf p.text).Pairwise fun a b => b = ".." → a = ".."

/-- A slash beside another, or at the end, leaves an empty piece behind the first. -/
theorem no_slash_of_tail {s : String} (h : "" ∉ (piecesOf s).tail) :
    ¬ ['/', '/'] <:+: s.toList ∧ s.toList.getLast? ≠ some '/' := by
  have hbehind : ∀ a rest, piecesOf s ≠ piecesOf a ++ "" :: rest := by
    intro a rest hs
    rw [hs, List.tail_append_of_ne_nil (piecesOf_ne_nil a)] at h
    exact h (List.mem_append_right _ List.mem_cons_self)
  refine ⟨?_, fun hlast => ?_⟩
  · rintro ⟨a, b, hab⟩
    have hs : s = String.ofList a ++ "/" ++ ("" ++ "/" ++ String.ofList b) :=
      String.toList_inj.1 (by simp [← hab])
    refine hbehind (String.ofList a) (piecesOf (String.ofList b)) ?_
    rw [hs, piecesOf_append_slash, piecesOf_append_slash, piecesOf_empty]
    rfl
  · obtain ⟨a, rfl⟩ := eq_append_slash hlast
    exact hbehind a [] (piecesOf_append_slash_empty a)

end Path

namespace Path

theorem isClean_of_pieces {p : Path} {front names : List String} (hnames : AreNames names)
    (hpieces : piecesOf p.text = front ++ names) (hne : p.text ≠ "") (hhere : "." ∉ front)
    (htail : "" ∉ front.tail) (hups : front.Pairwise fun a b => b = ".." → a = "..") :
    p.IsClean := by
  have hempty : "" ∉ (piecesOf p.text).tail := by
    rw [hpieces]
    intro hmem
    cases front with
    | nil => exact (hnames "" (List.mem_of_mem_tail hmem)).ne_empty rfl
    | cons x front =>
        rcases List.mem_append.1 hmem with hmem | hmem
        · exact htail hmem
        · exact (hnames "" hmem).ne_empty rfl
  obtain ⟨hdouble, hend⟩ := no_slash_of_tail hempty
  refine ⟨hne, .inr ?_, hdouble, .inr hend, ?_⟩
  · rw [hpieces]
    intro hmem
    rcases List.mem_append.1 hmem with hmem | hmem
    · exact hhere hmem
    · exact (hnames "." hmem).ne_here rfl
  · rw [hpieces, List.pairwise_append]
    refine ⟨hups, List.pairwise_of_forall_mem_list fun a _ b hb e => ?_, fun a _ b hb e => ?_⟩
    · exact absurd e (hnames b hb).ne_up
    · exact absurd e (hnames b hb).ne_up

end Path

namespace Place

theorem isClean_toPath {here : Place} (h : AreNames here.names) : here.toPath.IsClean := by
  cases here with
  | rooted l =>
      by_cases hl : l = []
      · subst hl
        exact ⟨by decide, by decide, by decide, by decide, by decide⟩
      · have hpieces : piecesOf (rooted l).toPath.text = [""] ++ l := by
          show piecesOf ("/" ++ joinPieces l) = _
          rw [Path.piecesOf_slash_append, (show AreNames l from h).piecesOf_joinPieces hl]
          rfl
        have hne : (rooted l).toPath.text ≠ "" := by
          intro hempty
          rw [hempty, Path.piecesOf_empty] at hpieces
          exact hl (List.cons.inj hpieces).2.symm
        exact Path.isClean_of_pieces h hpieces hne (by decide) (by decide) (by decide)
  | floating ups l =>
      by_cases hhere : floating ups l = floating 0 []
      · rw [hhere]
        exact ⟨by decide, by decide, by decide, by decide, by decide⟩
      · have hne := pieces_ne_nil hhere
        have hall := isPiece_of_floating ups (l := l) h
        have hpieces : piecesOf (floating ups l).toPath.text = List.replicate ups ".." ++ l := by
          rw [toPath_floating hne]
          exact Path.piecesOf_joinPieces hne fun x hx => (hall x hx).no_slash
        have hups : ∀ x ∈ List.replicate ups "..", x = ".." := fun x hx =>
          List.eq_of_mem_replicate hx
        refine Path.isClean_of_pieces h hpieces ?_ ?_ ?_ ?_
        · intro hempty
          rw [hempty, Path.piecesOf_empty] at hpieces
          cases (hall "" (hpieces ▸ List.mem_singleton_self "")).active
        · exact fun hmem => absurd (hups "." hmem) (by decide)
        · exact fun hmem => absurd (hups "" (List.mem_of_mem_tail hmem)) (by decide)
        · exact List.pairwise_of_forall_mem_list fun a ha _ _ _ => hups a ha

end Place

/-! ## Resolving -/

namespace Path

theorem clean_eq (p : Path) : p.clean = p.place.toPath := by rw [clean, ofPath_eq]

theorem resolve_eq_clean (base p : Path) : resolve base p = (base.join p).clean := by
  unfold resolve
  split
  · rename_i hp
    rw [join, if_pos hp]
  · rfl

theorem location_clean (p : Path) (here : Location) : p.clean.location here = p.location here := by
  rw [clean_eq, location_eq, Place.place_toPath (areNames_place p), location_eq]

theorem isClean_clean (p : Path) : p.clean.IsClean := by
  rw [clean_eq]
  exact Place.isClean_toPath (areNames_place p)

/-- A clean form is known by where it leads. -/
theorem clean_eq_clean_iff {p q : Path} :
    p.clean = q.clean ↔ ∀ here, AreNames here → p.location here = q.location here := by
  constructor
  · intro h here _
    rw [← location_clean, h, location_clean]
  · intro h
    have hplace : p.place = q.place := by
      refine Place.eq_of_locate fun here hhere => ?_
      rw [← location_eq, ← location_eq, h here hhere]
    rw [clean_eq, clean_eq, hplace]

theorem location_resolve (base p : Path) (here : Location) :
    (resolve base p).location here = p.location (base.location here) := by
  rw [resolve_eq_clean, location_clean, location_of_join]

theorem resolve_eq_resolve_iff {base base' p p' : Path} :
    resolve base p = resolve base' p' ↔ ∀ here, AreNames here →
      (resolve base p).location here = (resolve base' p').location here := by
  simp only [resolve_eq_clean, clean_eq_clean_iff, location_clean]

theorem resolve_clean {base : Path} (hbase : ∀ here, base.location here = here) (p : Path) :
    resolve base p.clean = p.clean := by
  rw [resolve_eq_clean, clean_eq_clean_iff]
  intro here _
  rw [location_of_join, hbase, location_clean]

/-- Resolving gives the one clean path that leads, from every directory, where the base and then
the path lead.  Such a path is not changed by resolving it again, and paths may be put together
before or after. -/
theorem resolve_is_canonical (base p : Path) :
    (∀ here, (resolve base p).location here = p.location (base.location here)) ∧
    (resolve base p).IsClean ∧
    (∀ base' p', resolve base p = resolve base' p' ↔ ∀ here, AreNames here →
      (resolve base p).location here = (resolve base' p').location here) ∧
    resolve ⟨""⟩ (resolve base p) = resolve base p ∧
    resolve ⟨"."⟩ (resolve base p) = resolve base p ∧
    ∀ q, resolve (resolve base p) q = resolve base (p.join q) := by
  refine ⟨location_resolve base p, ?_, fun _ _ => resolve_eq_resolve_iff, ?_, ?_, fun q => ?_⟩
  · rw [resolve_eq_clean]
    exact isClean_clean _
  · rw [resolve_eq_clean base p]
    exact resolve_clean (fun _ => rfl) _
  · rw [resolve_eq_clean base p]
    exact resolve_clean (fun _ => rfl) _
  · rw [resolve_eq_resolve_iff]
    intro here _
    simp only [location_resolve, location_of_join]

end Path

end DocStamp
