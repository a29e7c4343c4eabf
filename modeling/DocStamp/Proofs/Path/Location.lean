/-
# Where a path leads, from a directory, by its text alone

`Path.location here p` walks the parts of `p` from the directory `here`:
a name goes down, `..` goes up, and nothing is looked at on the way.
Three things are read off it.

  * The clean form of a path, seen from `here`, spells its location
    (`resolve_eq`).
  * One clean path lies below another exactly when the one location
    begins with the other, and what remains are the names in between
    (`below?_of_append`, `below?_of_not_prefix`).
  * So the placement of an output directory is a comparison of two
    locations (`Placement.of_eq`).
-/
import DocStamp.Command.Sources
import DocStamp.Proofs.Path.Pieces

namespace DocStamp.Path

open Files (Location startOf stepsOf)

/-! ## Walking the parts of a path -/

/-- Goes on from a location by one part of a path. -/
def move (at_ : Location) (part : String) : Location :=
  if isIdle part then at_ else if part = ".." then at_.dropLast else at_ ++ [part]

/-- Where a path leads from a directory, by its text alone. -/
def location (here : Location) (p : Path) : Location := p.parts.foldl move (startOf p.text here)

theorem IsName.move_eq {n : String} (h : IsName n) (at_ : Location) : move at_ n = at_ ++ [n] := by
  simp [move, h.isIdle_eq, h.ne_up]

theorem foldl_move_names {names : List String} (h : AreNames names) (at_ : Location) :
    names.foldl move at_ = at_ ++ names := by
  induction names generalizing at_ with
  | nil => simp
  | cons n ns ih =>
      rw [List.foldl_cons, (h n List.mem_cons_self).move_eq,
        ih fun x hx => h x (List.mem_cons_of_mem _ hx)]
      simp

theorem foldl_move_filter (pieces : List String) (at_ : Location) :
    (pieces.filter (· != "")).foldl move at_ = pieces.foldl move at_ := by
  induction pieces generalizing at_ with
  | nil => rfl
  | cons piece pieces ih =>
      by_cases hp : piece = ""
      · simpa [hp, move, isIdle] using ih at_
      · simp [hp, ih]

theorem areNames_move {at_ : Location} {part : String} (h : AreNames at_)
    (hp : '/' ∉ part.toList) : AreNames (move at_ part) := by
  unfold move
  split
  · exact h
  · rename_i hidle
    split
    · exact h.dropLast
    · rename_i hup
      simp only [isIdle, Bool.or_eq_true, beq_iff_eq, not_or] at hidle
      exact h.append fun n hn => List.mem_singleton.1 hn ▸ ⟨hidle.1, hidle.2, hup, hp⟩

theorem areNames_foldl_move {pieces : List String} (hp : ∀ x ∈ pieces, '/' ∉ x.toList)
    {at_ : Location} (h : AreNames at_) : AreNames (pieces.foldl move at_) := by
  induction pieces generalizing at_ with
  | nil => exact h
  | cons piece pieces ih =>
      exact ih (fun x hx => hp x (List.mem_cons_of_mem _ hx))
        (areNames_move h (hp piece List.mem_cons_self))

theorem areNames_startOf {here : Location} (h : AreNames here) (text : String) :
    AreNames (startOf text here) := by
  unfold startOf
  split
  · exact areNames_nil
  · exact h

theorem areNames_location {here : Location} (h : AreNames here) (p : Path) :
    AreNames (p.location here) :=
  areNames_foldl_move (fun _ hx => slash_not_mem_part hx) (areNames_startOf h p.text)

theorem startOf_of_isAbsolute {p : Path} (h : p.isAbsolute = true) (here : Location) :
    startOf p.text here = [] := by
  rw [isAbsolute_eq] at h
  simp [startOf, h]

theorem startOf_of_relative {p : Path} (h : p.isAbsolute = false) (here : Location) :
    startOf p.text here = here := by
  rw [isAbsolute_eq] at h
  simp [startOf, h]

theorem location_of_isAbsolute {p : Path} (h : p.isAbsolute = true) (here here' : Location) :
    p.location here = p.location here' := by
  rw [location, location, startOf_of_isAbsolute h, startOf_of_isAbsolute h]

/-- A path below another is walked from where the other leads. -/
theorem location_of_join (here : Location) (base p : Path) :
    (base.join p).location here = p.location (base.location here) := by
  cases hp : p.isAbsolute with
  | true =>
      rw [join, if_pos hp]
      exact location_of_isAbsolute hp _ _
  | false =>
      have hstart : startOf (base.join p).text here = startOf base.text here := by
        simp only [startOf, head?_join base hp]
      simp only [location, hstart, parts_join base hp, List.foldl_append, startOf_of_relative hp]

theorem location_join (here : Location) (base : Path) {names : List String} (h : AreNames names) :
    (base.join (ofNames names)).location here = base.location here ++ names := by
  rw [location_of_join, location, startOf_of_relative (isAbsolute_ofNames h), parts_ofNames h,
    foldl_move_names h]

theorem Named.location_join {p : Path} (h : p.Named) (here : Location) (base : Path) :
    (base.join p).location here = base.location here ++ p.parts := by
  obtain ⟨names, hn, rfl⟩ := h
  rw [Path.location_join here base hn, parts_ofNames hn]

/-! ## The clean form -/

/-- From the root, walking steps is moving by the pieces that they stand for. -/
theorem foldl_walk_rooted (pieces : List String) (names : List String) :
    (pieces.filterMap stepOf?).foldl Place.walk (.rooted names) =
      .rooted (pieces.foldl move names) := by
  induction pieces generalizing names with
  | nil => rfl
  | cons piece pieces ih =>
      by_cases hidle : isIdle piece = true
      · simp [stepOf?, hidle, move, ih]
      · by_cases hup : piece = ".."
        · simp [stepOf?, hup, isIdle, move, Place.walk, ih]
        · simp [stepOf?, hidle, hup, move, Place.walk, ih]

theorem shape_of_isAbsolute {p : Path} (h : p.isAbsolute = true) :
    piecesOf p.text = "" :: p.shape.2 ∧ p.shape.1 = .root := by
  rw [isAbsolute, beq_iff_eq] at h
  refine ⟨?_, h⟩
  unfold shape at h ⊢
  split <;> simp_all

theorem ofPath_of_isAbsolute {p : Path} (h : p.isAbsolute = true) :
    Place.ofPath p = .rooted (p.parts.foldl move []) := by
  obtain ⟨hp, hlead⟩ := shape_of_isAbsolute h
  simp only [Place.ofPath, steps, hlead, Lead.steps, List.singleton_append, List.foldl_cons]
  rw [parts, foldl_move_filter, hp]
  exact foldl_walk_rooted p.shape.2 []

def ofLocation (l : Location) : Path := ofShape .root l

theorem ofLocation_text (l : Location) : (ofLocation l).text = "/" ++ joinPieces l := rfl

theorem isAbsolute_ofLocation (l : Location) : (ofLocation l).isAbsolute = true := by
  simp [isAbsolute_eq, ofLocation_text]

theorem parts_ofLocation {l : Location} (h : AreNames l) : (ofLocation l).parts = l := by
  rw [parts, ofLocation_text, piecesOf_slash_append]
  simpa [parts] using parts_ofNames h

/-- The clean form of a path, seen from a directory, spells its location. -/
theorem resolve_eq {here : Location} (h : AreNames here) (p : Path) :
    resolve (ofLocation here) p = ofLocation (p.location here) := by
  unfold resolve
  cases hp : p.isAbsolute with
  | true =>
      simp only [if_true, clean, ofPath_of_isAbsolute hp, location, startOf_of_isAbsolute hp]
      rfl
  | false =>
      have habs : ((ofLocation here).join p).isAbsolute = true := by
        rw [isAbsolute_eq, head?_join _ hp, ← isAbsolute_eq, isAbsolute_ofLocation]
      simp only [Bool.false_eq_true, if_false, clean, ofPath_of_isAbsolute habs, parts_join _ hp,
        parts_ofLocation h, List.foldl_append, foldl_move_names h, location,
        startOf_of_relative hp, List.nil_append]
      rfl

/-! ## One location below another -/

theorem shape_ofLocation {l : Location} (h : AreNames l) :
    (ofLocation l).shape = (.root, if l = [] then [""] else l) := by
  obtain ⟨hp, hlead⟩ := shape_of_isAbsolute (isAbsolute_ofLocation l)
  rw [ofLocation_text, piecesOf_slash_append] at hp
  have hbody := (List.cons.inj hp).2
  refine Prod.ext hlead ?_
  rw [← hbody]
  split
  · rename_i hl
    simp [hl, joinPieces, piecesOf_empty]
  · rename_i hl
    exact h.piecesOf_joinPieces hl

theorem steps_ofLocation {l : Location} (h : AreNames l) :
    (ofLocation l).steps = .root :: l.map .name := by
  simp only [steps, shape_ofLocation h, Lead.steps, List.singleton_append]
  split
  · rename_i hl
    simp [hl, stepOf?, isIdle]
  · rw [filterMap_stepOf? h]

theorem dropPieces_append {a b : List String} (h : AreNames a) :
    dropPieces a.length (a ++ b) = b := by
  induction a with
  | nil => simp [dropPieces]
  | cons n ns ih =>
      have hn := (h n List.mem_cons_self).isIdle_eq
      simp [dropPieces, hn, ih fun x hx => h x (List.mem_cons_of_mem _ hx)]

theorem dropWhile_of_active {body : List String} (h : ∀ x ∈ body, isIdle x = false) :
    body.dropWhile isIdle = body := by
  cases body with
  | nil => rfl
  | cons x xs => simp [h x List.mem_cons_self]

theorem dropWhile_isIdle {names : List String} (h : AreNames names) :
    names.dropWhile isIdle = names :=
  dropWhile_of_active fun n hn => (h n hn).isIdle_eq

theorem below?_of_append {base rest : Location} (h : AreNames (base ++ rest)) :
    (ofLocation (base ++ rest)).below? (ofLocation base) = some (ofNames rest) := by
  have hbase := h.left
  have hrest := h.right
  have hpre : (ofLocation base).steps.isPrefixOf (ofLocation (base ++ rest)).steps = true := by
    rw [steps_ofLocation h, steps_ofLocation hbase, List.isPrefixOf_iff_prefix, List.map_append]
    exact ⟨_, rfl⟩
  have hlen : (ofLocation base).steps.length = base.length + 1 := by
    simp [steps_ofLocation hbase]
  simp only [below?, hpre, if_true, hlen, shape_ofLocation h, Lead.steps, List.length_singleton,
    Nat.add_sub_cancel]
  by_cases hl : base ++ rest = []
  · obtain ⟨rfl, rfl⟩ := List.append_eq_nil_iff.1 hl
    simp [dropPieces, isIdle, trimEnd, ofNames_nil, joinPieces]
  · rw [if_neg hl, dropPieces_append hbase, dropWhile_isIdle hrest, trimEnd_of_areNames hrest]
    rfl

theorem below?_of_not_prefix {base l : Location} (hb : AreNames base) (hl : AreNames l)
    (h : ¬ base <+: l) : (ofLocation l).below? (ofLocation base) = none := by
  have hpre : ¬ (ofLocation base).steps.isPrefixOf (ofLocation l).steps = true := by
    rw [steps_ofLocation hl, steps_ofLocation hb, List.isPrefixOf_iff_prefix,
      List.cons_prefix_cons]
    rintro ⟨-, t, ht⟩
    obtain ⟨a, b, hab, ha, -⟩ := List.append_eq_map_iff.1 ht
    exact h ⟨b, by rw [hab, map_name_injective ha]⟩
  simp [below?, hpre]

end DocStamp.Path

namespace DocStamp.Command.Placement

open Files (Location)
open DocStamp.Path (AreNames ofLocation ofNames areNames_location)

/-- The placement of an output directory compares two locations. -/
theorem of_eq {here : Location} (h : AreNames here) (docsDir out : Path) :
    (docsDir.location here = out.location here ∧
      of (ofLocation here) docsDir out = .same (ofLocation (out.location here))) ∨
    (∃ rest, rest ≠ [] ∧ AreNames rest ∧ out.location here = docsDir.location here ++ rest ∧
      of (ofLocation here) docsDir out = .inside (ofNames rest)) ∨
    (¬ docsDir.location here <+: out.location here ∧
      of (ofLocation here) docsDir out = .outside) := by
  have hd := areNames_location h docsDir
  have ho := areNames_location h out
  unfold of
  simp only [Path.resolve_eq h]
  by_cases hpre : docsDir.location here <+: out.location here
  · obtain ⟨rest, hrest⟩ := hpre
    rw [← hrest] at ho ⊢
    simp only [Path.below?_of_append ho, Path.ofNames_text, beq_iff_eq,
      ho.right.joinPieces_eq_empty]
    by_cases hnil : rest = []
    · exact .inl ⟨by simp [hnil], by simp [hnil]⟩
    · exact .inr (.inl ⟨rest, hnil, ho.right, rfl, by simp [hnil]⟩)
  · exact .inr (.inr ⟨hpre, by rw [Path.below?_of_not_prefix hd ho hpre]⟩)

end DocStamp.Command.Placement
