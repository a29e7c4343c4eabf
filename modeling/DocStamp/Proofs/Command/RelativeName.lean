/-
# The name of a file, by the spelling of its path

Rendering names a file by its path from the documents, and by its last
name if it lies elsewhere.  Both paths are cleaned as they are written;
neither is made absolute.  So the name is the path from the documents
only if one clean form goes on from the other (`relativeToDocs_cases`).

`properName?` makes both paths absolute first, as the placement of the
output does.  `relativeToDocs_proper_iff` says where the two
agree: a file that lies two or more names below the documents, and whose
path does not show it, is named by its last name alone.
-/
import DocStamp.Command.Render
import DocStamp.Proofs.Path.Clean

namespace DocStamp.Command

open Files (Location)
open DocStamp.Path (AreNames ofLocation ofNames)

/-! ## Clean forms that do not go on from one another -/

/-- How the steps of one clean form begin those of another, when neither has a root. -/
theorem prefix_cases_of_ups {ups ups' : Nat} {l l' : List String}
    (h : List.replicate ups Path.Step.up ++ l.map .name <+:
      List.replicate ups' Path.Step.up ++ l'.map .name) :
    (ups = ups' ∧ l <+: l') ∨ (l = [] ∧ ∃ k, ups' = ups + (k + 1)) := by
  induction ups generalizing ups' with
  | zero =>
      cases ups' with
      | zero =>
          obtain ⟨t, ht⟩ := h
          obtain ⟨a, b, hab, ha, -⟩ := List.append_eq_map_iff.1 ht
          exact .inl ⟨rfl, b, by rw [hab, Path.map_name_injective ha]⟩
      | succ k =>
          cases l with
          | nil => exact .inr ⟨rfl, k, by omega⟩
          | cons n l =>
              obtain ⟨hstep, -⟩ := List.cons_prefix_cons.1 h
              cases hstep
  | succ ups ih =>
      cases ups' with
      | zero =>
          cases l' with
          | nil => cases List.prefix_nil.1 h
          | cons n l' =>
              obtain ⟨hstep, -⟩ := List.cons_prefix_cons.1 h
              cases hstep
      | succ ups' =>
          obtain ⟨-, hrest⟩ := List.cons_prefix_cons.1 h
          rcases ih hrest with ⟨rfl, hl⟩ | ⟨hl, k, rfl⟩
          · exact .inl ⟨rfl, hl⟩
          · exact .inr ⟨hl, k, by omega⟩

theorem below?_eq_none {p base : Path} (h : ¬ base.steps <+: p.steps) : p.below? base = none := by
  unfold Path.below?
  rw [if_neg fun hpre => h (List.isPrefixOf_iff_prefix.1 hpre)]

section

variable {file docs : Place} (hfile : AreNames file.names) (hdocs : AreNames docs.names)

include hfile hdocs

/-- What is left of a clean form that does not go on from another: nothing, or a path up. -/
theorem below?_of_not_append (hnot : ∀ rest, file ≠ docs.append rest)
    (hhere : docs ≠ .floating 0 []) :
    ∀ relative ∈ file.toPath.below? docs.toPath, relative.steps.head? = some .up := by
  have hnone : ¬ docs.toPath.steps <+: file.toPath.steps →
      ∀ relative ∈ file.toPath.below? docs.toPath, relative.steps.head? = some .up := by
    intro h relative hrelative
    rw [below?_eq_none h] at hrelative
    cases hrelative
  cases docs with
  | rooted d =>
      cases file with
      | rooted f =>
          refine hnone fun h => ?_
          rw [Place.steps_rooted (l := d) hdocs, Place.steps_rooted (l := f) hfile] at h
          obtain ⟨t, ht⟩ := (List.cons_prefix_cons.1 h).2
          obtain ⟨a, b, hab, ha, -⟩ := List.append_eq_map_iff.1 ht
          exact hnot b (by rw [hab, Path.map_name_injective ha]; rfl)
      | floating ups f =>
          refine hnone fun h => ?_
          rw [Place.steps_rooted (l := d) hdocs] at h
          have hroot : (Place.floating ups f).toPath.steps.head? = some .root := by
            obtain ⟨t, ht⟩ := h
            rw [← ht]
            rfl
          by_cases hne : Place.floating ups f = .floating 0 []
          · rw [hne, Place.steps_nowhere] at hroot
            cases hroot
          · rw [Place.steps_floating (l := f) hfile hne] at hroot
            cases ups with
            | zero => cases f <;> cases hroot
            | succ ups => cases hroot
  | floating ups d =>
      have hsteps := Place.steps_floating (l := d) hdocs hhere
      have hpieces := Place.pieces_ne_nil hhere
      -- The first step of the documents is no root, and it is not the step that stays.
      obtain ⟨step, more, hcons, hroot, hstay⟩ : ∃ step more,
          List.replicate ups Path.Step.up ++ d.map .name = step :: more ∧
            step ≠ .root ∧ step ≠ .here := by
        cases ups with
        | zero =>
            cases d with
            | nil => exact absurd rfl hhere
            | cons n d => exact ⟨.name n, d.map .name, rfl, by simp, by simp⟩
        | succ ups => exact ⟨.up, List.replicate ups .up ++ d.map .name, rfl, by simp, by simp⟩
      cases file with
      | rooted f =>
          refine hnone fun h => ?_
          rw [hsteps, hcons, Place.steps_rooted (l := f) hfile] at h
          exact hroot (List.cons_prefix_cons.1 h).1
      | floating ups' f =>
          by_cases hne : Place.floating ups' f = .floating 0 []
          · refine hnone fun h => ?_
            rw [hsteps, hcons, hne, Place.steps_nowhere] at h
            exact hstay (List.cons_prefix_cons.1 h).1
          · by_cases hpre : (Place.floating ups d).toPath.steps <+: (Place.floating ups' f).toPath.steps
            · rw [hsteps, Place.steps_floating (l := f) hfile hne] at hpre
              rcases prefix_cases_of_ups hpre with ⟨rfl, t, rfl⟩ | ⟨rfl, k, rfl⟩
              · exact absurd rfl (hnot t)
              · -- The documents lie above; the file is reached by going up further.
                have hmore := Place.isPiece_of_floating (k + 1) (l := f) hfile
                have hrest : List.replicate (ups + (k + 1)) ".." ++ f =
                    (List.replicate ups ".." ++ []) ++ (List.replicate (k + 1) ".." ++ f) := by
                  rw [List.append_nil, ← List.append_assoc, List.replicate_append_replicate]
                have hbelow := Path.below?_joinPieces (Place.isPiece_of_floating ups (l := []) hdocs)
                  hpieces hmore
                rw [Place.toPath_floating (Place.pieces_ne_nil hne), Place.toPath_floating hpieces,
                  hrest, hbelow]
                rintro relative ⟨⟩
                rw [Path.steps_joinPieces hmore (by simp)]
                rfl
            · exact hnone hpre

end

/-! ## The name that rendering takes -/

section

variable {file docsDir : Path}

/-- The path of the file from the documents, as far as the two paths show it. -/
def shownRelative? (file docs : Place) : Option Path :=
  if docs = .floating 0 [] ∧ file.toPath.isAbsolute = false then some file.toPath
  else file.toPath.below? docs.toPath

theorem relativeToDocs_eq (file docsDir : Path) :
    relativeToDocs file docsDir =
      ((shownRelative? file.place docsDir.place).filter (·.steps.head? != some .up)).getD
        (relativeToDocs.lastName file.place.toPath) := by
  have hcond : (docsDir.place.toPath.text == "." && !file.place.toPath.isAbsolute) = true ↔
      docsDir.place = .floating 0 [] ∧ file.place.toPath.isAbsolute = false := by
    rw [Bool.and_eq_true, beq_iff_eq, Bool.not_eq_true']
    refine and_congr_left fun _ => ⟨fun htext => ?_, fun hplace => by rw [hplace]; rfl⟩
    exact Classical.byContradiction fun hne =>
      Place.toPath_ne_here (Path.areNames_place docsDir) hne htext
  have hshown : (if (docsDir.place.toPath.text == "." && !file.place.toPath.isAbsolute) = true
      then some file.place.toPath else file.place.toPath.below? docsDir.place.toPath) =
        shownRelative? file.place docsDir.place := by
    simp only [shownRelative?, hcond]
  unfold relativeToDocs
  simp only [Path.resolve_here, hshown]
  cases shownRelative? file.place docsDir.place with
  | none => simp only [Option.filter_none, Option.getD_none]
  | some relative =>
      by_cases hup : relative.steps.head? = some .up <;> simp [hup, Option.filter]

theorem relativeToDocs_of_some {relative : Path}
    (h : shownRelative? file.place docsDir.place = some relative)
    (hup : relative.steps.head? ≠ some .up) : relativeToDocs file docsDir = relative := by
  rw [relativeToDocs_eq, h, Option.filter_some, if_pos (bne_iff_ne.2 hup), Option.getD_some]

theorem relativeToDocs_of_append {rest : List String} (hne : rest ≠ [])
    (h : file.place = docsDir.place.append rest) : relativeToDocs file docsDir = ofNames rest := by
  have hdocs := Path.areNames_place docsDir
  have hrest : AreNames rest := by
    have hfile := Path.areNames_place file
    rw [h] at hfile
    cases hplace : docsDir.place <;> rw [hplace] at hfile <;> exact AreNames.right hfile
  have hup : (ofNames rest).steps.head? ≠ some .up := by
    rw [Path.steps_ofNames hrest]
    cases rest with
    | nil => exact absurd rfl hne
    | cons n ns => simp
  have hrelative : shownRelative? file.place docsDir.place = some (ofNames rest) := by
    unfold shownRelative?
    by_cases hhere : docsDir.place = .floating 0 []
    · -- Here is the directory of documents: the clean path is the answer.
      rw [h, hhere, Place.toPath_append_nowhere hne, if_pos ⟨rfl, Path.isAbsolute_ofNames hrest⟩]
    · rw [if_neg fun hboth => hhere hboth.1, h, Place.below?_append hdocs hhere hrest]
  exact relativeToDocs_of_some hrelative hup

/-- Of the directory of documents itself nothing is left, or the step that stays. -/
theorem relativeToDocs_of_same (h : file.place = docsDir.place) :
    (relativeToDocs file docsDir).fileName? = none := by
  have hdocs := Path.areNames_place docsDir
  by_cases hhere : docsDir.place = .floating 0 []
  · have hstay : (Place.floating 0 []).toPath.steps.head? ≠ some .up := by
      rw [Place.steps_nowhere]
      simp
    have hrelative : relativeToDocs file docsDir = (Place.floating 0 []).toPath := by
      refine relativeToDocs_of_some ?_ hstay
      rw [h, hhere, shownRelative?, if_pos ⟨rfl, by decide⟩]
    rw [hrelative, (Place.floating 0 []).fileName?_toPath Path.areNames_nil]
    rfl
  · have hbelow := Place.below?_append hdocs hhere Path.areNames_nil
    rw [Place.append_nil] at hbelow
    have hnil : (ofNames []).steps = [] := Path.steps_ofNames Path.areNames_nil
    have hrelative : relativeToDocs file docsDir = ofNames [] := by
      refine relativeToDocs_of_some ?_ (by simp [hnil])
      rw [shownRelative?, if_neg fun hboth => hhere hboth.1, h, hbelow]
    rw [hrelative, Path.fileName?, hnil]
    rfl

/-- In every other case the last name is taken, if there is one. -/
theorem relativeToDocs_of_not_append (hnot : ∀ rest, file.place ≠ docsDir.place.append rest) :
    relativeToDocs file docsDir = relativeToDocs.lastName file.place.toPath := by
  have hfile := Path.areNames_place file
  have hdocs := Path.areNames_place docsDir
  have hup : ∀ relative ∈ shownRelative? file.place docsDir.place,
      relative.steps.head? = some .up := by
    unfold shownRelative?
    by_cases hhere : docsDir.place = .floating 0 []
    · rw [hhere] at hnot ⊢
      cases hplace : file.place with
      | rooted f =>
          rw [hplace] at hfile
          have habs : (Place.rooted f).toPath.isAbsolute = true := Path.isAbsolute_ofLocation f
          have hnone : (Place.rooted f).toPath.below? (Place.floating 0 []).toPath = none := by
            refine below?_eq_none fun h => ?_
            rw [Place.steps_nowhere, Place.steps_rooted (l := f) hfile] at h
            cases (List.cons_prefix_cons.1 h).1
          rw [if_neg (by simp [habs]), hnone]
          rintro relative ⟨⟩
      | floating ups f =>
          rw [hplace] at hfile
          cases ups with
          | zero => exact absurd hplace (hnot f)
          | succ ups =>
              have hne : Place.floating (ups + 1) f ≠ .floating 0 [] := by simp
              have hsteps := Place.steps_floating (l := f) hfile hne
              rw [if_pos ⟨rfl, Place.isAbsolute_floating (l := f) hfile hne⟩]
              intro relative hrelative
              rw [← Option.some.inj hrelative, hsteps, List.replicate_succ, List.cons_append,
                List.head?_cons]
    · rw [if_neg fun hboth => hhere hboth.1]
      exact below?_of_not_append hfile hdocs hnot hhere
  rw [relativeToDocs_eq]
  cases hshown : shownRelative? file.place docsDir.place with
  | none => rw [Option.filter_none, Option.getD_none]
  | some relative =>
      have hhead := hup relative hshown
      rw [Option.filter_some, if_neg (by simp [hhead]), Option.getD_none]

theorem relativeToDocs_of_last (hnot : ∀ rest, file.place ≠ docsDir.place.append rest) {n : String}
    (hn : file.place.names.getLast? = some n) : relativeToDocs file docsDir = ⟨n⟩ := by
  rw [relativeToDocs_of_not_append hnot, relativeToDocs.lastName,
    Place.fileName?_toPath _ (Path.areNames_place file), hn]

theorem relativeToDocs_of_nameless (hnot : ∀ rest, file.place ≠ docsDir.place.append rest)
    (hnone : file.place.names = []) :
    relativeToDocs file docsDir = file.place.toPath ∧ file.place.toPath.fileName? = none := by
  have hfileName : file.place.toPath.fileName? = none := by
    rw [Place.fileName?_toPath _ (Path.areNames_place file), hnone]
    rfl
  rw [relativeToDocs_of_not_append hnot, relativeToDocs.lastName, hfileName]
  exact ⟨rfl, rfl⟩

end

/-! ## The name by absolute paths -/

/-- The name of a file when both paths are made absolute first: the path from the documents, if
the file lies below them, or else the last name. -/
def properName? (here file docsDir : Path) : Option Path :=
  let file := Path.resolve here file
  ((file.below? (Path.resolve here docsDir)).filter (·.text != "")).or (file.fileName?.map .mk)

section

variable {here : Location} (hhere : AreNames here) {file docsDir : Path}

include hhere

theorem properName?_of_append {rest : List String} (hne : rest ≠ [])
    (h : file.location here = docsDir.location here ++ rest) :
    properName? (ofLocation here) file docsDir = some (ofNames rest) := by
  have hnames := Path.areNames_location hhere file
  rw [h] at hnames
  have htext : (ofNames rest).text ≠ "" := fun e => hne (hnames.right.joinPieces_eq_empty.1 e)
  rw [properName?, Path.resolve_eq hhere, Path.resolve_eq hhere, h, Path.below?_of_append hnames,
    Option.filter_some, if_pos (bne_iff_ne.2 htext), Option.some_or]

theorem properName?_of_not_append
    (h : ∀ rest, rest ≠ [] → file.location here ≠ docsDir.location here ++ rest) :
    properName? (ofLocation here) file docsDir = (file.location here).getLast?.map .mk := by
  have hfile := Path.areNames_location hhere file
  have hdocs := Path.areNames_location hhere docsDir
  have hlast : (ofLocation (file.location here)).fileName? = (file.location here).getLast? :=
    (Place.rooted (file.location here)).fileName?_toPath hfile
  have hnothing : ((ofLocation (file.location here)).below?
      (ofLocation (docsDir.location here))).filter (·.text != "") = none := by
    by_cases hpre : docsDir.location here <+: file.location here
    · obtain ⟨rest, hrest⟩ := hpre
      obtain rfl : rest = [] := Classical.byContradiction fun hne => h rest hne hrest.symm
      have hbelow := Path.below?_of_append (hrest.symm ▸ hfile)
      rw [hrest] at hbelow
      rw [hbelow, Path.ofNames_nil]
      rfl
    · rw [Path.below?_of_not_prefix hdocs hfile hpre, Option.filter_none]
  rw [properName?, Path.resolve_eq hhere, Path.resolve_eq hhere, hnothing, Option.none_or, hlast]

theorem fileName?_of_properName? {p : Path}
    (h : properName? (ofLocation here) file docsDir = some p) :
    ∃ n, (file.location here).getLast? = some n ∧ p.fileName? = some n := by
  have hnames := Path.areNames_location hhere file
  have hfileName : ∀ {l : List String}, AreNames l → (ofNames l).fileName? = l.getLast? := by
    intro l hl
    rw [Path.fileName?, Path.steps_ofNames hl, List.getLast?_map]
    cases l.getLast? <;> rfl
  by_cases hbelow : ∃ rest, rest ≠ [] ∧ file.location here = docsDir.location here ++ rest
  · obtain ⟨rest, hne, hrest⟩ := hbelow
    rw [properName?_of_append hhere hne hrest] at h
    obtain rfl := Option.some.inj h
    rw [hrest] at hnames ⊢
    refine ⟨rest.getLast hne, ?_, ?_⟩
    · rw [List.getLast?_append, List.getLast?_eq_some_getLast hne]
      rfl
    · rw [hfileName hnames.right, List.getLast?_eq_some_getLast hne]
  · have hnot : ∀ rest, rest ≠ [] → file.location here ≠ docsDir.location here ++ rest :=
      fun rest hne hrest => hbelow ⟨rest, hne, hrest⟩
    rw [properName?_of_not_append hhere hnot] at h
    obtain ⟨n, hn, rfl⟩ := Option.map_eq_some_iff.1 h
    have hname : AreNames [n] := by
      intro x hx
      rw [List.mem_singleton.1 hx]
      exact hnames n (List.mem_of_getLast? hn)
    exact ⟨n, hn, by rw [← Path.ofNames_singleton, hfileName hname]; rfl⟩

end

/-! ## Where the two agree -/

section

variable {file docsDir : Path}

theorem getLast?_location (here : Location) (h : file.place.names ≠ []) :
    (file.location here).getLast? = file.place.names.getLast? := by
  have hlocate : ∃ front, file.location here = front ++ file.place.names := by
    rw [Path.location_eq]
    cases file.place with
    | rooted names => exact ⟨[], rfl⟩
    | floating ups names => exact ⟨_, rfl⟩
  obtain ⟨front, hfront⟩ := hlocate
  rw [hfront, List.getLast?_append, List.getLast?_eq_some_getLast h]
  rfl

/-- An absolute path does not go on from a relative one, nor the other way round. -/
theorem place_ne_append_of_mixed (h : file.isAbsolute ≠ docsDir.isAbsolute) (rest : List String) :
    file.place ≠ docsDir.place.append rest := by
  cases hfile : file.isAbsolute with
  | true =>
      have hdocs : docsDir.isAbsolute = false := by
        rw [hfile] at h
        exact Bool.eq_false_iff.2 h.symm
      obtain ⟨ups, names, hplace⟩ := Path.place_of_relative hdocs
      rw [Path.place_of_isAbsolute hfile [], hplace]
      exact Place.noConfusion
  | false =>
      have hdocs : docsDir.isAbsolute = true := by
        rw [hfile] at h
        simpa using h.symm
      obtain ⟨ups, names, hplace⟩ := Path.place_of_relative hfile
      rw [Path.place_of_isAbsolute hdocs [], hplace]
      exact Place.noConfusion

variable {here : Location} (hhere : AreNames here)

include hhere

/-- A path that does not go on from the documents gives its last name.  That is right unless
the file lies two names or more below them. -/
theorem properName?_iff_of_not_append (hnot : ∀ rest, file.place ≠ docsDir.place.append rest) :
    properName? (ofLocation here) file docsDir = some (relativeToDocs file docsDir) ↔
      file.place.names ≠ [] ∧
        ∀ a b rest, file.location here ≠ docsDir.location here ++ a :: b :: rest := by
  have hnames := Path.areNames_location hhere file
  constructor
  · intro h
    obtain ⟨n, hn, hfileName⟩ := fileName?_of_properName? hhere h
    have hne : file.place.names ≠ [] := by
      intro hnone
      obtain ⟨hself, hnameless⟩ := relativeToDocs_of_nameless hnot hnone
      rw [hself, hnameless] at hfileName
      cases hfileName
    refine ⟨hne, fun a b rest hrest => ?_⟩
    rw [getLast?_location here hne] at hn
    rw [properName?_of_append hhere (by simp) hrest, relativeToDocs_of_last hnot hn,
      ← Path.ofNames_singleton] at h
    rw [hrest] at hnames
    have hlast : n ∈ file.place.names := List.mem_of_getLast? hn
    have hsingle : AreNames [n] := by
      intro x hx
      rw [List.mem_singleton.1 hx]
      exact Path.areNames_place file n hlast
    cases (Path.ofNames_inj hnames.right hsingle).1 (Option.some.inj h)
  · rintro ⟨hne, hshallow⟩
    obtain ⟨n, hn⟩ : ∃ n, file.place.names.getLast? = some n :=
      ⟨_, List.getLast?_eq_some_getLast hne⟩
    have hlast := (getLast?_location here hne).trans hn
    rw [relativeToDocs_of_last hnot hn]
    by_cases hbelow : ∃ rest, rest ≠ [] ∧ file.location here = docsDir.location here ++ rest
    · obtain ⟨rest, hrest, hlocation⟩ := hbelow
      rw [properName?_of_append hhere hrest hlocation]
      cases rest with
      | nil => exact absurd rfl hrest
      | cons a rest =>
          cases rest with
          | nil =>
              rw [hlocation, List.getLast?_append] at hlast
              cases hlast
              rfl
          | cons b rest => exact absurd hlocation (hshallow a b rest)
    · rw [properName?_of_not_append hhere fun rest hrest hlocation =>
        hbelow ⟨rest, hrest, hlocation⟩, hlast]
      rfl

/-- Rendering gives a file its proper name exactly if the clean path of the file goes on from
that of the documents, or ends with a name, is not that of the documents, and the file does not
lie two names or more below them.  Two absolute paths always show where the file lies.  Of an
absolute path and a relative one this cannot be seen, and a file deep among the documents is
named by its last name. -/
theorem relativeToDocs_proper_iff (file docsDir : Path) :
    (properName? (ofLocation here) file docsDir = some (relativeToDocs file docsDir) ↔
      (∃ rest, rest ≠ [] ∧ file.place = docsDir.place.append rest) ∨
        file.place ≠ docsDir.place ∧ file.place.names ≠ [] ∧
          ∀ a b rest, file.location here ≠ docsDir.location here ++ a :: b :: rest) ∧
    (file.isAbsolute = true → docsDir.isAbsolute = true → file.location here ≠ [] →
      file.location here ≠ docsDir.location here →
        properName? (ofLocation here) file docsDir = some (relativeToDocs file docsDir)) ∧
    (file.isAbsolute ≠ docsDir.isAbsolute → ∀ n, file.place.names.getLast? = some n →
      relativeToDocs file docsDir = ⟨n⟩) := by
  have hspelt : ∀ rest, rest ≠ [] → file.place = docsDir.place.append rest →
      properName? (ofLocation here) file docsDir = some (relativeToDocs file docsDir) := by
    intro rest hne hrest
    have hlocation : file.location here = docsDir.location here ++ rest := by
      rw [Path.location_eq, Path.location_eq, hrest, Place.locate_append]
    rw [properName?_of_append hhere hne hlocation, relativeToDocs_of_append hne hrest]
  have hself : docsDir.place.append [] = docsDir.place := Place.append_nil _
  refine ⟨⟨fun h => ?_, ?_⟩, ?_, ?_⟩
  · by_cases happend : ∃ rest, file.place = docsDir.place.append rest
    · obtain ⟨rest, hrest⟩ := happend
      by_cases hne : rest = []
      · -- The path of the documents themselves has no file name left.
        rw [hne, hself] at hrest
        obtain ⟨n, -, hfileName⟩ := fileName?_of_properName? hhere h
        rw [relativeToDocs_of_same hrest] at hfileName
        cases hfileName
      · exact .inl ⟨rest, hne, hrest⟩
    · have hnot : ∀ rest, file.place ≠ docsDir.place.append rest :=
        fun rest hrest => happend ⟨rest, hrest⟩
      refine .inr ⟨fun hsame => hnot [] (hsame.trans hself.symm), ?_⟩
      exact (properName?_iff_of_not_append hhere hnot).1 h
  · rintro (⟨rest, hne, hrest⟩ | ⟨hdiffer, hright⟩)
    · exact hspelt rest hne hrest
    · by_cases happend : ∃ rest, rest ≠ [] ∧ file.place = docsDir.place.append rest
      · obtain ⟨rest, hne, hrest⟩ := happend
        exact hspelt rest hne hrest
      · refine (properName?_iff_of_not_append hhere fun rest hrest => ?_).2 hright
        by_cases hne : rest = []
        · rw [hne, hself] at hrest
          exact hdiffer hrest
        · exact happend ⟨rest, hne, hrest⟩
  · intro hfile hdocs hne hdiffer
    have hplace := Path.place_of_isAbsolute hfile here
    have hplace' := Path.place_of_isAbsolute hdocs here
    by_cases hpre : docsDir.location here <+: file.location here
    · obtain ⟨rest, hrest⟩ := hpre
      refine hspelt rest ?_ (by rw [hplace, hplace', ← hrest]; rfl)
      rintro rfl
      rw [List.append_nil] at hrest
      exact hdiffer hrest.symm
    · have hnot : ∀ rest, file.place ≠ docsDir.place.append rest := by
        intro rest hrest
        rw [hplace, hplace'] at hrest
        exact hpre ⟨rest, (Place.rooted.inj hrest).symm⟩
      refine (properName?_iff_of_not_append hhere hnot).2 ⟨?_, fun a b rest hrest => ?_⟩
      · rw [hplace]
        exact hne
      · exact hpre ⟨_, hrest.symm⟩
  · intro hmixed n hn
    exact relativeToDocs_of_last (place_ne_append_of_mixed hmixed) hn

end

/-- The path of the file is absolute, that of the documents is not: the directory between them
is missing from the name. -/
theorem relativeToDocs_proper_iff_mixed :
    AreNames ["srv"] ∧
    relativeToDocs ⟨"/srv/docs/goals/run.rst"⟩ ⟨"docs"⟩ = ⟨"run.rst"⟩ ∧
    properName? (ofLocation ["srv"]) ⟨"/srv/docs/goals/run.rst"⟩ ⟨"docs"⟩ =
      some ⟨"goals/run.rst"⟩ := by
  have hhere : AreNames ["srv"] := by decide
  obtain ⟨-, -, hmixed⟩ := relativeToDocs_proper_iff hhere
    ⟨"/srv/docs/goals/run.rst"⟩ ⟨"docs"⟩
  exact ⟨hhere, hmixed (by decide) "run.rst" (by decide), by decide⟩

end DocStamp.Command
