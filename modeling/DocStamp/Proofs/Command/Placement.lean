/-
# Where the output goes, by names alone

The placement of an output directory compares two lists of names: those
that the directory of documents and the output directory lead to, walked
from the working directory (`Path.reachedFrom`).  Nothing else of the
paths is looked at, so it does not matter how the directories are spelt,
and names are compared as a whole (`Placement.of_classifies`).
-/
import DocStamp.Proofs.Command.Build
import DocStamp.Proofs.Path.Canonical

namespace DocStamp

open Files (Location Session)
open DocStamp.Path (AreNames ofLocation ofNames)

namespace Path

/-- The names that a path leads to from a working directory, by its text alone. -/
def reachedFrom (p cwd : Path) : Location := p.location (cwd.location [])

theorem isAbsolute_join {base : Path} (h : base.isAbsolute = true) (p : Path) :
    (base.join p).isAbsolute = true := by
  cases hp : p.isAbsolute with
  | true => rw [join, if_pos hp, hp]
  | false => rw [isAbsolute_eq, head?_join base hp, ← isAbsolute_eq, h]

theorem resolve_of_isAbsolute {cwd : Path} (h : cwd.isAbsolute = true) (p : Path) :
    resolve cwd p = ofLocation (p.reachedFrom cwd) := by
  rw [resolve_eq_clean, clean_eq, place_of_isAbsolute (isAbsolute_join h p) [], location_of_join]
  rfl

end Path

namespace Command

namespace Placement

variable {cwd docsDir out : Path}

/-- The answer depends on the clean forms of the two paths only. -/
theorem of_eq_of_resolve {cwd cwd' docsDir docsDir' out out' : Path}
    (hdocs : Path.resolve cwd docsDir = Path.resolve cwd' docsDir')
    (hout : Path.resolve cwd out = Path.resolve cwd' out') :
    of cwd docsDir out = of cwd' docsDir' out' := by
  unfold of
  rw [hdocs, hout]

theorem of_cases (hcwd : cwd.isAbsolute = true) (docsDir out : Path) :
    (out.reachedFrom cwd = docsDir.reachedFrom cwd ∧
      of cwd docsDir out = .same (ofLocation (out.reachedFrom cwd))) ∨
    (∃ rest, rest ≠ [] ∧ AreNames rest ∧
      out.reachedFrom cwd = docsDir.reachedFrom cwd ++ rest ∧
      of cwd docsDir out = .inside (ofNames rest)) ∨
    (¬ docsDir.reachedFrom cwd <+: out.reachedFrom cwd ∧ of cwd docsDir out = .outside) := by
  have hnames := Path.areNames_location Path.areNames_nil cwd
  have hof : of cwd docsDir out = of (ofLocation (cwd.location [])) docsDir out := by
    have hresolve : ∀ p, Path.resolve cwd p = Path.resolve (ofLocation (cwd.location [])) p := by
      intro p
      rw [Path.resolve_of_isAbsolute hcwd, Path.resolve_eq hnames]
      rfl
    exact of_eq_of_resolve (hresolve docsDir) (hresolve out)
  rw [hof]
  exact (of_eq hnames docsDir out).imp_left fun h => ⟨h.1.symm, h.2⟩

theorem of_same_iff (hcwd : cwd.isAbsolute = true) (p : Path) :
    of cwd docsDir out = .same p ↔
      out.reachedFrom cwd = docsDir.reachedFrom cwd ∧ p = ofLocation (out.reachedFrom cwd) := by
  rcases of_cases hcwd docsDir out with ⟨h, hof⟩ | ⟨rest, hne, -, h, hof⟩ | ⟨h, hof⟩
  · simp [hof, h, eq_comm]
  · rw [hof, h]
    exact iff_of_false (by simp) fun e => hne (by simpa using e.1)
  · rw [hof]
    exact iff_of_false (by simp) fun e => h (e.1 ▸ List.prefix_rfl)

theorem of_inside_iff (hcwd : cwd.isAbsolute = true) (r : Path) :
    of cwd docsDir out = .inside r ↔ ∃ rest, rest ≠ [] ∧ r = ofNames rest ∧
      out.reachedFrom cwd = docsDir.reachedFrom cwd ++ rest := by
  rcases of_cases hcwd docsDir out with ⟨h, hof⟩ | ⟨rest, hne, -, h, hof⟩ | ⟨h, hof⟩
  · rw [hof, h]
    refine iff_of_false (by simp) ?_
    rintro ⟨rest, hne, -, hrest⟩
    exact hne (by simpa using hrest)
  · rw [hof, h]
    constructor
    · rintro ⟨⟩
      exact ⟨rest, hne, rfl, rfl⟩
    · rintro ⟨rest', -, rfl, hrest⟩
      rw [List.append_cancel_left hrest]
  · rw [hof]
    refine iff_of_false (by simp) ?_
    rintro ⟨rest, -, -, hrest⟩
    exact h ⟨rest, hrest.symm⟩

theorem of_outside_iff (hcwd : cwd.isAbsolute = true) :
    of cwd docsDir out = .outside ↔ ¬ docsDir.reachedFrom cwd <+: out.reachedFrom cwd := by
  rcases of_cases hcwd docsDir out with ⟨h, hof⟩ | ⟨rest, -, -, h, hof⟩ | ⟨h, hof⟩
  · rw [hof, h]
    exact iff_of_false (by simp) (not_not_intro List.prefix_rfl)
  · rw [hof, h]
    exact iff_of_false (by simp) (not_not_intro (List.prefix_append _ _))
  · exact iff_of_true hof h

theorem of_congr {cwd' docsDir' out' : Path} (hcwd : cwd.isAbsolute = true)
    (hcwd' : cwd'.isAbsolute = true)
    (hdocs : docsDir'.reachedFrom cwd' = docsDir.reachedFrom cwd)
    (hout : out'.reachedFrom cwd' = out.reachedFrom cwd) :
    of cwd' docsDir' out' = of cwd docsDir out := by
  apply of_eq_of_resolve
  · rw [Path.resolve_of_isAbsolute hcwd', Path.resolve_of_isAbsolute hcwd, hdocs]
  · rw [Path.resolve_of_isAbsolute hcwd', Path.resolve_of_isAbsolute hcwd, hout]

/-- Names that only begin alike are different names. -/
theorem not_prefix_of_longer {above below : Location} {n more : String} (h : more ≠ "") :
    ¬ above ++ [n] <+: above ++ (n ++ more) :: below := by
  intro hpre
  have hname := (List.cons_prefix_cons.1 ((List.prefix_append_right_inj above).1 hpre)).1
  exact h (by simpa using congrArg String.toList hname)

end Placement

theorem sourcesFor_refuses_iff (s : Session) (app : Application) (out p : Path) :
    (s.run (sourcesFor app out)).1 = .error (.outputIsDocs p) ↔
      Placement.of s.currentDir app.config.docsDir out = .same p := by
  by_cases hsame : ∃ q, Placement.of s.currentDir app.config.docsDir out = .same q
  · obtain ⟨q, hof⟩ := hsame
    unfold sourcesFor
    rw [Session.run_bind, Session.run_currentDir]
    simp only [hof, Session.run_throw, Except.error.injEq, Failure.outputIsDocs.injEq,
      Placement.same.injEq]
  · refine iff_of_false ?_ fun h => hsame ⟨p, h⟩
    rw [sourcesFor_eq rfl fun q h => hsame ⟨q, h⟩, Session.run_adapt]
    generalize (s.run (findSources app.config.settings app.config.docsDir _)).1 = r
    intro h
    cases r <;> cases h

namespace Placement

/-- The placement of an output directory, for every spelling of the two directories: it is the
documents if the names are the same, it lies inside if they go on from those of the documents,
and else it lies outside, where names that only begin alike do not count as the same. -/
theorem of_classifies (hcwd : cwd.isAbsolute = true) (docsDir out : Path) :
    (∀ p, of cwd docsDir out = .same p ↔
      out.reachedFrom cwd = docsDir.reachedFrom cwd ∧ p = ofLocation (out.reachedFrom cwd)) ∧
    (∀ (s : Session) app p, s.currentDir = cwd → app.config.docsDir = docsDir →
      ((s.run (sourcesFor app out)).1 = .error (.outputIsDocs p) ↔
        of cwd docsDir out = .same p)) ∧
    (∀ r, of cwd docsDir out = .inside r ↔ ∃ rest, rest ≠ [] ∧ r = ofNames rest ∧
      out.reachedFrom cwd = docsDir.reachedFrom cwd ++ rest) ∧
    (of cwd docsDir out = .outside ↔ ¬ docsDir.reachedFrom cwd <+: out.reachedFrom cwd) ∧
    (∀ cwd' docsDir' out', cwd'.isAbsolute = true →
      docsDir'.reachedFrom cwd' = docsDir.reachedFrom cwd →
      out'.reachedFrom cwd' = out.reachedFrom cwd →
      of cwd' docsDir' out' = of cwd docsDir out) ∧
    ∀ above n more below, more ≠ "" → docsDir.reachedFrom cwd = above ++ [n] →
      out.reachedFrom cwd = above ++ (n ++ more) :: below → of cwd docsDir out = .outside := by
  refine ⟨of_same_iff hcwd, fun s app p hs happ => ?_, of_inside_iff hcwd, of_outside_iff hcwd,
    fun _ _ _ => of_congr hcwd, fun above n more below hmore hdocs hout => ?_⟩
  · rw [sourcesFor_refuses_iff, hs, happ]
  · rw [of_outside_iff hcwd, hdocs, hout]
    exact not_prefix_of_longer hmore

/-- A way around to a directory inside, and one beside the documents that is named after them. -/
theorem of_classifies_detour :
    of ⟨"/srv/work"⟩ ⟨"../work/./docs/"⟩ ⟨"/srv//work/docs/site/../out"⟩ = .inside ⟨"out"⟩ ∧
      of ⟨"/srv/work"⟩ ⟨"docs"⟩ ⟨"docs-out/site"⟩ = .outside := by
  have hcwd : (⟨"/srv/work"⟩ : Path).isAbsolute = true := rfl
  obtain ⟨-, -, hinside, -, -, -⟩ :=
    of_classifies hcwd ⟨"../work/./docs/"⟩ ⟨"/srv//work/docs/site/../out"⟩
  obtain ⟨-, -, -, -, -, hbeside⟩ := of_classifies hcwd ⟨"docs"⟩ ⟨"docs-out/site"⟩
  refine ⟨(hinside ⟨"out"⟩).2 ⟨["out"], by decide, rfl, ?_⟩,
    hbeside ["srv", "work"] "docs" "-out" ["site"] (by decide) ?_ ?_⟩
  · decide +kernel
  · decide +kernel
  · decide +kernel

end Placement

end Command

end DocStamp
