/-
# Which sources a build changes

Only an output directory that is the directory of documents is refused.
One that lies above it is not, and then an output may land on a source.
`build_changes_overlapped_sources` says when that happens, and what the
source holds afterwards; every other source stays as it was, whether the
build succeeds or fails.
-/
import DocStamp.Proofs.Command.Build

namespace DocStamp.Command

open Files (Session Node)

/-- A selected source is changed only where the output of another one lands on it.  That is so
if and only if the documents lie below the output directory, and the other source where this
one is seen from there.  Then a build that succeeds puts the other's text in its place. -/
theorem build_changes_overlapped_sources {s : Session} (hs : s.Plain) {env : Environment}
    {docsDir : Path} {given : Option Path} {app : Application} {sources : List Path} {out : Path}
    (happ : (s.run (configure env docsDir)).1 = .ok app)
    (hout : out = given.getD (docsDir.join defaultOutput))
    (hsources : (s.run (sourcesFor app out)).1 = .ok sources) :
    ∃ r s', s.run (build env docsDir given) = (r, s') ∧
      (∀ p ∈ sources,
        (∀ q ∈ sources, (out.join q).location s.here ≠ (docsDir.join p).location s.here) →
        s'.root.view ((docsDir.join p).location s.here) =
          s.root.view ((docsDir.join p).location s.here)) ∧
      ∀ p ∈ sources, ∀ q ∈ sources,
        ((out.join q).location s.here = (docsDir.join p).location s.here ↔
          ∃ above, above ≠ [] ∧ docsDir.location s.here = out.location s.here ++ above ∧
            q.parts = above ++ p.parts) ∧
        ((out.join q).location s.here = (docsDir.join p).location s.here → r = .ok () → ∃ t,
          (s.root.view ((docsDir.join q).location s.here) = some (.file (.text t)) ∨
            s'.root.view ((docsDir.join q).location s.here) = some (.file (.text t))) ∧
          s'.root.view ((docsDir.join p).location s.here) =
            some (.file (.text
              (app.emit (q.documentName app.config.settings.sourceSuffix) t)))) := by
  subst hout
  have happ := configure_run happ
  obtain ⟨config, rfl, rfl⟩ := configure_ok happ
  obtain ⟨hsources, skip, entries, hselected⟩ := sourcesFor_ok hs hsources
  have hnamed : ∀ p ∈ sources, p.Named := fun p hp => (hselected.source hs hp).1
  obtain ⟨r, s', done, hrun, hbuilt, hpre, hall⟩ :=
    buildAll_run hs hsources hnamed (Path.nodup_of_precedes hselected.sorted)
  refine ⟨r, s', by rw [build, Session.run_bind_ok happ, hrun], fun p hp hfree => ?_,
    fun p hp q hq => ⟨?_, fun hland hok => ?_⟩⟩
  · -- The source is a file, so no directory was added in its place.
    obtain ⟨-, ⟨c, hc⟩, -⟩ := hselected.source hs hp
    rw [← (hnamed p hp).location_join] at hc
    have hframe := hbuilt.frame ((config.docsDir.join p).location s.here) fun q hq =>
      (hnamed q (hpre.subset hq)).location_join s.here _ ▸ (hfree q (hpre.subset hq)).symm
    rcases hframe with e | ha
    · exact e
    · cases ha.before.symm.trans hc
  · rw [(hnamed p hp).location_join, (hnamed q hq).location_join]
    exact eq_comm.trans (hselected.overlap_iff hs hp)
  · obtain ⟨rfl, -⟩ := hall hok
    obtain ⟨t, ht, hw⟩ := (hbuilt.output q hq).written
    rw [← hland, (hnamed q hq).location_join, (hnamed q hq).location_join]
    exact ⟨t, ht, hw⟩

/-- Documents that hold documents of their own, below a directory that is to be the output. -/
def nestedSession : Session where
  root := .dir [
    ("pom.xml", .file (.text sampleManifest)),
    ("docs", .dir [
      ("a.rst", .file (.text "")),
      ("docs", .dir [("a.rst", .file (.text Placeholder.server))])])]
  here := []

/-- The output of `docs/docs/a.rst` takes the place of the source `docs/a.rst`. -/
theorem build_changes_overlapped_sources_nested :
    nestedSession.root.view ["docs", "a.rst"] = some (.file (.text "")) ∧
    ∃ s', nestedSession.run (build ⟨⟨""⟩, none⟩ ⟨"docs"⟩ (some ⟨"."⟩)) = (.ok (), s') ∧
      s'.root.view ["docs", "a.rst"] = some (.file (.text "2")) := by
  have hs : nestedSession.Plain := by
    refine ⟨?_, ?_, rfl⟩
    · simp +decide [nestedSession, Node.proper_dir_iff]
    · exact Node.linkFree_dir (by simp [Node.linkFree_dir, Node.linkFree_file])
  have happ : (nestedSession.run (configure ⟨⟨""⟩, none⟩ ⟨"docs"⟩)).1 =
      .ok (sampleApp ⟨"docs"⟩) :=
    configure_sample rfl (by decide) rfl
  have hof : Placement.of nestedSession.currentDir (sampleApp ⟨"docs"⟩).config.docsDir ⟨"."⟩ = .outside := by
    decide +kernel
  have hsources : (nestedSession.run (sourcesFor (sampleApp ⟨"docs"⟩) ⟨"."⟩)).1 =
      .ok [⟨"a.rst"⟩, ⟨"docs/a.rst"⟩] :=
    sourcesFor_of_sorted hof (by simp) (Session.eq_ok_of_toOption (by decide +kernel))
      (by decide +kernel)
  obtain ⟨s₁, hloop⟩ : ∃ s₁, nestedSession.run
      (List.forM [⟨"a.rst"⟩, ⟨"docs/a.rst"⟩] (buildDocument (sampleApp ⟨"docs"⟩) ⟨"."⟩)) = (.ok (), s₁) :=
    ⟨_, Session.run_eq_of_toOption (by decide +kernel)⟩
  have hgiven : (⟨"."⟩ : Path) = (some ⟨"."⟩ : Option Path).getD (Path.join ⟨"docs"⟩ defaultOutput) :=
    rfl
  obtain ⟨r, s', hrun, hsame, hover⟩ := build_changes_overlapped_sources hs happ hgiven hsources
  obtain rfl : r = .ok () := by
    rw [build, Session.run_bind_ok (configure_run happ), ← hgiven,
      buildAll_of_forM (sourcesFor_ok hs hsources).1 hloop] at hrun
    exact (congrArg Prod.fst hrun).symm
  have houter : (Path.join ⟨"docs"⟩ ⟨"a.rst"⟩).location nestedSession.here = ["docs", "a.rst"] := by
    decide +kernel
  have hinner : (Path.join ⟨"docs"⟩ ⟨"docs/a.rst"⟩).location nestedSession.here =
      ["docs", "docs", "a.rst"] := by
    decide +kernel
  -- Nothing lands on the inner source, so it has the text that it had.
  have hkeep := hsame ⟨"docs/a.rst"⟩ (by simp) (by decide +kernel)
  obtain ⟨t, ht, htext⟩ :=
    (hover ⟨"a.rst"⟩ (by simp) ⟨"docs/a.rst"⟩ (by simp)).2 (by decide +kernel) rfl
  rw [hkeep, or_self, hinner] at ht
  obtain rfl : t = Placeholder.server := by
    have hview : nestedSession.root.view ["docs", "docs", "a.rst"] =
        some (.file (.text Placeholder.server)) := rfl
    rw [hview] at ht
    cases ht
    rfl
  rw [houter] at htext
  refine ⟨rfl, s', hrun, htext.trans ?_⟩
  decide +kernel

end DocStamp.Command
