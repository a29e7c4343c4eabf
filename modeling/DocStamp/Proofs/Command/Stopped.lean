/-
# A build that fails stops cleanly

Where the output goes to a directory among the documents, a build that
fails after the search stops at one source.  The sources before it are
stamped as if the build had succeeded; this one and those behind it have
the outputs that they had, and nothing else has changed but that
directories may have been added (`buildAll_stops_at_failure`).
-/
import DocStamp.Proofs.Command.Rebuild
import DocStamp.Proofs.Command.Run

namespace DocStamp.Command

open Files (Fault Location Node Session)
open DocStamp.Path (Precedes)

section

variable {s s₁ s' : Session} {settings : Settings} {docsDir out p : Path} {rest : Location}
  {entries : List (String × Node)} {sources done later : List Path} {app : Application}
  {f : Failure}

/-- The reason names the source: by its own path if it was no text from the beginning, and
else by the path of its output. -/
theorem Selected.names_failed
    (h : Selected s app.config.settings app.config.docsDir out (some rest) entries sources)
    (hs : s.Plain) (hp : p ∈ sources) (hbuilt : Built app out s done s₁)
    (hfails : Fails app out p s₁ f s') :
    (∃ fault, f = .read (app.config.docsDir.join p) fault ∧
      ∀ t, s.readText (app.config.docsDir.join p) ≠ .ok t) ∨
    (∃ fault t, f = .write (out.join p) fault ∧
      s.root.view ((app.config.docsDir.join p).location s.here) = some (.file (.text t))) := by
  have hloc := (h.source hs hp).1.location_join s.here app.config.docsDir
  have hkept := h.source_kept hs hbuilt hp
  rw [← hloc] at hkept
  cases hfails with
  | read hread =>
      refine .inl ⟨_, rfl, ?_⟩
      intro t ht
      -- What could be read at the beginning can be read now.
      have hview := hkept.trans (hs.readText_ok ht)
      have hagain := hs.readText_keeps hbuilt.keeps hbuilt.here ht hview
      cases hread.symm.trans hagain
  | write hread _ =>
      have hview := hbuilt.plain.readText_ok hread
      rw [hbuilt.here, hkept] at hview
      exact .inr ⟨_, _, rfl, hview⟩

theorem Selected.output_ne
    (h : Selected s settings docsDir out (some rest) entries sources) (hs : s.Plain)
    (hsplit : sources = done ++ later) {q q' : Path} (hq : q ∈ done) (hq' : q' ∈ later) :
    out.location s.here ++ q'.parts ≠ out.location s.here ++ q.parts := by
  intro heq
  have hnodup := Path.nodup_of_precedes h.sorted
  rw [hsplit] at hnodup
  have hnamed := (h.source hs (hsplit ▸ List.mem_append_left _ hq)).1
  have hnamed' := (h.source hs (hsplit ▸ List.mem_append_right _ hq')).1
  have hsame := hnamed.parts_inj hnamed' (List.append_cancel_left heq).symm
  exact (List.nodup_append.1 hnodup).2.2 q hq q' hq' hsame

end

/-- A build into a directory among the documents that fails after the search does so at one of
the sources and names it.  Every source before it is stamped; all else that can be seen is as
it was, the earlier outputs of the other sources with it, or a directory that was added.  The
program prints nothing and exits with 1. -/
theorem buildAll_stops_at_failure {s₀ s s' : Session} {env : Environment} {docsDir : Path}
    {app : Application} (happ : (s₀.run (configure env docsDir)).1 = .ok app) (hs : s.Plain)
    {out relative : Path} {sources : List Path} {f : Failure}
    (hplace : Placement.of s.currentDir app.config.docsDir out = .inside relative)
    (hscan : (s.run (findSources app.config.settings app.config.docsDir (some relative))).1 =
      .ok sources)
    (hrun : s.run (buildAll app out) = (.error f, s')) :
    sources.Pairwise Precedes ∧ ∃ done p later, sources = done ++ p :: later ∧
      (∀ q ∈ done, ∃ t,
        s.root.view ((app.config.docsDir.join q).location s.here) = some (.file (.text t)) ∧
        s'.root.view ((out.join q).location s.here) =
          some (.file (.text (app.config.versions.stamp t)))) ∧
      ((∃ fault, f = .read (app.config.docsDir.join p) fault ∧
          f.message = "Error reading " ++ Text.quote (app.config.docsDir.join p).text ∧
          ∀ t, s.readText (app.config.docsDir.join p) ≠ .ok t) ∨
        (∃ fault t, f = .write (out.join p) fault ∧
          f.message = "Error writing " ++ Text.quote (out.join p).text ∧
          s.root.view ((app.config.docsDir.join p).location s.here) = some (.file (.text t)))) ∧
      (∀ l, (∀ q ∈ done, l ≠ (out.join q).location s.here) →
        s'.root.view l = s.root.view l ∨
        (s.root.view l = none ∧ s'.root.view l = some .dir)) ∧
      (∀ q ∈ p :: later, ∀ c, s.root.view ((out.join q).location s.here) = some (.file c) →
        s'.root.view ((out.join q).location s.here) = some (.file c)) ∧
      ∀ program env args input given,
        Request.parse? program args = some (.build app.config.docsDir given) →
        given.getD (app.config.docsDir.join defaultOutput) = out →
        (s.run (configure env app.config.docsDir)).1 = .ok app →
        ∃ outcome, (run program env args input : StateM Session Outcome) s = (outcome, s') ∧
          outcome = .failure f ∧ s'.printed = s.printed ∧ outcome.exitCode = 1 := by
  obtain ⟨rest, hplaced, rfl⟩ := placed_of_inside hs hplace
  obtain ⟨hfind, entries, h⟩ := selected_of_findSources hs hplaced hscan
  have hnamed : ∀ p ∈ sources, p.Named := fun p hp => (h.source hs hp).1
  have hsources := sourcesFor_inside hplace hfind
  rcases buildAll_cases hs hsources hnamed (Path.nodup_of_precedes h.sorted) with
    ⟨_, hok, -⟩ | ⟨_, _, herror, hprinted, done, p, later, s₁, hsplit, hbuilt, hfails⟩
  · cases hok.symm.trans hrun
  · obtain ⟨hf, rfl⟩ := Prod.mk.inj (hrun.symm.trans herror)
    obtain rfl := Except.error.inj hf
    have hdone : ∀ q ∈ done, q ∈ sources := fun q hq => hsplit ▸ List.mem_append_left _ hq
    have hlater : ∀ q ∈ p :: later, q ∈ sources := fun q hq => hsplit ▸ List.mem_append_right _ hq
    have hstopped := hbuilt.grow (hfails.grows hbuilt.plain)
    have hloc : ∀ q ∈ sources, (out.join q).location s.here = out.location s.here ++ q.parts :=
      fun q hq => (hnamed q hq).location_join s.here out
    have hframe : ∀ l, (∀ q ∈ done, l ≠ (out.join q).location s.here) →
        s'.root.view l = s.root.view l ∨ Session.Added s s' l := by
      intro l hl
      exact hstopped.frame l fun q hq => hloc q (hdone q hq) ▸ hl q hq
    refine ⟨h.sorted, done, p, later, hsplit, ?_, ?_, ?_, ?_, ?_⟩
    · intro q hq
      obtain ⟨t, ht, hw⟩ := h.stamped_of_done hs rfl hstopped (hdone q hq) hq
      rw [hloc q (hdone q hq), (hnamed q (hdone q hq)).location_join]
      exact ⟨t, ht, emit_of_configure happ _ t ▸ hw⟩
    · rcases h.names_failed hs (hlater p List.mem_cons_self) hbuilt hfails with
        ⟨fault, rfl, hno⟩ | ⟨fault, t, rfl, ht⟩
      · exact .inl ⟨fault, rfl, rfl, hno⟩
      · exact .inr ⟨fault, t, rfl, rfl, ht⟩
    · intro l hl
      exact (hframe l hl).imp_right fun ha => ⟨ha.before, ha.after⟩
    · intro q hq c hc
      have hother : ∀ q' ∈ done, (out.join q).location s.here ≠ (out.join q').location s.here := by
        intro q' hq'
        rw [hloc q (hlater q hq), hloc q' (hdone q' hq')]
        exact h.output_ne hs hsplit hq' hq
      rcases hframe _ hother with e | ha
      · exact e.trans hc
      · cases ha.before.symm.trans hc
    · intro program env args input given hargs hout happ'
      have hbuild : s.run (perform program env input (.build app.config.docsDir given)) =
          (.error f, s') := by
        rw [perform, build, Session.run_bind_ok (configure_run happ'), hout, hrun]
      exact ⟨_, run_of_perform hargs hbuild, rfl, hprinted, rfl⟩

/-- Two documents, the second of which is no text, and an output of it from before. -/
def binarySession : Session where
  root := .dir [
    ("pom.xml", .file (.text sampleManifest)),
    ("docs", .dir [
      ("a.rst", .file (.text Placeholder.server)),
      ("b.rst", .file (.binary [255])),
      ("_build", .dir [("source", .dir [("b.rst", .file (.text "old"))])])])]
  here := []

/-- The first document is stamped, the output of the second is the old one. -/
theorem buildAll_stops_at_failure_binary :
    ∃ f s', f.message = "Error reading \"docs/b.rst\"" ∧
      binarySession.run (buildAll (sampleApp ⟨"docs"⟩) ⟨"docs/_build/source"⟩) = (.error f, s') ∧
      s'.root.view ["docs", "_build", "source", "a.rst"] = some (.file (.text "2")) ∧
      s'.root.view ["docs", "_build", "source", "b.rst"] = some (.file (.text "old")) ∧
      ∃ outcome, (run .docs ⟨⟨""⟩, none⟩ ["-C", "docs", "build"] "" : StateM Session Outcome)
        binarySession = (outcome, s') ∧ s'.printed = "" ∧ outcome.exitCode = 1 := by
  have hs : binarySession.Plain := by
    refine ⟨?_, ?_, rfl⟩
    · simp +decide [binarySession, Node.proper_dir_iff]
    · have hbuild : (Node.dir [("source", .dir [("b.rst", .file (.text "old"))])]).LinkFree :=
        Node.linkFree_dir (by simp [Node.linkFree_dir, Node.linkFree_file])
      exact Node.linkFree_dir (by simp [Node.linkFree_dir, Node.linkFree_file, hbuild])
  have happ : (binarySession.run (configure ⟨⟨""⟩, none⟩ ⟨"docs"⟩)).1 =
      .ok (sampleApp ⟨"docs"⟩) :=
    configure_sample rfl (by decide) rfl
  have hplace : Placement.of binarySession.currentDir (sampleApp ⟨"docs"⟩).config.docsDir
      ⟨"docs/_build/source"⟩ = .inside ⟨"_build/source"⟩ := by
    decide +kernel
  have hsources : (binarySession.run
      (sourcesFor (sampleApp ⟨"docs"⟩) ⟨"docs/_build/source"⟩)).1 =
        .ok [⟨"a.rst"⟩, ⟨"b.rst"⟩] :=
    sourcesFor_of_sorted hplace (by simp) (Session.eq_ok_of_toOption (by decide +kernel))
      (by decide +kernel)
  obtain ⟨s', hfirst, hread⟩ : ∃ s', binarySession.run
      (buildDocument (sampleApp ⟨"docs"⟩) ⟨"docs/_build/source"⟩ ⟨"a.rst"⟩) = (.ok (), s') ∧
      (s'.readText ⟨"docs/b.rst"⟩).toOption = none :=
    ⟨_, Session.run_eq_of_toOption (by decide +kernel), by decide +kernel⟩
  obtain ⟨fault, hfault⟩ : ∃ fault, s'.readText ⟨"docs/b.rst"⟩ = .error fault := by
    cases h : s'.readText ⟨"docs/b.rst"⟩ with
    | error fault => exact ⟨fault, rfl⟩
    | ok t => rw [h] at hread; cases hread
  have hjoin : (sampleApp ⟨"docs"⟩).config.docsDir.join ⟨"b.rst"⟩ = ⟨"docs/b.rst"⟩ := by
    decide +kernel
  have hsecond : s'.run (buildDocument (sampleApp ⟨"docs"⟩) ⟨"docs/_build/source"⟩ ⟨"b.rst"⟩) =
      (.error (.read ⟨"docs/b.rst"⟩ fault), s') := by
    rw [buildDocument, hjoin, Session.run_bind, readDocument_run, hfault]
  have hrun : binarySession.run (buildAll (sampleApp ⟨"docs"⟩) ⟨"docs/_build/source"⟩) =
      (.error (.read ⟨"docs/b.rst"⟩ fault), s') := by
    rw [buildAll, Session.run_bind_ok (sourcesFor_ok hs hsources).1, List.forM, Session.run_bind,
      Session.run_bind_ok hfirst, List.forM, Session.run_bind_error hsecond]
  obtain ⟨-, done, p, later, hsplit, hdone, hnames, -, holder, hexit⟩ :=
    buildAll_stops_at_failure happ hs hplace (findSources_inside hplace hsources) hrun
  -- The failure names the second document, so the first was built.
  obtain ⟨rfl, rfl⟩ : done = [⟨"a.rst"⟩] ∧ p = ⟨"b.rst"⟩ := by
    rcases hnames with ⟨_, hp, -⟩ | ⟨_, _, hp, -⟩
    · cases done with
      | nil =>
          obtain ⟨rfl, -⟩ := List.cons.inj hsplit
          exact absurd (Failure.read.inj hp).1 (by decide +kernel)
      | cons q qs =>
          obtain ⟨rfl, htail⟩ := List.cons.inj hsplit
          cases qs with
          | nil => exact ⟨rfl, (List.cons.inj htail).1.symm⟩
          | cons q' qs => simp at htail
    · cases hp
  have hplaceA : (Path.join ⟨"docs/_build/source"⟩ ⟨"a.rst"⟩).location binarySession.here =
      ["docs", "_build", "source", "a.rst"] := by
    decide +kernel
  have hplaceB : (Path.join ⟨"docs/_build/source"⟩ ⟨"b.rst"⟩).location binarySession.here =
      ["docs", "_build", "source", "b.rst"] := by
    decide +kernel
  have hsource : (Path.join (sampleApp ⟨"docs"⟩).config.docsDir ⟨"a.rst"⟩).location
      binarySession.here = ["docs", "a.rst"] := by
    decide +kernel
  have holder := holder ⟨"b.rst"⟩ List.mem_cons_self (.text "old")
  rw [hplaceB] at holder
  obtain ⟨t, ht, hw⟩ := hdone ⟨"a.rst"⟩ List.mem_cons_self
  rw [hsource] at ht
  rw [hplaceA] at hw
  obtain rfl : t = Placeholder.server := by
    have hview : binarySession.root.view ["docs", "a.rst"] =
        some (.file (.text Placeholder.server)) := rfl
    rw [hview] at ht
    cases ht
    rfl
  have hmessage : "Error reading " ++ Text.quote "docs/b.rst" = "Error reading \"docs/b.rst\"" := by
    decide +kernel
  obtain ⟨outcome, hmain, -, hprinted, hcode⟩ :=
    hexit .docs ⟨⟨""⟩, none⟩ ["-C", "docs", "build"] "" none (by decide +kernel) (by decide +kernel)
      happ
  exact ⟨.read ⟨"docs/b.rst"⟩ fault, s', hmessage, hrun, hw.trans (by decide +kernel), holder rfl,
    outcome, hmain, hprinted, hcode⟩

end DocStamp.Command
