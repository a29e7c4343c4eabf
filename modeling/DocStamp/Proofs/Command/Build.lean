/-
# What a build does to the tree

A build looks for its sources, then reads and writes one document after
the other.  `buildDocument_cases` says all that one step can do;
`Built` is what holds after any number of steps.  The loop does every
step, or it stops at the first document that fails
(`forM_buildDocument`).  Nothing is printed before the loop has come to
its end.
-/
import DocStamp.Proofs.Command.Configure
import DocStamp.Proofs.Command.Sources
import DocStamp.Proofs.Files.Frame
import DocStamp.Proofs.Files.Plain

namespace DocStamp.Command

open Files (Fault Session Node Location)
open Files.Session (Quiet Silent PrintsLast)
open DocStamp.Path (AreNames Precedes ofNames)

/-! ## The sources of a build -/

/-- What the search leaves out, by the locations of the documents and of the output. -/
inductive Placed (docs out : Location) : Option Location → Prop
  | inside {rest : Location} : rest ≠ [] → AreNames rest → out = docs ++ rest →
      Placed docs out (some rest)
  | outside : ¬ docs <+: out → Placed docs out none

theorem Placed.skipped {docs out : Location} {skip : Option Location} (h : Placed docs out skip) :
    ∀ r ∈ skip, r ≠ [] ∧ AreNames r := by
  cases h with
  | inside hne hnames _ =>
      rintro r ⟨⟩
      exact ⟨hne, hnames⟩
  | outside => simp

/-- What is known of sources that were selected on a session. -/
structure Selected (s : Session) (settings : Settings) (docsDir out : Path)
    (skip : Option Location) (entries : List (String × Node)) (sources : List Path) : Prop where
  placed : Placed (docsDir.location s.here) (out.location s.here) skip
  docs : s.node docsDir = .ok (.dir entries)
  searched : Searched s settings docsDir skip (.dir entries) [] (.ok sources)
  sorted : sources.Pairwise Precedes

theorem node_of_findSources {s : Session} {settings : Settings} {docsDir : Path}
    {skip : Option Path} {sources : List Path}
    (h : (s.run (findSources settings docsDir skip)).1 = .ok sources) :
    ∃ entries, s.node docsDir = .ok (.dir entries) := by
  unfold findSources Files.pathLimit sourcesBelow at h
  simp only [Session.run_bind, Session.run_listDirectory] at h
  cases hlist : s.listDirectory (docsDir.join ⟨""⟩) with
  | error fault =>
      rw [hlist] at h
      cases h
  | ok listed =>
      obtain ⟨entries, hnode, -⟩ := Session.listDirectory_ok_iff.1 hlist
      exact ⟨entries, Session.node_of_join_empty hnode⟩

theorem selected_of_findSources {s : Session} (hs : s.Plain) {settings : Settings}
    {docsDir out : Path} {skip : Option Location}
    (hplaced : Placed (docsDir.location s.here) (out.location s.here) skip)
    {sources : List Path}
    (h : (s.run (findSources settings docsDir (skip.map ofNames))).1 = .ok sources) :
    s.run (findSources settings docsDir (skip.map ofNames)) = (.ok sources, s) ∧
      ∃ entries, Selected s settings docsDir out skip entries sources := by
  obtain ⟨entries, hdocs⟩ := node_of_findSources h
  have htree := (hs.proper.at? (hs.node_ok hdocs)).2
  obtain ⟨r, hrun, hsearched, hsorted⟩ := findSources_run settings htree hdocs hplaced.skipped
  obtain rfl : r = .ok sources := by rw [← h, hrun]
  exact ⟨hrun, entries, hplaced, hdocs, hsearched, hsorted sources rfl⟩

/-- Unless the output is the documents, sources are selected by a search that leaves out what
its placement says. -/
theorem sourcesFor_eq {s : Session} {app : Application} {out : Path} {placement : Placement}
    (hof : Placement.of s.currentDir app.config.docsDir out = placement)
    (hne : ∀ p, placement ≠ .same p) :
    s.run (sourcesFor app out) = s.run (ExceptT.adapt (Failure.scan app.config.docsDir)
      (findSources app.config.settings app.config.docsDir placement.skipped?)) := by
  unfold sourcesFor
  rw [Session.run_bind, Session.run_currentDir]
  simp only [hof]

theorem findSources_of_sorted {s : Session} {settings : Settings} {docsDir : Path}
    {skip : Option Path} {found : List Path}
    (h : (s.run (sourcesBelow settings docsDir skip Files.pathLimit ⟨""⟩)).1 = .ok found)
    (hsorted : found.Pairwise fun p q => p.before q = true) :
    (s.run (findSources settings docsDir skip)).1 = .ok found := by
  rw [findSources, Session.run_bind]
  cases hrun : s.run (sourcesBelow settings docsDir skip Files.pathLimit ⟨""⟩) with
  | mk r s' =>
      rw [hrun] at h
      cases h
      exact congrArg _ (List.mergeSort_of_pairwise hsorted)

theorem sourcesFor_of_sorted {s : Session} {app : Application} {out : Path}
    {placement : Placement} {found : List Path}
    (hof : Placement.of s.currentDir app.config.docsDir out = placement)
    (hne : ∀ p, placement ≠ .same p)
    (h : (s.run (sourcesBelow app.config.settings app.config.docsDir placement.skipped?
      Files.pathLimit ⟨""⟩)).1 = .ok found)
    (hsorted : found.Pairwise fun p q => p.before q = true) :
    (s.run (sourcesFor app out)).1 = .ok found := by
  rw [sourcesFor_eq hof hne, Session.run_adapt, findSources_of_sorted h hsorted]
  rfl

theorem sourcesFor_run {s : Session} (hs : s.Plain) (app : Application) (out : Path) :
    (∃ f, s.run (sourcesFor app out) = (.error f, s)) ∨
    ∃ skip, Placed (app.config.docsDir.location s.here) (out.location s.here) skip ∧
      s.run (sourcesFor app out) = s.run (ExceptT.adapt (Failure.scan app.config.docsDir)
        (findSources app.config.settings app.config.docsDir (skip.map ofNames))) := by
  rcases Placement.of_eq hs.areNames_here app.config.docsDir out with
    ⟨-, hof⟩ | ⟨rest, hne, hrest, hout, hof⟩ | ⟨hnot, hof⟩ <;> rw [← Session.currentDir_eq] at hof
  · refine .inl ⟨.outputIsDocs (Path.ofLocation (out.location s.here)), ?_⟩
    unfold sourcesFor
    rw [Session.run_bind, Session.run_currentDir]
    simp only [hof, Session.run_throw]
  · refine .inr ⟨some rest, .inside hne hrest hout, ?_⟩
    simp only [sourcesFor_eq hof (by simp), Placement.skipped?, Option.map_some]
  · refine .inr ⟨none, .outside hnot, ?_⟩
    simp only [sourcesFor_eq hof (by simp), Placement.skipped?, Option.map_none]

theorem sourcesFor_ok {s : Session} (hs : s.Plain) {app : Application} {out : Path}
    {sources : List Path} (h : (s.run (sourcesFor app out)).1 = .ok sources) :
    s.run (sourcesFor app out) = (.ok sources, s) ∧ ∃ skip entries,
      Selected s app.config.settings app.config.docsDir out skip entries sources := by
  rcases sourcesFor_run hs app out with ⟨f, hf⟩ | ⟨skip, hplaced, hrun⟩
  · rw [hf] at h
    cases h
  · rw [hrun, Session.run_adapt] at h ⊢
    cases hfind : (s.run
        (findSources app.config.settings app.config.docsDir (skip.map ofNames))).1 with
    | error fault =>
        rw [hfind] at h
        cases h
    | ok found =>
        rw [hfind] at h
        cases h
        obtain ⟨hsame, entries, hselected⟩ := selected_of_findSources hs hplaced hfind
        exact ⟨by rw [hsame]; rfl, skip, entries, hselected⟩

section

variable {s : Session} {settings : Settings} {docsDir out : Path} {skip : Option Location}
  {entries : List (String × Node)} {sources : List Path}

/-- On a plain session a selected source is a file, and not in the output directory. -/
theorem Selected.source (h : Selected s settings docsDir out skip entries sources)
    (hs : s.Plain) {p : Path} (hp : p ∈ sources) :
    p.Named ∧ (∃ c, s.root.view (docsDir.location s.here ++ p.parts) = some (.file c)) ∧
      ∀ r ∈ skip, ¬ r <+: p.parts := by
  obtain ⟨names, -, hsource, rfl⟩ := (h.searched.2.2 p).1 hp
  have hat := hs.node_ok h.docs
  have hnames := hsource.areNames (hs.proper.at? hat).2
  obtain ⟨i, hi, hne⟩ := hsource.there
  rw [← Node.view_append hat] at hi
  rw [Path.parts_ofNames hnames]
  refine ⟨⟨names, hnames, rfl⟩, ?_, hsource.kept.beside⟩
  cases i with
  | file c => exact ⟨c, hi⟩
  | link t => exact absurd hi (hs.linkFree _ t)
  | dir => exact absurd rfl hne

/-- The output of one source lands on another if and only if the documents lie below the output
directory, and the one source where the other is seen from there. -/
theorem Selected.overlap_iff (h : Selected s settings docsDir out skip entries sources)
    (hs : s.Plain) {p q : Path} (hp : p ∈ sources) :
    docsDir.location s.here ++ p.parts = out.location s.here ++ q.parts ↔
      ∃ above, above ≠ [] ∧ docsDir.location s.here = out.location s.here ++ above ∧
        q.parts = above ++ p.parts := by
  constructor
  · intro heq
    rcases List.append_eq_append_iff.1 heq with ⟨a, ho, hparts⟩ | ⟨above, hd, hparts⟩
    · -- The output directory is not at or below the documents: the source would lie in it.
      obtain ⟨-, -, hbeside⟩ := h.source hs hp
      cases h.placed with
      | inside hne hnames hrest =>
          obtain rfl := List.append_cancel_left (ho.symm.trans hrest)
          exact absurd ⟨_, hparts.symm⟩ (hbeside _ rfl)
      | outside hnot => exact absurd ⟨a, ho.symm⟩ hnot
    · refine ⟨above, ?_, hd, hparts⟩
      rintro rfl
      rw [List.append_nil] at hd
      cases h.placed with
      | inside hne hnames hrest => exact hne (by simpa [hd] using hrest)
      | outside hnot => exact hnot (hd ▸ List.prefix_rfl)
  · rintro ⟨above, -, hdocs, hparts⟩
    rw [hdocs, hparts, List.append_assoc]

end

/-! ## One document -/

section

variable {s : Session} (app : Application) (out p : Path)

theorem readDocument_run (s : Session) (p : Path) :
    s.run (readDocument p) =
      match s.readText p with
      | .ok t => (.ok t, s)
      | .error fault => (.error (.read p fault), s) := by
  unfold readDocument
  rw [Session.run_bind, Session.run_readText]
  cases s.readText p <;> rfl

theorem writeDocument_cases (hs : s.Plain) (p : Path) (text : String) :
    (∃ fault s', s.run (writeDocument p text) = (.error (.write p fault), s') ∧ s.Grows s') ∨
    ∃ s₁ s', s.run (writeDocument p text) = (.ok (), s') ∧ s.Grows s₁ ∧ s₁.HasParent p ∧
      s₁.writeFile p (.text text) = .ok s' := by
  obtain ⟨r, s₁, hrun, hgrows, hparent⟩ := hs.ensureParent_run (ε := Failure) p
  unfold writeDocument
  rw [Session.run_bind, hrun]
  cases r with
  | error fault => exact .inl ⟨_, s₁, rfl, hgrows⟩
  | ok u =>
      simp only [Session.run_bind, Session.run_writeText]
      cases hwrite : s₁.writeFile p (.text text) with
      | error fault => exact .inl ⟨_, s₁, rfl, hgrows⟩
      | ok s' => exact .inr ⟨s₁, s', rfl, hgrows, hparent rfl, hwrite⟩

theorem buildDocument_of_read {t : String}
    (h : s.readText (app.config.docsDir.join p) = .ok t) :
    s.run (buildDocument app out p) =
      Session.run
        { s with documents := s.documents ++ [p.documentName app.config.settings.sourceSuffix] }
        (writeDocument (out.join p)
          (app.emit (p.documentName app.config.settings.sourceSuffix) t)) := by
  unfold buildDocument
  rw [Session.run_bind, readDocument_run, h]
  simp only [Session.run_bind, Application.process, Session.run_announce, Session.run_pure]

/-- No tree shows which documents were announced, or what was printed. -/
theorem grows_of_root_eq (hs : s.Plain) {s' : Session} (hroot : s'.root = s.root)
    (hhere : s'.here = s.here) : s.Grows s' := by
  refine ⟨⟨hroot ▸ hs.proper, hroot ▸ hs.linkFree, ?_⟩, hhere, fun l => .inl (by rw [hroot])⟩
  rw [hroot, hhere]
  exact hs.here

/-- How a document fails: it cannot be read, or it was read and its output cannot be written. -/
inductive Fails (s : Session) : Failure → Session → Prop
  | read {fault : Fault} : s.readText (app.config.docsDir.join p) = .error fault →
      Fails s (.read (app.config.docsDir.join p) fault) s
  | write {t : String} {fault : Fault} {s' : Session} :
      s.readText (app.config.docsDir.join p) = .ok t → s.Grows s' →
      Fails s (.write (out.join p) fault) s'

theorem Fails.grows {app : Application} {out p : Path} {s s' : Session} {f : Failure}
    (h : Fails app out p s f s') (hs : s.Plain) : s.Grows s' := by
  cases h with
  | read => exact hs.grows_refl
  | write _ hgrows => exact hgrows

/-- All that one step of a build can do: it fails, or it has read a text, made directories,
and written what the hooks make of the text. -/
theorem buildDocument_cases (hs : s.Plain) :
    (∃ f s', s.run (buildDocument app out p) = (.error f, s') ∧ Fails app out p s f s') ∨
    ∃ t s₁ s', s.run (buildDocument app out p) = (.ok (), s') ∧
      s.readText (app.config.docsDir.join p) = .ok t ∧ s.Grows s₁ ∧
      s₁.HasParent (out.join p) ∧
      s₁.writeFile (out.join p)
        (.text (app.emit (p.documentName app.config.settings.sourceSuffix) t)) = .ok s' := by
  cases hread : s.readText (app.config.docsDir.join p) with
  | error fault =>
      refine .inl ⟨.read (app.config.docsDir.join p) fault, s, ?_, .read hread⟩
      rw [buildDocument, Session.run_bind, readDocument_run, hread]
  | ok t =>
      rw [buildDocument_of_read app out p hread]
      have hnoted : s.Grows { s with
          documents := s.documents ++ [p.documentName app.config.settings.sourceSuffix] } :=
        grows_of_root_eq hs rfl rfl
      rcases writeDocument_cases hnoted.plain (out.join p)
        (app.emit (p.documentName app.config.settings.sourceSuffix) t) with
        ⟨fault, s', hrun, hgrows⟩ | ⟨s₁, s', hrun, hgrows, hparent, hwrite⟩
      · exact .inl ⟨_, s', hrun, .write hread (hnoted.trans hgrows)⟩
      · exact .inr ⟨t, s₁, s', hrun, rfl, hnoted.trans hgrows, hparent, hwrite⟩

end

/-! ## What is printed -/

theorem quiet_readDocument (p : Path) :
    Quiet (readDocument p : ExceptT Failure (StateM Session) String) := by
  intro s
  rw [readDocument_run]
  cases s.readText p with
  | ok source => rfl
  | error fault => rfl

theorem silent_process (app : Application) (docname source : String) :
    Silent (app.process docname source : ExceptT Failure (StateM Session) String) :=
  (Session.silent_announce docname).bind fun _ => (Session.quiet_pure _).preserves _

theorem silent_writeDocument (p : Path) (text : String) :
    Silent (writeDocument p text : ExceptT Failure (StateM Session) Unit) := by
  refine (Session.silent_ensureParent p).bind fun made => ?_
  cases made with
  | error fault => exact (Session.quiet_throw _).preserves _
  | ok u =>
      refine (Session.silent_writeText p text).bind fun written => ?_
      cases written with
      | error fault => exact (Session.quiet_throw _).preserves _
      | ok u => exact (Session.quiet_pure _).preserves _

theorem silent_buildDocument (app : Application) (out p : Path) :
    Silent (buildDocument app out p : ExceptT Failure (StateM Session) Unit) := by
  refine ((quiet_readDocument _).preserves _).bind fun source => ?_
  exact (silent_process app _ source).bind fun text => silent_writeDocument _ text

/-! ## Any number of documents -/

/-- The output of a source, some steps after a build began on `s₀`. -/
structure Output (app : Application) (out : Path) (s₀ s : Session) (p : Path) : Prop where
  /-- It is made of a text that the source had at the beginning, or has now. -/
  written : ∃ t,
    (s₀.root.view (app.config.docsDir.location s₀.here ++ p.parts) = some (.file (.text t)) ∨
      s.root.view (app.config.docsDir.location s₀.here ++ p.parts) = some (.file (.text t))) ∧
    s.root.view (out.location s₀.here ++ p.parts) =
      some (.file (.text (app.emit (p.documentName app.config.settings.sourceSuffix) t)))
  readable : ∃ t, s.readText (app.config.docsDir.join p) = .ok t
  parent : s.HasParent (out.join p)
  /-- Writing what it holds once more changes nothing. -/
  settled : ∀ c, s.root.view (out.location s₀.here ++ p.parts) = some (.file c) →
    s.writeFile (out.join p) c = .ok s

/-- What holds after a build that began on `s₀` has written some documents. -/
structure Built (app : Application) (out : Path) (s₀ : Session) (done : List Path)
    (s : Session) : Prop where
  plain : s.Plain
  here : s.here = s₀.here
  keeps : s₀.root.Keeps s.root
  frame : ∀ l, (∀ p ∈ done, l ≠ out.location s₀.here ++ p.parts) →
    s.root.view l = s₀.root.view l ∨ Session.Added s₀ s l
  named : ∀ p ∈ done, p.Named
  output : ∀ p ∈ done, Output app out s₀ s p

section

variable {app : Application} {out : Path} {s₀ s s' : Session} {done : List Path}

theorem built_nil (app : Application) (out : Path) (hs : s₀.Plain) : Built app out s₀ [] s₀ :=
  ⟨hs, rfl, .refl _, fun _ _ => .inl rfl, by simp, by simp⟩

/-- From `s` to `s'`, a text at a location remains a text.  If it changes, it was the text
that `s₀` had there. -/
def Rewritten (s₀ s s' : Session) (l : Location) : Prop :=
  ∀ t, s.root.view l = some (.file (.text t)) → ∃ t',
    s'.root.view l = some (.file (.text t')) ∧
      (t' = t ∨ s₀.root.view l = some (.file (.text t)))

/-- An output stays what it is, if nothing writes to its place and its source is at most
rewritten. -/
theorem Output.step {p : Path} (h : Output app out s₀ s p) (hp : p.Named) (hs : s.Plain)
    (hhere₀ : s.here = s₀.here) (hk : s.root.Keeps s'.root) (hhere : s'.here = s.here)
    (hout : s'.root.view (out.location s₀.here ++ p.parts) =
      s.root.view (out.location s₀.here ++ p.parts))
    (hsource : Rewritten s₀ s s' (app.config.docsDir.location s₀.here ++ p.parts)) :
    Output app out s₀ s' p := by
  have hdocs := hp.location_join s.here app.config.docsDir
  have hloc := hp.location_join s.here out
  rw [hhere₀] at hdocs hloc
  refine ⟨?_, ?_, h.parent.keeps hk hhere, fun c hc => ?_⟩
  · obtain ⟨t, ht, hw⟩ := h.written
    refine ⟨t, ?_, hout.trans hw⟩
    rcases ht with ht | ht
    · exact .inl ht
    · obtain ⟨t', ht', rfl | ht₀⟩ := hsource t ht
      · exact .inr ht'
      · exact .inl ht₀
  · obtain ⟨t, ht⟩ := h.readable
    have hview := hs.readText_ok ht
    rw [hhere₀, hdocs] at hview
    obtain ⟨t', ht', -⟩ := hsource t hview
    exact ⟨t', hs.readText_keeps hk hhere ht (by rw [hhere₀, hdocs, ht'])⟩
  · have hwrite := h.settled c (hout ▸ hc)
    exact hs.writeFile_again hwrite hk hhere (by rw [hhere₀, hloc, hc])

theorem Built.grow (h : Built app out s₀ done s) (hg : s.Grows s') :
    Built app out s₀ done s' := by
  refine ⟨hg.plain, hg.here.trans h.here, h.keeps.trans hg.keeps, fun l hl => ?_, h.named,
    fun p hp => ?_⟩
  · rcases h.frame l hl with e | ha
    · rcases hg.view l with e' | ha'
      · exact .inl (e'.trans e)
      · exact .inr ⟨e ▸ ha'.before, ha'.after, ha'.fits⟩
    · exact .inr ⟨ha.before, hg.view_eq ha.after, ha.fits⟩
  · have hout := h.output p hp
    obtain ⟨t, -, hw⟩ := hout.written
    exact hout.step (h.named p hp) h.plain h.here hg.keeps hg.here
      ((hg.view_eq hw).trans hw.symm) fun t ht => ⟨t, hg.view_eq ht, .inl rfl⟩

theorem Built.write (h : Built app out s₀ done s) {q : Path} {t : String} (hq : q.Named)
    (hnew : q ∉ done) (hread : s.readText (app.config.docsDir.join q) = .ok t)
    (hparent : s.HasParent (out.join q))
    (hwrite : s.writeFile (out.join q)
      (.text (app.emit (q.documentName app.config.settings.sourceSuffix) t)) = .ok s') :
    Built app out s₀ (done ++ [q]) s' := by
  have hdocs := hq.location_join s.here app.config.docsDir
  have hloc := hq.location_join s.here out
  obtain ⟨hne, hputs⟩ := h.plain.writeFile_ok hwrite
  have hk := hputs.keeps h.plain hne
  rw [h.here] at hdocs hloc
  rw [h.here, hloc] at hne hputs
  have hother : ∀ p ∈ done, out.location s₀.here ++ p.parts ≠ out.location s₀.here ++ q.parts :=
    fun p hp e => hnew ((h.named p hp).parts_inj hq (List.append_cancel_left e) ▸ hp)
  -- Whatever file the document replaces was there from the beginning.
  have hbefore : ∀ t, s.root.view (out.location s₀.here ++ q.parts) = some (.file (.text t)) →
      s₀.root.view (out.location s₀.here ++ q.parts) = some (.file (.text t)) := by
    intro t ht
    rcases h.frame _ fun p hp => (hother p hp).symm with e | ha
    · exact e ▸ ht
    · cases ha.after.symm.trans ht
  have hnow : s'.root.view (out.location s₀.here ++ q.parts) =
      some (.file (.text (app.emit (q.documentName app.config.settings.sourceSuffix) t))) := by
    rw [hputs.view, if_pos rfl]
  have hsource : ∀ l, Rewritten s₀ s s' l := by
    intro l t ht
    by_cases hl : l = out.location s₀.here ++ q.parts
    · exact ⟨_, hl ▸ hnow, .inr (hl ▸ hbefore t (hl ▸ ht))⟩
    · exact ⟨t, by rw [hputs.view, if_neg hl, ht], .inl rfl⟩
  refine ⟨hputs.plain, hputs.here.trans h.here, h.keeps.trans hk, fun l hl => ?_, ?_, ?_⟩
  · have hl' : l ≠ out.location s₀.here ++ q.parts := hl q (by simp)
    have hview : s'.root.view l = s.root.view l := by rw [hputs.view, if_neg hl']
    rcases h.frame l fun p hp => hl p (List.mem_append_left _ hp) with e | ha
    · exact .inl (hview.trans e)
    · exact .inr ⟨ha.before, hview.trans ha.after, ha.fits⟩
  · intro p hp
    rcases List.mem_append.1 hp with hp | hp
    · exact h.named p hp
    · exact List.mem_singleton.1 hp ▸ hq
  · intro p hp
    rcases List.mem_append.1 hp with hp | hp
    · exact (h.output p hp).step (h.named p hp) h.plain h.here hk hputs.here
        (by rw [hputs.view, if_neg (hother p hp)]) (hsource _)
    · obtain rfl := List.mem_singleton.1 hp
      have ht := h.plain.readText_ok hread
      rw [h.here, hdocs] at ht
      obtain ⟨t', ht', hold⟩ := hsource _ t ht
      refine ⟨⟨t, ?_, hnow⟩, ⟨t', ?_⟩, hparent.keeps hk hputs.here, fun c hc => ?_⟩
      · rcases hold with rfl | ht₀
        · exact .inr ht'
        · exact .inl ht₀
      · exact h.plain.readText_keeps hk hputs.here hread (by rw [h.here, hdocs, ht'])
      · exact h.plain.writeFile_again hwrite hk hputs.here (by rw [h.here, hloc, hc])

/-- The loop of a build does all its documents, or the first part of them up to one that
fails. -/
theorem forM_buildDocument {rest : List Path} (h : Built app out s₀ done s)
    (hnodup : (done ++ rest).Nodup) (hnamed : ∀ p ∈ rest, p.Named) :
    (∃ s', s.run (rest.forM (buildDocument app out)) = (.ok (), s') ∧
      Built app out s₀ (done ++ rest) s') ∨
    ∃ f s', s.run (rest.forM (buildDocument app out)) = (.error f, s') ∧
      ∃ done' p later s₁, done ++ rest = done' ++ p :: later ∧ Built app out s₀ done' s₁ ∧
        Fails app out p s₁ f s' := by
  induction rest generalizing done s with
  | nil => exact .inl ⟨s, rfl, by simpa using h⟩
  | cons p rest ih =>
      have hp := hnamed p List.mem_cons_self
      have happ : done ++ p :: rest = done ++ [p] ++ rest := by simp
      rw [List.forM]
      rcases buildDocument_cases app out p h.plain with
        ⟨f, s', hrun, hfails⟩ | ⟨t, s₁, s', hrun, hread, hgrows, hparent, hwrite⟩
      · exact .inr ⟨f, s', Session.run_bind_error hrun _, done, p, rest, s, rfl, h, hfails⟩
      · have hnew : p ∉ done := fun hmem =>
          (List.nodup_append.1 hnodup).2.2 p hmem p List.mem_cons_self rfl
        have hread₁ : s₁.readText (app.config.docsDir.join p) = .ok t :=
          h.plain.readText_keeps hgrows.keeps hgrows.here hread
            (hgrows.view_eq (h.plain.readText_ok hread))
        rw [Session.run_bind_ok hrun, happ]
        exact ih ((h.grow hgrows).write hp hnew hread₁ hparent hwrite) (happ ▸ hnodup)
          fun q hq => hnamed q (List.mem_cons_of_mem _ hq)

theorem buildAll_of_forM {sources : List Path}
    (hsources : s.run (sourcesFor app out) = (.ok sources, s))
    (hloop : s.run (sources.forM (buildDocument app out)) = (.ok (), s')) :
    s.run (buildAll app out) = (.ok (), s'.print (builtLine sources.length out)) := by
  rw [buildAll, Session.run_bind_ok hsources, Session.run_bind_ok hloop, Session.run_print]

/-- A build of selected sources either does all of them and then says so, or fails at one of
them and has printed nothing. -/
theorem buildAll_cases {sources : List Path} (hs : s.Plain)
    (hsources : s.run (sourcesFor app out) = (.ok sources, s))
    (hnamed : ∀ p ∈ sources, p.Named) (hnodup : sources.Nodup) :
    (∃ s', s.run (buildAll app out) = (.ok (), s') ∧ Built app out s sources s' ∧
      s'.printed = s.printed ++ builtLine sources.length out) ∨
    ∃ f s', s.run (buildAll app out) = (.error f, s') ∧ s'.printed = s.printed ∧
      ∃ done p later s₁, sources = done ++ p :: later ∧ Built app out s done s₁ ∧
        Fails app out p s₁ f s' := by
  have hsilent := Session.preserves_forM (silent_buildDocument app out) sources s
  rcases forM_buildDocument (built_nil app out hs) hnodup hnamed with
    ⟨s', hrun, hbuilt⟩ | ⟨f, s', hrun, hstopped⟩ <;> rw [hrun] at hsilent
  · refine .inl ⟨_, buildAll_of_forM hsources hrun,
      hbuilt.grow (grows_of_root_eq hbuilt.plain rfl rfl), ?_⟩
    exact congrArg (· ++ builtLine sources.length out) hsilent
  · refine .inr ⟨f, s', ?_, hsilent, hstopped⟩
    rw [buildAll, Session.run_bind_ok hsources, Session.run_bind_error hrun]

theorem buildAll_run {sources : List Path} (hs : s.Plain)
    (hsources : s.run (sourcesFor app out) = (.ok sources, s))
    (hnamed : ∀ p ∈ sources, p.Named) (hnodup : sources.Nodup) :
    ∃ r s' done, s.run (buildAll app out) = (r, s') ∧ Built app out s done s' ∧
      done <+: sources ∧
      (r = .ok () → done = sources ∧
        s'.printed = s.printed ++ builtLine sources.length out) := by
  rcases buildAll_cases hs hsources hnamed hnodup with
    ⟨s', hrun, hbuilt, hprinted⟩ | ⟨f, s', hrun, -, done, p, later, s₁, rfl, hbuilt, hfails⟩
  · exact ⟨_, s', sources, hrun, hbuilt, List.prefix_rfl, fun _ => ⟨rfl, hprinted⟩⟩
  · refine ⟨_, s', done, hrun, hbuilt.grow (hfails.grows hbuilt.plain),
      List.prefix_append _ _, ?_⟩
    intro hok
    cases hok

end

end DocStamp.Command
