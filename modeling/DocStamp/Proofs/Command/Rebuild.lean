/-
# Building into a directory among the documents

If the output goes to a directory among the documents, no output lands
on a source, and the search leaves the outputs out.  So a build that
succeeds has stamped every source, and a second build finds the same
sources and changes nothing (`buildAll_inside_repeats`).

One thing can come in between.  A build may add directories on the way
to the output directory that no pattern excludes.  The second search
looks into them, by paths that are spelt from the documents; such a path
may be longer than paths may be, even if the output itself was reached
by a shorter one.  Then, and only then, the second search fails.
-/
import DocStamp.Proofs.Command.Build

namespace DocStamp.Command

open Files (Fault Location Node Session)
open DocStamp.Path (AreNames ofNames slashes)
open Files.Session (Added Fits)

/-! ## Outputs among the documents -/

section

variable {s s' : Session} {settings : Settings} {docsDir out : Path} {rest : Location}
  {entries : List (String × Node)} {sources : List Path}

/-- No output lands on anything outside the output directory. -/
theorem Selected.beside (h : Selected s settings docsDir out (some rest) entries sources)
    {names : Location} (hbeside : ¬ rest <+: names) (q : Path) :
    docsDir.location s.here ++ names ≠ out.location s.here ++ q.parts := by
  cases h.placed with
  | inside _ _ hout =>
      rw [hout, List.append_assoc]
      intro heq
      exact hbeside ⟨q.parts, (List.append_cancel_left heq).symm⟩

/-- Whatever the search looks at is as it was, or a directory that was added. -/
theorem Selected.kept (h : Selected s settings docsDir out (some rest) entries sources)
    {app : Application} (hbuilt : Built app out s sources s') {names : Location}
    (hkept : Kept settings (some rest) names) :
    s'.root.view (docsDir.location s.here ++ names) =
      s.root.view (docsDir.location s.here ++ names) ∨
    Added s s' (docsDir.location s.here ++ names) :=
  hbuilt.frame _ fun q _ => h.beside (hkept.beside rest rfl) q

theorem Selected.source_kept (h : Selected s settings docsDir out (some rest) entries sources)
    (hs : s.Plain) {app : Application} {done : List Path} (hbuilt : Built app out s done s')
    {p : Path} (hp : p ∈ sources) :
    s'.root.view (docsDir.location s.here ++ p.parts) =
      s.root.view (docsDir.location s.here ++ p.parts) := by
  obtain ⟨-, ⟨c, hc⟩, hbeside⟩ := h.source hs hp
  rcases hbuilt.frame _ fun q _ => h.beside (hbeside rest rfl) q with e | ha
  · exact e
  · cases ha.before.symm.trans hc

/-- Every output that was written is the stamp of a source as it was before and is still. -/
theorem Selected.stamped_of_done (h : Selected s settings docsDir out (some rest) entries sources)
    (hs : s.Plain) {app : Application} (hdocs : app.config.docsDir = docsDir) {done : List Path}
    (hbuilt : Built app out s done s') {p : Path} (hp : p ∈ sources) (hdone : p ∈ done) :
    ∃ t, s.root.view (docsDir.location s.here ++ p.parts) = some (.file (.text t)) ∧
      s'.root.view (out.location s.here ++ p.parts) =
        some (.file (.text (app.emit (p.documentName app.config.settings.sourceSuffix) t))) := by
  obtain ⟨t, ht, hw⟩ := (hbuilt.output p hdone).written
  rw [hdocs, h.source_kept hs hbuilt hp, or_self] at ht
  exact ⟨t, ht, hw⟩

theorem Selected.stamped (h : Selected s settings docsDir out (some rest) entries sources)
    (hs : s.Plain) {app : Application} (hdocs : app.config.docsDir = docsDir)
    (hbuilt : Built app out s sources s') {p : Path} (hp : p ∈ sources) :
    ∃ t, s.root.view (docsDir.location s.here ++ p.parts) = some (.file (.text t)) ∧
      s'.root.view (out.location s.here ++ p.parts) =
        some (.file (.text (app.emit (p.documentName app.config.settings.sourceSuffix) t))) :=
  h.stamped_of_done hs hdocs hbuilt hp hp

/-! ## The second search -/

theorem Selected.docs_again (h : Selected s settings docsDir out (some rest) entries sources)
    {app : Application} (hbuilt : Built app out s sources s') :
    ∃ entries', s'.node docsDir = .ok (.dir entries') ∧ (Node.dir entries').Proper ∧
      ∀ names, (Node.dir entries').view names =
        s'.root.view (docsDir.location s.here ++ names) := by
  obtain ⟨l, entries', -, -, hnode⟩ := Session.node_dir_keeps hbuilt.keeps hbuilt.here h.docs
  have hat := hbuilt.plain.node_ok hnode
  rw [hbuilt.here] at hat
  exact ⟨entries', hnode, (hbuilt.plain.proper.at? hat).2,
    fun names => (Node.view_append hat names).symm⟩

theorem Selected.view_docs (h : Selected s settings docsDir out (some rest) entries sources)
    (hs : s.Plain) (names : Location) :
    (Node.dir entries).view names = s.root.view (docsDir.location s.here ++ names) :=
  (Node.view_append (hs.node_ok h.docs) names).symm

theorem fits_of_listDirectory (hdocs : s.node docsDir = .ok (.dir entries)) {names : Location}
    (hn : AreNames names) (hview : (Node.dir entries).view names = some .dir)
    {listed : List (String × Bool)}
    (h : s.listDirectory (docsDir.join (ofNames names)) = .ok listed) : ∀ n ∈ names, Fits n := by
  obtain ⟨es, hes⟩ := Node.view_eq_dir hview
  obtain ⟨hrefusal, hsizes, -⟩ := (Session.listDirectory_below_ok_iff hdocs hn hes).1 h
  refine fun n hmem => ⟨hsizes n hmem, fun hnul => ?_⟩
  have hpart : n ∈ (docsDir.join (ofNames names)).parts := by
    rw [Path.parts_join docsDir (Path.isAbsolute_ofNames hn), Path.parts_ofNames hn]
    exact List.mem_append_right _ hmem
  exact (Session.refusal?_eq_none_iff.1 hrefusal).1 (Path.mem_parts_iff.1 ⟨n, hpart, hnul⟩).1

section

variable {app : Application} {entries' : List (String × Node)}
  (h : Selected s settings docsDir out (some rest) entries sources) (hs : s.Plain)
  (hbuilt : Built app out s sources s')
  (htree : (Node.dir entries').Proper)
  (hview : ∀ names, (Node.dir entries').view names =
    s'.root.view (docsDir.location s.here ++ names))

include h hs hbuilt hview

/-- The sources are the same: whatever was added among them is a directory. -/
theorem Selected.isSource_again_iff (names : Location) :
    IsSource settings (some rest) (.dir entries') names ↔
      IsSource settings (some rest) (.dir entries) names := by
  have hthere : Kept settings (some rest) names →
      ((∃ i, (Node.dir entries').view names = some i ∧ i ≠ .dir) ↔
        ∃ i, (Node.dir entries).view names = some i ∧ i ≠ .dir) := by
    intro hkept
    rw [hview, h.view_docs hs]
    rcases h.kept hbuilt hkept with e | ha
    · rw [e]
    · simp [ha.before, ha.after]
  exact ⟨fun hsrc => ⟨(hthere hsrc.kept).1 hsrc.there, hsrc.suffix, hsrc.kept⟩,
    fun hsrc => ⟨(hthere hsrc.kept).2 hsrc.there, hsrc.suffix, hsrc.kept⟩⟩

/-- A directory that the second search looks into was read by the first, or added. -/
theorem Selected.scanned_cases {dir : Location}
    (hscan : Scanned settings (some rest) (.dir entries') dir) :
    (Scanned settings (some rest) (.dir entries) dir ∧
      ∃ listed, s.listDirectory (docsDir.join (ofNames dir)) = .ok listed) ∨
    Added s s' (docsDir.location s.here ++ dir) := by
  rcases h.kept hbuilt hscan.kept with e | ha
  · have hscan' : Scanned settings (some rest) (.dir entries) dir :=
      ⟨by rw [h.view_docs hs, ← e, ← hview, hscan.there], hscan.kept⟩
    exact .inl ⟨hscan', h.searched.2.1 dir List.nil_prefix hscan'⟩
  · exact .inr ha

include htree

/-- So all its names fit, by induction from the documents down. -/
theorem Selected.fits_again {dir : Location}
    (hscan : Scanned settings (some rest) (.dir entries') dir) : ∀ n ∈ dir, Fits n := by
  induction hk : dir.length generalizing dir with
  | zero =>
      rw [List.length_eq_zero_iff.1 hk]
      exact List.forall_mem_nil _
  | succ k ih =>
      have hn := htree.areNames hscan.there
      rcases h.scanned_cases hs hbuilt hview hscan with ⟨hscan', listed, hlisted⟩ | ha
      · exact fits_of_listDirectory h.docs hn hscan'.there hlisted
      · rcases List.eq_nil_or_concat dir with rfl | ⟨init, name, rfl⟩
        · cases hk
        · rw [List.concat_eq_append] at *
          have hinit : Scanned settings (some rest) (.dir entries') init :=
            ⟨Node.view_dir_of_append (by simp) hscan.there,
              hscan.kept.of_prefix hn (List.prefix_append _ _)⟩
          intro n hmem
          rcases List.mem_append.1 hmem with hmem | hmem
          · exact ih hinit (by simpa using hk) n hmem
          · exact ha.fits n (by simp [List.mem_singleton.1 hmem])

/-- The second search can read what it looks into, unless the path of a directory that was
added is too long. -/
theorem Selected.listed_again (hdocs : s'.node docsDir = .ok (.dir entries')) {dir : Location}
    (hscan : Scanned settings (some rest) (.dir entries') dir) :
    (∃ listed, s'.listDirectory (docsDir.join (ofNames dir)) = .ok listed) ∨
    (Added s s' (docsDir.location s.here ++ dir) ∧
      Files.pathLimit ≤ (docsDir.join (ofNames dir)).text.utf8ByteSize ∧
      s'.listDirectory (docsDir.join (ofNames dir)) = .error .nameTooLong) := by
  have hn := htree.areNames hscan.there
  rcases h.scanned_cases hs hbuilt hview hscan with ⟨-, listed, hlisted⟩ | ha
  · obtain ⟨es, hnode, -⟩ := Session.listDirectory_ok_iff.1 hlisted
    obtain ⟨_, es', -, -, hnode'⟩ := Session.node_dir_keeps hbuilt.keeps hbuilt.here hnode
    exact .inl ⟨_, Session.listDirectory_ok_iff.2 ⟨es', hnode', rfl⟩⟩
  · have hfits := h.fits_again hs hbuilt htree hview hscan
    obtain ⟨es, hes⟩ := Node.view_eq_dir hscan.there
    have habs := Path.isAbsolute_ofNames hn
    -- Only the length is left that the path could be refused for.
    have hrefusal : Session.refusal? docsDir = none := by
      obtain ⟨l, hl⟩ := Session.node_ok_iff.1 hdocs
      exact (Session.locate_ok_iff.1 hl).1
    obtain ⟨hnul, hne, -⟩ := Session.refusal?_eq_none_iff.1 hrefusal
    have hnul' : '\x00' ∉ (docsDir.join (ofNames dir)).text.toList := by
      intro hmem
      obtain ⟨part, hpart, hmem⟩ := Path.mem_parts_iff.2 ⟨hmem, by decide⟩
      rw [Path.parts_join docsDir habs, Path.parts_ofNames hn] at hpart
      rcases List.mem_append.1 hpart with hpart | hpart
      · exact hnul (Path.mem_parts_iff.1 ⟨part, hpart, hmem⟩).1
      · exact (hfits part hpart).2 hmem
    have hne' : (docsDir.join (ofNames dir)).text ≠ "" := by
      intro e
      have hsize := Path.utf8ByteSize_join docsDir habs
      rw [e, String.utf8ByteSize_empty] at hsize
      exact hne (String.utf8ByteSize_eq_zero_iff.1 (by omega))
    by_cases hsize : Files.pathLimit ≤ (docsDir.join (ofNames dir)).text.utf8ByteSize
    · refine .inr ⟨ha, hsize, ?_⟩
      rw [Session.listDirectory, Session.node_below hdocs hn hes,
        Session.refusal?_of_size hnul' hne' hsize]
      rfl
    · refine .inl ⟨_, (Session.listDirectory_below_ok_iff hdocs hn hes).2
        ⟨Session.refusal?_eq_none_iff.2 ⟨hnul', hne', Nat.not_le.1 hsize⟩,
          fun n hmem => (hfits n hmem).1, rfl⟩⟩

end

/-- The second search gives the same sources, unless it meets a directory that was added and
whose path is too long. -/
theorem Selected.findSources_again
    (h : Selected s settings docsDir out (some rest) entries sources) (hs : s.Plain)
    {app : Application} (hbuilt : Built app out s sources s') :
    (∃ dir, AreNames dir ∧ Kept settings (some rest) dir ∧
      Added s s' (docsDir.location s.here ++ dir) ∧
      Files.pathLimit ≤ (docsDir.join (ofNames dir)).text.utf8ByteSize ∧
      s'.run (findSources settings docsDir (some (ofNames rest))) = (.error .nameTooLong, s')) ∨
    s'.run (findSources settings docsDir (some (ofNames rest))) = (.ok sources, s') := by
  obtain ⟨entries', hdocs, htree, hview⟩ := h.docs_again hbuilt
  obtain ⟨r, hrun, hr, hsorted⟩ := findSources_run settings htree hdocs h.placed.skipped
  rw [Option.map_some] at hrun
  cases r with
  | error fault =>
      obtain ⟨dir, -, hscan, hfault⟩ := hr
      rcases h.listed_again hs hbuilt htree hview hdocs hscan with ⟨_, hlisted⟩ | ⟨ha, hsize, hlong⟩
      · cases hfault.symm.trans hlisted
      · cases hfault.symm.trans hlong
        exact .inl ⟨dir, htree.areNames hscan.there, hscan.kept, ha, hsize, hrun⟩
  | ok sources' =>
      have hsame : ∀ p, p ∈ sources' ↔ p ∈ sources := by
        intro p
        simp only [hr.2.2 p, h.searched.2.2 p, h.isSource_again_iff hs hbuilt hview]
      exact .inr (by rw [hrun, Path.eq_of_precedes (hsorted _ rfl) h.sorted hsame])

/-- And it does fail if there is such a directory. -/
theorem Selected.findSources_fails_again
    (h : Selected s settings docsDir out (some rest) entries sources) (hs : s.Plain)
    {app : Application} (hbuilt : Built app out s sources s') {dir : Location}
    (hdir : AreNames dir) (hkept : Kept settings (some rest) dir)
    (hthere : s'.root.view (docsDir.location s.here ++ dir) = some .dir)
    (hsize : Files.pathLimit ≤ (docsDir.join (ofNames dir)).text.utf8ByteSize) :
    s'.run (findSources settings docsDir (some (ofNames rest))) = (.error .nameTooLong, s') := by
  rcases h.findSources_again hs hbuilt with ⟨_, -, -, -, -, hlong⟩ | hsame
  · exact hlong
  -- A search that succeeds has read the directory, by a path that is refused.
  obtain ⟨entries', hdocs, htree, hview⟩ := h.docs_again hbuilt
  obtain ⟨r, hrun, hr, -⟩ := findSources_run settings htree hdocs h.placed.skipped
  obtain rfl : r = .ok sources := (congrArg Prod.fst hrun).symm.trans (congrArg Prod.fst hsame)
  have hscan : Scanned settings (some rest) (.dir entries') dir := ⟨(hview dir).trans hthere, hkept⟩
  obtain ⟨listed, hlisted⟩ := hr.2.1 dir List.nil_prefix hscan
  obtain ⟨es, hes⟩ := Node.view_eq_dir hscan.there
  have hrefusal := ((Session.listDirectory_below_ok_iff hdocs hdir hes).1 hlisted).1
  exact absurd hsize (Nat.not_le.2 (Session.refusal?_eq_none_iff.1 hrefusal).2.2)

/-! ## The second build -/

/-- An output that is what the hooks make of its source. -/
def UpToDate (app : Application) (out : Path) (root : Node) (here : Location) (p : Path) : Prop :=
  ∃ t, root.view (app.config.docsDir.location here ++ p.parts) = some (.file (.text t)) ∧
    root.view (out.location here ++ p.parts) =
      some (.file (.text (app.emit (p.documentName app.config.settings.sourceSuffix) t)))

section

variable {app : Application} {s₀ : Session} {done : List Path}

theorem buildDocument_again (hbuilt : Built app out s₀ done s) {p : Path} (hp : p ∈ done)
    (hcurrent : UpToDate app out s.root s₀.here p) :
    ∃ s', s.run (buildDocument app out p) = (.ok (), s') ∧ s'.root = s.root ∧ s.Grows s' := by
  obtain ⟨t, hsource, hout⟩ := hcurrent
  have hread : s.readText (app.config.docsDir.join p) = .ok t := by
    obtain ⟨t', ht'⟩ := (hbuilt.output p hp).readable
    have hview := hbuilt.plain.readText_ok ht'
    rw [hbuilt.here, (hbuilt.named p hp).location_join, hsource] at hview
    cases hview
    exact ht'
  -- Announcing the document changes no tree, so its output is still there.
  have hnoted : s.Grows { s with
      documents := s.documents ++ [p.documentName app.config.settings.sourceSuffix] } :=
    grows_of_root_eq hbuilt.plain rfl rfl
  have hnow := hbuilt.grow hnoted
  have houtput := hnow.output p hp
  refine ⟨{ s with documents := s.documents ++
    [p.documentName app.config.settings.sourceSuffix] }, ?_, rfl, hnoted⟩
  rw [buildDocument_of_read app out p hread, writeDocument, Session.run_bind,
    houtput.parent.ensureParent_again]
  simp only [Session.run_bind, Session.run_writeText, houtput.settled _ hout, Session.run_pure]

theorem forM_buildDocument_again (hbuilt : Built app out s₀ done s) {again : List Path}
    (hsub : ∀ p ∈ again, p ∈ done)
    (hcurrent : ∀ p ∈ again, UpToDate app out s.root s₀.here p) :
    ∃ s', s.run (again.forM (buildDocument app out)) = (.ok (), s') ∧ s'.root = s.root ∧
      s.Grows s' := by
  induction again generalizing s with
  | nil => exact ⟨s, rfl, rfl, hbuilt.plain.grows_refl⟩
  | cons p again ih =>
      obtain ⟨s₁, hrun, hroot, hgrows⟩ := buildDocument_again hbuilt
        (hsub p List.mem_cons_self) (hcurrent p List.mem_cons_self)
      obtain ⟨s', hrun', hroot', hgrows'⟩ := ih (hbuilt.grow hgrows)
        (fun q hq => hsub q (List.mem_cons_of_mem _ hq))
        fun q hq => hroot ▸ hcurrent q (List.mem_cons_of_mem _ hq)
      rw [List.forM, Session.run_bind_ok hrun]
      exact ⟨s', hrun', hroot'.trans hroot, hgrows.trans hgrows'⟩

end

end

theorem placed_of_inside {s : Session} (hs : s.Plain) {docsDir out relative : Path}
    (h : Placement.of s.currentDir docsDir out = .inside relative) :
    ∃ rest, Placed (docsDir.location s.here) (out.location s.here) (some rest) ∧
      relative = ofNames rest := by
  rcases Placement.of_eq hs.areNames_here docsDir out with
    ⟨-, hof⟩ | ⟨rest, hne, hrest, hout, hof⟩ | ⟨-, hof⟩ <;> rw [← Session.currentDir_eq] at hof
  · cases hof.symm.trans h
  · cases hof.symm.trans h
    exact ⟨rest, .inside hne hrest hout, rfl⟩
  · cases hof.symm.trans h

theorem Placed.inside_eq {s : Session} (hs : s.Plain) {docsDir out : Path} {rest : Location}
    (h : Placed (docsDir.location s.here) (out.location s.here) (some rest)) :
    Placement.of s.currentDir docsDir out = .inside (ofNames rest) := by
  cases h with
  | inside hne _ hout =>
      rcases Placement.of_eq hs.areNames_here docsDir out with
        ⟨e, -⟩ | ⟨rest', -, -, e, hof⟩ | ⟨hnot, -⟩
      · exact absurd (hout.symm.trans e.symm) (by simpa using hne)
      · obtain rfl := List.append_cancel_left (e.symm.trans hout)
        exact hof
      · exact absurd ⟨rest, hout.symm⟩ hnot

theorem sourcesFor_of_buildAll {s s' : Session} {app : Application} {out : Path}
    (h : s.run (buildAll app out) = (.ok (), s')) :
    ∃ sources, (s.run (sourcesFor app out)).1 = .ok sources := by
  cases hsources : s.run (sourcesFor app out) with
  | mk r s₁ =>
      cases r with
      | ok sources => exact ⟨sources, rfl⟩
      | error f => cases (Session.run_bind_error hsources _).symm.trans h

theorem sourcesFor_inside {s : Session} {app : Application} {out relative : Path}
    {sources : List Path}
    (hplace : Placement.of s.currentDir app.config.docsDir out = .inside relative)
    (hfind : s.run (findSources app.config.settings app.config.docsDir (some relative)) =
      (.ok sources, s)) : s.run (sourcesFor app out) = (.ok sources, s) := by
  rw [sourcesFor_eq hplace (by simp), Session.run_adapt, Placement.skipped?, hfind]
  rfl

theorem findSources_inside {s : Session} {app : Application} {out relative : Path}
    {sources : List Path}
    (hplace : Placement.of s.currentDir app.config.docsDir out = .inside relative)
    (h : (s.run (sourcesFor app out)).1 = .ok sources) :
    (s.run (findSources app.config.settings app.config.docsDir (some relative))).1 =
      .ok sources := by
  rw [sourcesFor_eq hplace (by simp), Session.run_adapt, Placement.skipped?] at h
  exact Session.mapError_eq_ok h

theorem selected_of_inside {s : Session} (hs : s.Plain) {app : Application} {out : Path}
    {rest : Location} {sources : List Path}
    (hplaced : Placed (app.config.docsDir.location s.here) (out.location s.here) (some rest))
    (hplace : Placement.of s.currentDir app.config.docsDir out = .inside (ofNames rest))
    (h : (s.run (sourcesFor app out)).1 = .ok sources) :
    s.run (findSources app.config.settings app.config.docsDir (some (ofNames rest))) =
        (.ok sources, s) ∧
      ∃ entries, Selected s app.config.settings app.config.docsDir out (some rest) entries
        sources :=
  selected_of_findSources hs hplaced (findSources_inside hplace h)

/-- A directory that a build has added, and that the next search comes to by a path that is too
long. -/
structure OutOfReach (app : Application) (relative : Path) (s s' : Session) (dir : Location) :
    Prop where
  names : AreNames dir
  included : app.config.settings.isExcluded (ofNames dir) = false
  outside : relative ∉ (ofNames dir).ancestors
  before : s.root.view ((app.config.docsDir.join (ofNames dir)).location s.here) = none
  after : s'.root.view ((app.config.docsDir.join (ofNames dir)).location s.here) = some .dir
  long : Files.pathLimit ≤ (app.config.docsDir.join (ofNames dir)).text.utf8ByteSize

theorem Selected.findSources_again_cases {s s' : Session} (hs : s.Plain) {app : Application}
    {out : Path} {rest : Location} {entries : List (String × Node)} {sources : List Path}
    (h : Selected s app.config.settings app.config.docsDir out (some rest) entries sources)
    (hbuilt : Built app out s sources s') :
    ((∃ dir, OutOfReach app (ofNames rest) s s' dir) →
      s'.run (findSources app.config.settings app.config.docsDir (some (ofNames rest))) =
        (.error .nameTooLong, s')) ∧
    ((∀ dir, ¬ OutOfReach app (ofNames rest) s s' dir) →
      s'.run (findSources app.config.settings app.config.docsDir (some (ofNames rest))) =
        (.ok sources, s')) := by
  have hrest := (h.placed.skipped rest rfl).2
  constructor
  · rintro ⟨dir, hlost⟩
    refine h.findSources_fails_again hs hbuilt hlost.names ⟨hlost.included, ?_⟩ ?_ hlost.long
    · rintro r ⟨⟩ hpre
      exact hlost.outside ((Path.ofNames_mem_ancestors_iff hrest hlost.names).2 hpre)
    · rw [← Path.location_join _ _ hlost.names, hlost.after]
  · intro hnone
    rcases h.findSources_again hs hbuilt with ⟨dir, hdir, hkept, ha, hsize, -⟩ | hsame
    · refine absurd ⟨hdir, hkept.included, fun hmem => ?_, ?_, ?_, hsize⟩ (hnone dir)
      · exact hkept.beside rest rfl ((Path.ofNames_mem_ancestors_iff hrest hdir).1 hmem)
      · rw [Path.location_join _ _ hdir, ha.before]
      · rw [Path.location_join _ _ hdir, ha.after]
    · exact hsame

/-- A build into a directory among the documents that succeeds has put the stamp of every
source into its place and added directories, nothing else, and has said so.  Building again
finds the same sources, changes no file and says the same, unless a directory that was added
has a path that is too long; then the search fails. -/
theorem buildAll_inside_repeats {s₀ s s' : Session} {env : Environment} {docsDir : Path}
    {app : Application} (happ : (s₀.run (configure env docsDir)).1 = .ok app) (hs : s.Plain)
    {out relative : Path}
    (hplace : Placement.of s.currentDir app.config.docsDir out = .inside relative)
    (hrun : s.run (buildAll app out) = (.ok (), s')) :
    ∃ sources,
      s.run (findSources app.config.settings app.config.docsDir (some relative)) =
        (.ok sources, s) ∧
      (∀ p ∈ sources, ∃ t,
        s.root.view ((app.config.docsDir.join p).location s.here) = some (.file (.text t)) ∧
        s'.root.view ((out.join p).location s.here) =
          some (.file (.text (app.config.versions.stamp t)))) ∧
      (∀ l, (∀ p ∈ sources, l ≠ (out.join p).location s.here) →
        s'.root.view l = s.root.view l ∨
        (s.root.view l = none ∧ s'.root.view l = some .dir)) ∧
      s'.printed = s.printed ++ builtLine sources.length out ∧
      ((∃ dir, OutOfReach app relative s s' dir) →
        s'.run (findSources app.config.settings app.config.docsDir (some relative)) =
          (.error .nameTooLong, s')) ∧
      ((∀ dir, ¬ OutOfReach app relative s s' dir) →
        s'.run (findSources app.config.settings app.config.docsDir (some relative)) =
            (.ok sources, s') ∧
          ∃ s'', s'.run (buildAll app out) = (.ok (), s'') ∧
            s''.root = s'.root ∧ s''.here = s'.here ∧
            s''.printed = s'.printed ++ builtLine sources.length out) := by
  obtain ⟨rest, hplaced, rfl⟩ := placed_of_inside hs hplace
  obtain ⟨sources, hsources⟩ := sourcesFor_of_buildAll hrun
  obtain ⟨hfind, entries, h⟩ := selected_of_inside hs hplaced hplace hsources
  have hnamed : ∀ p ∈ sources, p.Named := fun p hp => (h.source hs hp).1
  obtain ⟨r, s₁, done, hrun', hbuilt, -, hall⟩ :=
    buildAll_run hs (sourcesFor_inside hplace hfind) hnamed (Path.nodup_of_precedes h.sorted)
  obtain ⟨rfl, rfl⟩ := Prod.mk.inj (hrun'.symm.trans hrun)
  obtain ⟨rfl, hprinted⟩ := hall rfl
  obtain ⟨hfails, hagain⟩ := h.findSources_again_cases hs hbuilt
  refine ⟨done, hfind, fun p hp => ?_, fun l hl => ?_, hprinted, hfails, fun hnone => ?_⟩
  · obtain ⟨t, ht, hw⟩ := h.stamped hs rfl hbuilt hp
    rw [(hnamed p hp).location_join, (hnamed p hp).location_join]
    exact ⟨t, ht, emit_of_configure happ _ t ▸ hw⟩
  · rcases hbuilt.frame l fun p hp => (hnamed p hp).location_join s.here out ▸ hl p hp with e | ha
    · exact .inl e
    · exact .inr ⟨ha.before, ha.after⟩
  · have hcurrent : ∀ p ∈ done, UpToDate app out s₁.root s.here p := by
      intro p hp
      obtain ⟨t, ht, hw⟩ := h.stamped hs rfl hbuilt hp
      exact ⟨t, (h.source_kept hs hbuilt hp).trans ht, hw⟩
    have hplace' : Placement.of s₁.currentDir app.config.docsDir out =
        .inside (ofNames rest) := by
      rw [Session.currentDir_eq, hbuilt.here, ← Session.currentDir_eq, hplace]
    obtain ⟨s₂, hloop, hroot, hgrows⟩ :=
      forM_buildDocument_again hbuilt (fun _ hp => hp) hcurrent
    have hsilent := Session.preserves_forM (silent_buildDocument app out) done s₁
    rw [hloop] at hsilent
    refine ⟨hagain hnone, _, buildAll_of_forM (sourcesFor_inside hplace' (hagain hnone)) hloop,
      hroot, hgrows.here, ?_⟩
    exact congrArg (· ++ builtLine done.length out) hsilent

/-- One document, and a manifest beside the documents. -/
def smallSession : Session where
  root := .dir [
    ("pom.xml", .file (.text sampleManifest)),
    ("docs", .dir [("a.rst", .file (.text Placeholder.server))])]
  here := []

theorem smallSession_plain : smallSession.Plain := by
  refine ⟨?_, ?_, rfl⟩
  · simp +decide [smallSession, Node.proper_dir_iff]
  · exact Node.linkFree_dir (by simp [Node.linkFree_dir, Node.linkFree_file])

/-- The document is stamped, and a second build changes nothing. -/
theorem buildAll_inside_repeats_small :
    ∃ s' s'',
      smallSession.run (buildAll (sampleApp ⟨"docs"⟩) ⟨"docs/_build/source"⟩) = (.ok (), s') ∧
      s'.root.view ["docs", "_build", "source", "a.rst"] = some (.file (.text "2")) ∧
      s'.run (buildAll (sampleApp ⟨"docs"⟩) ⟨"docs/_build/source"⟩) = (.ok (), s'') ∧
      s''.root = s'.root := by
  have happ : (smallSession.run (configure ⟨⟨""⟩, none⟩ ⟨"docs"⟩)).1 = .ok (sampleApp ⟨"docs"⟩) :=
    configure_sample rfl (by decide) rfl
  have hplace : Placement.of smallSession.currentDir (sampleApp ⟨"docs"⟩).config.docsDir
      ⟨"docs/_build/source"⟩ = .inside ⟨"_build/source"⟩ := by
    decide +kernel
  have hsources : (smallSession.run
      (sourcesFor (sampleApp ⟨"docs"⟩) ⟨"docs/_build/source"⟩)).1 = .ok [⟨"a.rst"⟩] :=
    sourcesFor_of_sorted hplace (by simp) (Session.eq_ok_of_toOption (by decide +kernel)) (by simp)
  obtain ⟨s', hloop, hstamped, hok⟩ : ∃ s', smallSession.run (List.forM [⟨"a.rst"⟩]
      (buildDocument (sampleApp ⟨"docs"⟩) ⟨"docs/_build/source"⟩)) = (.ok (), s') ∧
      s'.root.view ["docs", "_build", "source", "a.rst"] = some (.file (.text "2")) ∧
      ((s'.print (builtLine 1 ⟨"docs/_build/source"⟩)).run (findSources
        (sampleApp ⟨"docs"⟩).config.settings (sampleApp ⟨"docs"⟩).config.docsDir
        (some ⟨"_build/source"⟩))).1.isOk = true :=
    ⟨_, Session.run_eq_of_toOption (by decide +kernel), by decide +kernel, by decide +kernel⟩
  have hrun := buildAll_of_forM (sourcesFor_ok smallSession_plain hsources).1 hloop
  obtain ⟨sources, -, -, -, -, hfails, hagain⟩ :=
    buildAll_inside_repeats happ smallSession_plain hplace hrun
  obtain ⟨-, s'', hrun', hroot, -⟩ := hagain fun dir hlost => by
    have hfind := hfails ⟨dir, hlost⟩
    rw [List.length_singleton] at hfind
    rw [hfind] at hok
    cases hok
  exact ⟨_, s'', hrun, hstamped, hrun', hroot⟩

/-! ## A second search that fails

The documents are given by a path with so many slashes at its end that a
source below them can just be read, but a directory of one more letter
cannot.
-/

/-- The small documents, by a path with many slashes at its end. -/
def longDocs (n : Nat) : Path := ⟨"docs" ++ "/" ++ slashes n⟩

section

variable (n : Nat)

theorem longDocs_parts : (longDocs n).parts = ["docs"] :=
  (Path.parts_slashes ⟨"docs"⟩ n).trans (by decide)

theorem longDocs_location : (longDocs n).location [] = ["docs"] := by
  rw [Path.location, longDocs_parts]
  simp only [Files.startOf, ite_self]
  decide

theorem longDocs_join_text {p : Path} (hp : p.isAbsolute = false) :
    ((longDocs n).join p).text = (longDocs n).text ++ p.text := by
  have hlast : (longDocs n).text.toList.getLast? = some '/' := by
    have htext : (longDocs n).text.toList = "docs".toList ++ List.replicate (n + 1) '/' := by
      simp [longDocs, slashes, List.replicate_succ]
    rw [htext, List.getLast?_append, List.getLast?_replicate]
    simp
  simp [Path.join, hp, hlast]

theorem startOf_longDocs_join {p : Path} (hp : p.isAbsolute = false) (here : Location) :
    Files.startOf ((longDocs n).join p).text here = here := by
  rw [longDocs_join_text n hp]
  simp [Files.startOf, longDocs]

theorem utf8ByteSize_longDocs_join {p : Path} (hp : p.isAbsolute = false) :
    ((longDocs n).join p).text.utf8ByteSize = n + 5 + p.text.utf8ByteSize := by
  have hdocs : ("docs" ++ "/").utf8ByteSize = 5 := rfl
  rw [longDocs_join_text n hp, longDocs, String.utf8ByteSize_append, String.utf8ByteSize_append,
    hdocs, Path.utf8ByteSize_slashes, Nat.add_comm 5]

/-- A path below these documents is refused for its length alone. -/
theorem refusal?_longDocs_join {p : Path} (hp : p.isAbsolute = false)
    (hnul : '\x00' ∉ p.text.toList) :
    Session.refusal? ((longDocs n).join p) =
      if n + 5 + p.text.utf8ByteSize < Files.pathLimit then none else some .nameTooLong := by
  have hsize := utf8ByteSize_longDocs_join n hp
  have hne : ((longDocs n).join p).text ≠ "" := by
    intro e
    rw [e, String.utf8ByteSize_empty] at hsize
    omega
  have hnul' : '\x00' ∉ ((longDocs n).join p).text.toList := by
    rw [longDocs_join_text n hp]
    simp [longDocs, slashes, hnul]
  rw [← hsize]
  split
  · rename_i hshort
    exact Session.refusal?_eq_none_iff.2 ⟨hnul', hne, hshort⟩
  · rename_i hlong
    exact Session.refusal?_of_size hnul' hne (Nat.not_lt.1 hlong)

theorem longDocs_resolve : Path.resolve (longDocs n) Settings.default.manifest = ⟨"pom.xml"⟩ := by
  have hp : Settings.default.manifest.isAbsolute = false := by decide
  have hpieces : Path.piecesOf ((longDocs n).join Settings.default.manifest).text =
      "docs" :: Path.piecesOf (slashes n ++ Settings.default.manifest.text) := by
    rw [longDocs_join_text n hp, longDocs, String.append_assoc, Path.piecesOf_append_slash]
    rfl
  have hsteps : ((longDocs n).join Settings.default.manifest).steps =
      [.name "docs", .up, .name "pom.xml"] := by
    rw [Path.steps_of_piece hpieces (by decide) (by decide), Path.parts_join _ hp, longDocs_parts]
    decide
  simp only [Path.resolve, hp, Bool.false_eq_true, if_false, Path.clean, Place.ofPath, hsteps]
  decide

/-- Settings would be found by a path that is too long, so there are none. -/
theorem configure_longDocs (hn : Files.pathLimit ≤ n + 13) :
    (smallSession.run (configure ⟨⟨""⟩, none⟩ (longDocs n))).1 = .ok (sampleApp (longDocs n)) := by
  have hp : (⟨Settings.fileName⟩ : Path).isAbsolute = false := by decide
  have hsize : (⟨Settings.fileName⟩ : Path).text.utf8ByteSize = 8 := rfl
  have hrefusal := refusal?_longDocs_join n hp (by decide)
  rw [hsize, if_neg (by omega)] at hrefusal
  refine configure_sample ?_ (longDocs_resolve n) rfl
  rw [Session.pathExists, Session.node, Session.locate_eq, hrefusal]
  rfl

theorem longDocs_list (hn : n + 5 < Files.pathLimit) :
    smallSession.listDirectory ((longDocs n).join ⟨""⟩) = .ok [("a.rst", false)] := by
  have hp : (⟨""⟩ : Path).isAbsolute = false := by decide
  have hempty : (⟨""⟩ : Path).parts = [] := by decide
  have hdocs : smallSession.node ⟨"docs"⟩ =
      .ok (.dir [("a.rst", .file (.text Placeholder.server))]) := rfl
  refine Session.listDirectory_ok_iff.2
    ⟨_, Session.node_dir_of_parts hdocs ?_ (startOf_longDocs_join n hp []) ?_, rfl⟩
  · rw [Path.parts_join _ hp, longDocs_parts, hempty]
    decide
  · rw [refusal?_longDocs_join n hp (by decide), if_pos (by simpa using hn)]

theorem longDocs_read (hn : n + 10 < Files.pathLimit) :
    smallSession.readText ((longDocs n).join ⟨"a.rst"⟩) = .ok Placeholder.server := by
  have hp : (⟨"a.rst"⟩ : Path).isAbsolute = false := by decide
  have hsteps : Files.stepsOf ((longDocs n).join ⟨"a.rst"⟩).text = ["docs", "a.rst"] := by
    have hlast : ((longDocs n).join ⟨"a.rst"⟩).text.toList.getLast? = some 't' := by
      simp [longDocs_join_text n hp, List.getLast?_append]
    have hparts : ((longDocs n).join ⟨"a.rst"⟩).parts = ["docs", "a.rst"] := by
      rw [Path.parts_join _ hp, longDocs_parts]
      decide
    rw [Files.stepsOf_of_getLast? (by simp [hlast]), hparts]
  have hrefusal : Session.refusal? ((longDocs n).join ⟨"a.rst"⟩) = none := by
    have hsize : (⟨"a.rst"⟩ : Path).text.utf8ByteSize = 5 := rfl
    rw [refusal?_longDocs_join n hp (by decide), hsize, if_pos (by omega)]
  have hlocate : smallSession.locate .target ((longDocs n).join ⟨"a.rst"⟩) =
      smallSession.locate .target ⟨"docs/a.rst"⟩ := by
    rw [Session.locate_eq, hrefusal, startOf_longDocs_join n hp, hsteps]
    rfl
  have hread : smallSession.readText ⟨"docs/a.rst"⟩ = .ok Placeholder.server := rfl
  rw [← hread, Session.readText, Session.node, hlocate]
  rfl

end

section

variable {docsDir : Path} (hloc : docsDir.location [] = ["docs"])
  (hlist : smallSession.listDirectory (docsDir.join ⟨""⟩) = .ok [("a.rst", false)])

include hloc

theorem placed_small : Placed ((sampleApp docsDir).config.docsDir.location smallSession.here)
    (Path.location smallSession.here ⟨"docs/outdir/site"⟩) (some ["outdir", "site"]) := by
  have hdocs : (sampleApp docsDir).config.docsDir.location smallSession.here = ["docs"] := hloc
  have hout : Path.location smallSession.here ⟨"docs/outdir/site"⟩ =
      ["docs", "outdir", "site"] := by
    decide +kernel
  exact .inside (by simp) (by decide) (by rw [hout, hdocs]; rfl)

include hlist

theorem sourcesFor_small :
    (smallSession.run (sourcesFor (sampleApp docsDir) ⟨"docs/outdir/site"⟩)).1 =
      .ok [⟨"a.rst"⟩] := by
  have hlist' : smallSession.listDirectory ((sampleApp docsDir).config.docsDir.join ⟨""⟩) =
      .ok [("a.rst", false)] := hlist
  have hjoin : Path.join ⟨""⟩ ⟨"a.rst"⟩ = ⟨"a.rst"⟩ := by decide
  have hclass : classify (sampleApp docsDir).config.settings (some (ofNames ["outdir", "site"]))
      ⟨"a.rst"⟩ false = .source := by
    change classify .default _ _ _ = _
    decide +kernel
  have hbelow : (smallSession.run (sourcesBelow (sampleApp docsDir).config.settings
      (sampleApp docsDir).config.docsDir (some (ofNames ["outdir", "site"])) Files.pathLimit
      ⟨""⟩)).1 = .ok [⟨"a.rst"⟩] := by
    unfold Files.pathLimit sourcesBelow
    rw [Session.run_bind, Session.run_listDirectory, hlist']
    simp [hclass, hjoin, Session.run_pure]
  exact sourcesFor_of_sorted ((placed_small hloc).inside_eq smallSession_plain) (by simp) hbelow
    (by simp)

omit hloc hlist in
theorem forM_buildDocument_small
    (hread : smallSession.readText (docsDir.join ⟨"a.rst"⟩) = .ok Placeholder.server) :
    ∃ s', smallSession.run (List.forM [⟨"a.rst"⟩]
        (buildDocument (sampleApp docsDir) ⟨"docs/outdir/site"⟩)) = (.ok (), s') ∧
      s'.root.view ["docs", "outdir"] = some .dir := by
  have hstep := buildDocument_of_read (sampleApp docsDir) ⟨"docs/outdir/site"⟩ ⟨"a.rst"⟩ hread
  have hemit (name text : String) :
      (sampleApp docsDir).emit name text = Versions.stamp ⟨"1", "1", "2"⟩ text := rfl
  have hsuffix : (sampleApp docsDir).config.settings.sourceSuffix =
      Settings.default.sourceSuffix := rfl
  refine ⟨_, Session.run_eq_of_toOption ?_, ?_⟩ <;>
    simp only [List.forM, Session.run_bind, hstep, hemit, hsuffix, Session.run_pure] <;>
    decide +kernel

theorem findSources_small_fails
    (hread : smallSession.readText (docsDir.join ⟨"a.rst"⟩) = .ok Placeholder.server)
    (hlong : Files.pathLimit ≤ (docsDir.join (ofNames ["outdir"])).text.utf8ByteSize) :
    ∃ s' sources,
      smallSession.run (buildAll (sampleApp docsDir) ⟨"docs/outdir/site"⟩) = (.ok (), s') ∧
      smallSession.run (findSources (sampleApp docsDir).config.settings
        (sampleApp docsDir).config.docsDir (some (ofNames ["outdir", "site"]))) =
        (.ok sources, smallSession) ∧
      s'.run (findSources (sampleApp docsDir).config.settings (sampleApp docsDir).config.docsDir
        (some (ofNames ["outdir", "site"]))) = (.error .nameTooLong, s') := by
  have hs := smallSession_plain
  have hsources := sourcesFor_small hloc hlist
  obtain ⟨hfind, entries, h⟩ :=
    selected_of_inside hs (placed_small hloc) ((placed_small hloc).inside_eq hs) hsources
  obtain ⟨s', hloop, hadded⟩ := forM_buildDocument_small hread
  have hrun := buildAll_of_forM (sourcesFor_ok hs hsources).1 hloop
  obtain ⟨r, s₁, done, hrun', hbuilt, -, hall⟩ := buildAll_run hs (sourcesFor_ok hs hsources).1
    (fun p hp => (h.source hs hp).1) (Path.nodup_of_precedes h.sorted)
  obtain ⟨rfl, rfl⟩ := Prod.mk.inj (hrun'.symm.trans hrun)
  obtain ⟨rfl, -⟩ := hall rfl
  have hkept : Kept (sampleApp docsDir).config.settings (some ["outdir", "site"]) ["outdir"] := by
    refine ⟨?_, by decide⟩
    change Settings.default.isExcluded _ = _
    decide +kernel
  have hthere : (s'.print (builtLine 1 ⟨"docs/outdir/site"⟩)).root.view
      (docsDir.location [] ++ ["outdir"]) = some .dir := by
    rw [hloc]
    exact hadded
  exact ⟨_, _, hrun, hfind, h.findSources_fails_again hs hbuilt (by decide) hkept hthere hlong⟩

end

/-- With 4086 slashes at the end of the path of the documents, a build into a directory among
them succeeds, and then the sources are not found again. -/
theorem findSources_again_longDocs_fails :
    ∃ app s' sources, smallSession.Plain ∧
      (smallSession.run (configure ⟨⟨""⟩, none⟩ (longDocs 4085))).1 = .ok app ∧
      Placement.of smallSession.currentDir app.config.docsDir ⟨"docs/outdir/site"⟩ =
        .inside (ofNames ["outdir", "site"]) ∧
      smallSession.run (buildAll app ⟨"docs/outdir/site"⟩) = (.ok (), s') ∧
      smallSession.run (findSources app.config.settings app.config.docsDir
        (some (ofNames ["outdir", "site"]))) = (.ok sources, smallSession) ∧
      s'.run (findSources app.config.settings app.config.docsDir
        (some (ofNames ["outdir", "site"]))) = (.error .nameTooLong, s') := by
  have hloc := longDocs_location 4085
  have hlong : Files.pathLimit ≤
      ((longDocs 4085).join (ofNames ["outdir"])).text.utf8ByteSize := by
    have hsize : (ofNames ["outdir"]).text.utf8ByteSize = 6 := rfl
    rw [utf8ByteSize_longDocs_join 4085 (Path.isAbsolute_ofNames (by decide)), hsize]
    decide
  obtain ⟨s', sources, h⟩ := findSources_small_fails hloc (longDocs_list 4085 (by decide))
    (longDocs_read 4085 (by decide)) hlong
  exact ⟨sampleApp (longDocs 4085), s', sources, smallSession_plain,
    configure_longDocs 4085 (by decide),
    (placed_small hloc).inside_eq smallSession_plain, h⟩

end DocStamp.Command
