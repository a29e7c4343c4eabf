/-
# The names of documents identify them

A document is named by its path without the suffix of all sources.  The
search tests the suffix on the text of the path, while the name is made
from the steps of the path.  Whatever the search leaves out, the paths
that it finds are spelt by names (`FoundBelow`), so that the two texts
are the same and the suffix that was tested is the one that is taken off
(`Identified`).  A name and the suffix are then the whole path.

A build notes one document after the other, and stops at the first that
fails (`forM_buildDocument_notes`).  What it has noted are the names of
the first of the sources, so no name is noted twice.  There may be links.
-/
import DocStamp.Proofs.Command.Placement
import DocStamp.Proofs.Command.Untouched
import DocStamp.Proofs.Files.Linked

namespace DocStamp.Command

open Files (Session Node Location Fault)
open DocStamp.Path (AreNames ofNames)

/-! ## What the search finds, whatever it leaves out -/

/-- Sources that were found below some names: each once, spelt by names, and with the suffix. -/
structure FoundBelow (suffix : String) (above : Location) (found : List Path) : Prop where
  nodup : found.Nodup
  source : ∀ p ∈ found, ∃ names, names ≠ [] ∧ AreNames names ∧ above <+: names ∧
    p = ofNames names ∧ suffix.toList <:+ p.text.toList

section

variable {s : Session} {suffix : String} {above : Location}

theorem foundBelow_nil : FoundBelow suffix above [] := ⟨List.nodup_nil, by simp⟩

theorem foundBelow_flatMap {listed : List (String × Bool)} {g : String × Bool → List Path}
    (hnodup : listed.Pairwise fun a b => a.1 ≠ b.1)
    (h : ∀ x ∈ listed, FoundBelow suffix (above ++ [x.1]) (g x)) :
    FoundBelow suffix above (listed.flatMap g) := by
  refine ⟨List.pairwise_flatMap.2 ⟨fun x hx => (h x hx).nodup, ?_⟩, fun p hp => ?_⟩
  · refine hnodup.imp_of_mem fun {a b} ha hb hne p hp q hq e => ?_
    obtain ⟨names, -, hnames, hpre, rfl, -⟩ := (h a ha).source p hp
    obtain ⟨names', -, hnames', hpre', rfl, -⟩ := (h b hb).source q hq
    obtain rfl := (Path.ofNames_inj hnames hnames').1 e
    have hab := (List.prefix_of_prefix_length_le hpre hpre' (by simp)).eq_of_length (by simp)
    exact hne (by simpa using hab)
  · obtain ⟨x, hx, hpx⟩ := List.mem_flatMap.1 hp
    obtain ⟨names, hne, hnames, hpre, hrest⟩ := (h x hx).source p hpx
    exact ⟨names, hne, hnames, (List.prefix_append _ _).trans hpre, hrest⟩

theorem listDirectory_names (hs : s.root.Proper) {p : Path} {listed : List (String × Bool)}
    (h : s.listDirectory p = .ok listed) :
    (∀ x ∈ listed, Path.IsName x.1) ∧ listed.Pairwise fun a b => a.1 ≠ b.1 := by
  obtain ⟨entries, hnode, rfl⟩ := Session.listDirectory_ok_iff.1 h
  obtain ⟨l, hl⟩ := Session.node_ok_iff.1 hnode
  have hdir := (hs.at? (Files.follow_found (Session.locate_ok_iff.1 hl).2)).2
  constructor
  · intro x hx
    obtain ⟨e, he, rfl⟩ := List.mem_map.1 hx
    exact hdir.isName e he
  · exact List.pairwise_map.2 (List.pairwise_map.1 hdir.nodup)

/-- One entry of a directory: a source is tested for the suffix, and `below` searches further. -/
theorem found_entry {settings : Settings} {skip : Option Path} {n : String} {isDir : Bool}
    (hnames : AreNames (above ++ [n])) {below : ExceptT Fault (StateM Session) (List Path)}
    (hbelow : ∃ r, s.run below = (r, s) ∧
      ∀ found, r = .ok found → FoundBelow settings.sourceSuffix (above ++ [n]) found) :
    ∃ r, s.run (match classify settings skip (ofNames (above ++ [n])) isDir with
        | .nothing => pure []
        | .source => pure [ofNames (above ++ [n])]
        | .directory => below) = (r, s) ∧
      ∀ found, r = .ok found → FoundBelow settings.sourceSuffix (above ++ [n]) found := by
  cases hclass : classify settings skip (ofNames (above ++ [n])) isDir with
  | nothing =>
      refine ⟨.ok [], rfl, ?_⟩
      rintro found ⟨⟩
      exact foundBelow_nil
  | source =>
      refine ⟨.ok [ofNames (above ++ [n])], rfl, ?_⟩
      rintro found ⟨⟩
      have hsuffix : settings.sourceSuffix.toList <:+ (ofNames (above ++ [n])).text.toList := by
        unfold classify at hclass
        split at hclass
        · cases hclass
        · split at hclass
          · cases hclass
          · split at hclass
            · rename_i h
              exact List.isSuffixOf_iff_suffix.1 h
            · cases hclass
      refine ⟨List.pairwise_singleton _ _, fun p hp => ?_⟩
      obtain rfl := List.mem_singleton.1 hp
      exact ⟨above ++ [n], by simp, hnames, List.prefix_rfl, rfl, hsuffix⟩
  | directory => exact hbelow

theorem sourcesBelow_found (settings : Settings) (docsDir : Path) (skip : Option Path)
    (hs : s.root.Proper) (n : Nat) {above : Location} (habove : AreNames above) :
    ∃ r, s.run (sourcesBelow settings docsDir skip n (ofNames above)) = (r, s) ∧
      ∀ found, r = .ok found → FoundBelow settings.sourceSuffix above found := by
  induction n generalizing above with
  | zero => exact ⟨.error .nameTooLong, rfl, by simp⟩
  | succ n ih =>
      unfold sourcesBelow
      rw [Session.run_bind, Session.run_listDirectory]
      cases hlist : s.listDirectory (docsDir.join (ofNames above)) with
      | error fault => exact ⟨.error fault, rfl, by simp⟩
      | ok listed =>
          obtain ⟨hnames, hnodup⟩ := listDirectory_names hs hlist
          have hentry : ∀ x ∈ listed, ∃ r, s.run (
              match classify settings skip ((ofNames above).join ⟨x.1⟩) x.2 with
              | .nothing => pure []
              | .source => pure [(ofNames above).join ⟨x.1⟩]
              | .directory => sourcesBelow settings docsDir skip n
                  ((ofNames above).join ⟨x.1⟩)) = (r, s) ∧
              ∀ found, r = .ok found →
                FoundBelow settings.sourceSuffix (above ++ [x.1]) found := by
            intro x hx
            have hall : AreNames (above ++ [x.1]) :=
              habove.append fun y hy => List.mem_singleton.1 hy ▸ hnames x hx
            rw [Path.ofNames_join habove (hnames x hx)]
            exact found_entry hall (ih hall)
          rcases Session.run_mapM_flatten hentry with ⟨-, -, fault, -, hrun⟩ | ⟨g, hg, hrun⟩
          · exact ⟨.error fault, hrun, by simp⟩
          · refine ⟨.ok (listed.flatMap g), hrun, ?_⟩
            rintro found ⟨⟩
            exact foundBelow_flatMap hnodup fun x hx => hg x hx _ rfl

theorem findSources_found {settings : Settings} {docsDir : Path} {skip : Option Path}
    (hs : s.root.Proper) {sources : List Path}
    (h : (s.run (findSources settings docsDir skip)).1 = .ok sources) :
    FoundBelow settings.sourceSuffix [] sources := by
  obtain ⟨r, hrun, hfound⟩ :=
    sourcesBelow_found settings docsDir skip hs Files.pathLimit Path.areNames_nil
  rw [Path.ofNames_nil] at hrun
  rw [findSources, Session.run_bind, hrun] at h
  cases r with
  | error fault => cases h
  | ok found =>
      cases h
      have hperm := List.mergeSort_perm found Path.before
      exact ⟨hperm.nodup_iff.2 (hfound found rfl).nodup,
        fun p hp => (hfound found rfl).source p (hperm.mem_iff.1 hp)⟩

theorem sourcesFor_found {app : Application} {out : Path} (hs : s.root.Proper)
    {sources : List Path} (h : (s.run (sourcesFor app out)).1 = .ok sources) :
    FoundBelow app.config.settings.sourceSuffix [] sources := by
  have hother : ∀ q, Placement.of s.currentDir app.config.docsDir out ≠ .same q := by
    intro q hof
    cases h.symm.trans ((sourcesFor_refuses_iff s app out q).2 hof)
  rw [sourcesFor_eq rfl hother, Session.run_adapt] at h
  exact findSources_found hs (Session.mapError_eq_ok h)

end

/-! ## Names and paths -/

/-- With the suffix behind it, the name of each source is its path again, so that no two sources
have the same name. -/
structure Identified (suffix : String) (sources : List Path) : Prop where
  restored : ∀ p ∈ sources, p.documentName suffix ++ suffix = p.stepText
  determined : ∀ p ∈ sources, p = ⟨p.documentName suffix ++ suffix⟩
  distinct : (sources.map (Path.documentName suffix)).Nodup

section

variable {suffix : String} {above : Location} {sources done : List Path}

theorem FoundBelow.identified (h : FoundBelow suffix above sources) :
    Identified suffix sources := by
  have htext : ∀ p ∈ sources, p.documentName suffix ++ suffix = p.stepText ∧
      p.stepText = p.text := by
    intro p hp
    obtain ⟨names, -, hnames, -, rfl, hsuffix⟩ := h.source p hp
    have hstep := Path.Named.stepText_eq ⟨names, hnames, rfl⟩
    exact ⟨Path.documentName_of_suffix (hstep ▸ hsuffix), hstep⟩
  have hpath : ∀ p ∈ sources, p = ⟨p.documentName suffix ++ suffix⟩ := fun p hp => by
    rw [(htext p hp).1, (htext p hp).2]
  refine ⟨fun p hp => (htext p hp).1, hpath, List.pairwise_map.2 ?_⟩
  refine h.nodup.imp_of_mem fun {p q} hp hq hne e => hne ?_
  rw [hpath p hp, hpath q hq, e]

theorem Identified.of_prefix (h : Identified suffix sources) (hdone : done <+: sources) :
    Identified suffix done :=
  ⟨fun p hp => h.restored p (hdone.subset hp), fun p hp => h.determined p (hdone.subset hp),
    h.distinct.sublist (hdone.sublist.map _)⟩

end

/-! ## What a build notes -/

section

variable {s s' : Session} {app : Application} {out p : Path}

theorem writeDocument_linked (hs : s.root.view s.here = some .dir) (p : Path) (text : String) :
    ∃ r s', s.run (writeDocument p text) = (r, s') ∧ s'.root.view s'.here = some .dir ∧
      s'.documents = s.documents ∧ (r = .ok () → s'.readText p = .ok text) := by
  obtain ⟨made, s₁, hrun, hext⟩ := Session.ensureParent_extends (ε := Failure) hs p
  have hs₁ := hext.here_dir hs
  rw [writeDocument, Session.run_bind_ok hrun]
  cases made with
  | error fault => exact ⟨_, s₁, rfl, hs₁, hext.documents, by simp⟩
  | ok u =>
      rw [Session.run_bind, Session.run_writeText]
      cases hwrite : s₁.writeFile p (.text text) with
      | error fault => exact ⟨_, s₁, rfl, hs₁, hext.documents, by simp⟩
      | ok s₂ =>
          exact ⟨_, s₂, rfl, Session.here_dir_of_writeFile hs₁ hwrite,
            (Session.documents_of_writeFile hwrite).trans hext.documents,
            fun _ => Session.readText_of_writeFile hs₁ hwrite⟩

theorem buildDocument_notes (hs : s.root.view s.here = some .dir) (app : Application)
    (out p : Path) :
    ∃ r s', s.run (buildDocument app out p) = (r, s') ∧ s'.root.view s'.here = some .dir ∧
      ((∃ f, r = .error f) ∧ s'.documents = s.documents ∨
        s'.documents = s.documents ++ [p.documentName app.config.settings.sourceSuffix]) := by
  cases hread : s.readText (app.config.docsDir.join p) with
  | error fault =>
      refine ⟨_, s, ?_, hs, .inl ⟨⟨.read (app.config.docsDir.join p) fault, rfl⟩, rfl⟩⟩
      rw [buildDocument, Session.run_bind, readDocument_run, hread]
  | ok source =>
      rw [buildDocument_of_read app out p hread]
      obtain ⟨r, s', hrun, hs', hdocuments, -⟩ := writeDocument_linked (s :=
        { s with documents := s.documents ++ [p.documentName app.config.settings.sourceSuffix] })
        hs (out.join p) (app.emit (p.documentName app.config.settings.sourceSuffix) source)
      exact ⟨r, s', hrun, hs', .inr hdocuments⟩

/-- The loop of a build notes the first of its documents, up to one that fails. -/
theorem forM_buildDocument_notes (hs : s.root.view s.here = some .dir) (app : Application)
    (out : Path) (sources : List Path) :
    ∃ r s' done, s.run (sources.forM (buildDocument app out)) = (r, s') ∧ done <+: sources ∧
      s'.documents =
        s.documents ++ done.map (Path.documentName app.config.settings.sourceSuffix) ∧
      (r = .ok () → done = sources) := by
  induction sources generalizing s with
  | nil => exact ⟨_, s, [], rfl, List.prefix_rfl, by simp, fun _ => rfl⟩
  | cons p sources ih =>
      obtain ⟨r, s₁, hrun, hs₁, hnoted⟩ := buildDocument_notes hs app out p
      rw [List.forM]
      cases r with
      | error f =>
          rcases hnoted with ⟨-, hnoted⟩ | hnoted
          · exact ⟨_, s₁, [], Session.run_bind_error hrun _, List.nil_prefix, by simp [hnoted],
              by simp⟩
          · exact ⟨_, s₁, [p], Session.run_bind_error hrun _, by simp, by simp [hnoted], by simp⟩
      | ok u =>
          obtain ⟨r, s', done, hrest, hpre, hdocuments, hall⟩ := ih hs₁
          rcases hnoted with ⟨⟨f, hf⟩, -⟩ | hnoted
          · cases hf
          · refine ⟨r, s', p :: done, (Session.run_bind_ok hrun _).trans hrest,
              List.cons_prefix_cons.2 ⟨rfl, hpre⟩, ?_, fun h => by rw [hall h]⟩
            rw [hdocuments, hnoted, List.map_cons, List.append_assoc, List.singleton_append]

theorem buildDocument_ok (hs : s.root.view s.here = some .dir)
    (h : s.run (buildDocument app out p) = (.ok (), s')) :
    ∃ source, s.readText (app.config.docsDir.join p) = .ok source ∧
      s'.documents = s.documents ++ [p.documentName app.config.settings.sourceSuffix] ∧
      s'.readText (out.join p) =
        .ok (app.emit (p.documentName app.config.settings.sourceSuffix) source) := by
  cases hread : s.readText (app.config.docsDir.join p) with
  | error fault =>
      rw [buildDocument, Session.run_bind, readDocument_run, hread] at h
      cases h
  | ok source =>
      rw [buildDocument_of_read app out p hread] at h
      obtain ⟨r, s₁, hrun, -, hdocuments, htext⟩ := writeDocument_linked (s :=
        { s with documents := s.documents ++ [p.documentName app.config.settings.sourceSuffix] })
        hs (out.join p) (app.emit (p.documentName app.config.settings.sourceSuffix) source)
      obtain ⟨rfl, rfl⟩ := Prod.mk.inj (hrun.symm.trans h)
      exact ⟨source, rfl, hdocuments, htext rfl⟩

/-- What a build notes are the names of the first of its sources, or of all if it succeeds. -/
theorem buildAll_notes (hs : s.Sound) (app : Application) (out : Path) :
    ∃ r s' done, s.run (buildAll app out) = (r, s') ∧
      Identified app.config.settings.sourceSuffix done ∧
      s'.documents =
        s.documents ++ done.map (Path.documentName app.config.settings.sourceSuffix) ∧
      ∀ sources, (s.run (sourcesFor app out)).1 = .ok sources →
        done <+: sources ∧ (r = .ok () → done = sources) := by
  rw [buildAll, Session.run_bind, (quiet_sourcesFor app out).run_eq s]
  cases hsources : (s.run (sourcesFor app out)).1 with
  | error f =>
      have hnone : FoundBelow app.config.settings.sourceSuffix [] [] := foundBelow_nil
      exact ⟨.error f, s, [], rfl, hnone.identified, by simp, by simp⟩
  | ok sources =>
      obtain ⟨r, s', done, hrun, hpre, hdocuments, hall⟩ :=
        forM_buildDocument_notes hs.here app out sources
      have hfound := (sourcesFor_found hs.proper hsources).identified
      show ∃ r s' done, s.run (sources.forM (buildDocument app out) >>= fun _ =>
        Files.Host.print (builtLine sources.length out)) = (r, s') ∧ _
      cases r with
      | error f =>
          refine ⟨.error f, s', done, Session.run_bind_error hrun _, hfound.of_prefix hpre,
            hdocuments, ?_⟩
          rintro _ ⟨⟩
          exact ⟨hpre, by simp⟩
      | ok u =>
          refine ⟨.ok (), s'.print (builtLine sources.length out), done,
            Session.run_bind_ok hrun _, hfound.of_prefix hpre, hdocuments, ?_⟩
          rintro _ ⟨⟩
          exact ⟨hpre, fun _ => hall rfl⟩

end

/-- Whatever the suffix is, every source that the search finds is named so that its name and the
suffix are its path, and no two have the same name.  A build notes the names of sources that it
has read, none twice, and each name tells which file was read and which is written. -/
theorem documentName_identifies {s : Session} (hs : s.Sound) :
    (∀ settings docsDir skip sources,
      (s.run (findSources settings docsDir skip)).1 = .ok sources →
      Identified settings.sourceSuffix sources) ∧
    ∀ app out, ∃ r s' done, s.run (buildAll app out) = (r, s') ∧
      Identified app.config.settings.sourceSuffix done ∧
      s'.documents =
        s.documents ++ done.map (Path.documentName app.config.settings.sourceSuffix) ∧
      (∀ sources, (s.run (sourcesFor app out)).1 = .ok sources →
        done <+: sources ∧ (r = .ok () → done = sources)) ∧
      ∀ p ∈ done, ∀ t t' : Session, t.Sound → t.run (buildDocument app out p) = (.ok (), t') →
        ∃ name source, t'.documents = t.documents ++ [name] ∧
          t.readText (app.config.docsDir.join ⟨name ++ app.config.settings.sourceSuffix⟩) =
            .ok source ∧
          t'.readText (out.join ⟨name ++ app.config.settings.sourceSuffix⟩) =
            .ok (app.emit name source) := by
  refine ⟨fun settings docsDir skip sources h => (findSources_found hs.proper h).identified,
    fun app out => ?_⟩
  obtain ⟨r, s', done, hrun, hdone, hdocuments, hsources⟩ := buildAll_notes hs app out
  refine ⟨r, s', done, hrun, hdone, hdocuments, hsources, fun p hp t t' ht hbuild => ?_⟩
  obtain ⟨source, hread, hnoted, hwritten⟩ := buildDocument_ok ht.here hbuild
  refine ⟨p.documentName app.config.settings.sourceSuffix, source, hnoted, ?_, ?_⟩
  · rw [← hdone.determined p hp, hread]
  · rw [← hdone.determined p hp, hwritten]

/-- Documents of the same name in two directories. -/
def namesakeSession : Session where
  root := .dir [("docs", .dir [
    ("a.rst", .file (.text "")), ("sub", .dir [("a.rst", .file (.text ""))])])]
  here := []

/-- An application whose suffix is the whole name of a document. -/
def namesakeApp : Application :=
  .new ⟨⟨"docs"⟩, ⟨"pom.xml"⟩, { Settings.default with sourceSuffix := "a.rst" }, ⟨"1", "1", "2"⟩⟩

/-- The directory alone is left of the names, which differ all the same. -/
theorem documentName_identifies_namesakes :
    Identified "a.rst" [⟨"a.rst"⟩, ⟨"sub/a.rst"⟩] ∧
      ∃ s', namesakeSession.run (buildAll namesakeApp ⟨"out"⟩) = (.ok (), s') ∧
        s'.documents = ["", "sub/"] := by
  have hs : namesakeSession.Sound := by
    refine ⟨?_, rfl⟩
    simp +decide [namesakeSession, Node.proper_dir_iff]
  have hplace : Placement.of namesakeSession.currentDir namesakeApp.config.docsDir ⟨"out"⟩ =
      .outside := by
    decide +kernel
  have hsearch : (namesakeSession.run
      (findSources namesakeApp.config.settings namesakeApp.config.docsDir none)).1 =
        .ok [⟨"a.rst"⟩, ⟨"sub/a.rst"⟩] :=
    findSources_of_sorted (Session.eq_ok_of_toOption (by decide +kernel)) (by decide +kernel)
  have hsources : (namesakeSession.run (sourcesFor namesakeApp ⟨"out"⟩)).1 =
      .ok [⟨"a.rst"⟩, ⟨"sub/a.rst"⟩] := by
    have hskip : Placement.outside.skipped? = none := rfl
    rw [sourcesFor_eq hplace (by simp), Session.run_adapt, hskip, hsearch]
    rfl
  obtain ⟨s₁, hloop⟩ : ∃ s₁, namesakeSession.run
      ([⟨"a.rst"⟩, ⟨"sub/a.rst"⟩].forM (buildDocument namesakeApp ⟨"out"⟩)) = (.ok (), s₁) :=
    ⟨_, Session.run_eq_of_toOption (by decide +kernel)⟩
  have hquiet := (quiet_sourcesFor namesakeApp ⟨"out"⟩).run_eq namesakeSession
  rw [hsources] at hquiet
  obtain ⟨hfound, hbuild⟩ := documentName_identifies hs
  obtain ⟨r, s', done, hrun, -, hdocuments, hdone, -⟩ := hbuild namesakeApp ⟨"out"⟩
  obtain ⟨rfl, rfl⟩ := Prod.mk.inj ((buildAll_of_forM hquiet hloop).symm.trans hrun)
  obtain rfl := (hdone _ hsources).2 rfl
  exact ⟨hfound _ _ none _ hsearch, _, hrun, hdocuments.trans (by decide +kernel)⟩

end DocStamp.Command
