/-
# Rendering agrees with building

Building names a document by the path that the search has found it at.
Rendering is given the path of a file, and works the name out again: it
cleans the path and that of the documents and takes the one off the
other.  However the directory of documents is spelt, the name is the
same (`relativeToDocs_join`), so a document that can be built is
rendered to the text that the build writes.

There may be links, among the documents and on the way to the output.
-/
import DocStamp.Proofs.Command.DocumentNames
import DocStamp.Proofs.Command.RelativeName

namespace DocStamp.Command

open Files (Session Node Fault)
open DocStamp.Path (AreNames ofNames)

/-! ## The name of a file that is given by its path -/

theorem relativeToDocs_join {p : Path} (hp : p.Named) (hne : p.parts ≠ []) (docsDir : Path) :
    relativeToDocs (docsDir.join p) docsDir = p := by
  have hplace := hp.place_join docsDir
  obtain ⟨names, hn, rfl⟩ := hp
  rw [Path.parts_ofNames hn] at hplace hne
  exact relativeToDocs_of_append hne hplace

/-! ## One document -/

section

variable {s s' : Session} {app : Application} {out p : Path}

theorem renderWith_run (app : Application) (docsDir : Path) {file : Path} {source : String}
    (h : s.readText file = .ok source) :
    s.run (renderWith app docsDir file) =
      (.ok (), { s with
        documents := s.documents ++
          [(relativeToDocs file docsDir).documentName app.config.settings.sourceSuffix],
        printed := s.printed ++ app.emit
          ((relativeToDocs file docsDir).documentName app.config.settings.sourceSuffix) source }) := by
  unfold renderWith
  rw [Session.run_bind, readDocument_run, h]
  rfl

/-- However the directory of documents is spelt, a source that can be built is rendered: the
program prints what the build writes, takes note of the same document, and changes no file. -/
theorem render_prints_built (hs : s.Sound) {env : Environment} {docsDir : Path}
    (happ : (s.run (configure env docsDir)).1 = .ok app) {skip : Option Path}
    {sources : List Path}
    (hsources : (s.run (findSources app.config.settings docsDir skip)).1 = .ok sources)
    (hp : p ∈ sources) (hbuild : s.run (buildDocument app out p) = (.ok (), s'))
    {program : Program} {args : List String}
    (hargs : Request.parse? program args = some (.render docsDir (docsDir.join p)))
    (input : String) :
    ∃ text, s'.readText (out.join p) = .ok text ∧
      s'.documents = s.documents ++ [p.documentName app.config.settings.sourceSuffix] ∧
      (run program env args input : StateM Session Outcome) s =
        (.success, { s with documents := s'.documents, printed := s.printed ++ text }) := by
  obtain ⟨source, hread, hdocuments, htext⟩ := buildDocument_ok hs.here hbuild
  obtain ⟨names, hne, hnames, -, hspelt, -⟩ := (findSources_found hs.proper hsources).source p hp
  have hnamed : p.Named := ⟨names, hnames, hspelt⟩
  have hparts : p.parts ≠ [] := by rwa [hspelt, Path.parts_ofNames hnames]
  have hdocs : app.config.docsDir = docsDir := by
    obtain ⟨config, hconfig, rfl⟩ := configure_ok (configure_run happ)
    exact hconfig
  rw [hdocs] at hread
  have hrender := renderWith_run app docsDir hread
  rw [relativeToDocs_join hnamed hparts] at hrender
  have hperform : s.run (perform program env input (.render docsDir (docsDir.join p))) =
      (.ok (), { s with
        documents := s'.documents,
        printed := s.printed ++
          app.emit (p.documentName app.config.settings.sourceSuffix) source }) := by
    rw [perform, render, Session.run_bind_ok (configure_run happ), hrender, hdocuments]
  exact ⟨_, htext, hdocuments, run_of_perform hargs hperform⟩

end

/-- Documents that a link leads to, and another link to where the output goes. -/
def detourSession : Session where
  root := .dir [
    ("pom.xml", .file (.text sampleManifest)),
    ("docs", .dir [("sub", .dir [("a.rst", .file (.text Placeholder.server))])]),
    ("manual", .link "docs"),
    ("built", .dir []),
    ("out", .link "built")]
  here := []

/-- A way to these documents with `.`, `..`, a link and slashes at its end. -/
def detour : Path := ⟨"./docs/../manual//"⟩

theorem render_prints_built_detour :
    ∃ s', detourSession.run (buildDocument (sampleApp detour) ⟨"out"⟩ ⟨"sub/a.rst"⟩) =
        (.ok (), s') ∧
      s'.readText ⟨"built/sub/a.rst"⟩ = .ok "2" ∧ s'.documents = ["sub/a"] ∧
      (run .docs ⟨⟨""⟩, none⟩ ["-C", "./docs/../manual//", "render", "./docs/../manual//sub/a.rst"] ""
        : StateM Session Outcome) detourSession =
          (.success, { detourSession with documents := ["sub/a"], printed := "2" }) := by
  have hs : detourSession.Sound := by
    refine ⟨?_, rfl⟩
    simp +decide [detourSession, Node.proper_dir_iff]
  have happ : (detourSession.run (configure ⟨⟨""⟩, none⟩ detour)).1 = .ok (sampleApp detour) :=
    configure_sample (by decide +kernel) (by decide +kernel) rfl
  have hsources : (detourSession.run
      (findSources (sampleApp detour).config.settings detour none)).1 = .ok [⟨"sub/a.rst"⟩] :=
    findSources_of_sorted (Session.eq_ok_of_toOption (by decide +kernel)) (by simp)
  obtain ⟨s', hbuild, hbuilt⟩ : ∃ s', detourSession.run
      (buildDocument (sampleApp detour) ⟨"out"⟩ ⟨"sub/a.rst"⟩) = (.ok (), s') ∧
      (s'.readText ⟨"built/sub/a.rst"⟩).toOption = some "2" ∧
      (s'.readText (Path.join ⟨"out"⟩ ⟨"sub/a.rst"⟩)).toOption = some "2" :=
    ⟨_, Session.run_eq_of_toOption (by decide +kernel), by decide +kernel, by decide +kernel⟩
  have hargs : Request.parse? .docs
      ["-C", "./docs/../manual//", "render", "./docs/../manual//sub/a.rst"] =
        some (.render detour (detour.join ⟨"sub/a.rst"⟩)) := by
    decide +kernel
  obtain ⟨text, htext, hdocuments, hrun⟩ := render_prints_built hs happ hsources
    (List.mem_singleton_self _) hbuild hargs ""
  obtain rfl : text = "2" := by
    have := htext.symm.trans (Session.eq_ok_of_toOption hbuilt.2)
    exact Except.ok.inj this
  have hname : s'.documents = ["sub/a"] := hdocuments.trans (by decide +kernel)
  rw [hname] at hrun
  exact ⟨s', hbuild, Session.eq_ok_of_toOption hbuilt.1, hname, hrun⟩

end DocStamp.Command
