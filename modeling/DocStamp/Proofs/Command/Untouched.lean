/-
# What leaves the files as they were

Only the loop of a build writes.  Every other request leaves all files
as they were, and so does a build that stops before its first document:
when the configuration cannot be loaded, when the output directory is
that of the documents, or when the search for sources fails.

A request that needs a configuration asks for it before anything else,
so nothing is announced without one.  Every request prints in its last
step, so a run that fails has printed nothing.
-/
import DocStamp.Proofs.Book.Process
import DocStamp.Proofs.Command.Build
import DocStamp.Proofs.Command.Run

namespace DocStamp

open Files (Session Fault)

open Files.Session (Quiet Preserves ReadOnly PrintsLast FailsOnly)

namespace Command

/-! ## Requests that write nothing -/

theorem readOnly_process (app : Application) (docname source : String) :
    ReadOnly (app.process docname source : ExceptT Failure (StateM Session) String) :=
  (Session.readOnly_announce docname).bind fun _ => (Session.quiet_pure _).preserves _

theorem readOnly_render (env : Environment) (docsDir file : Path) :
    ReadOnly (render env docsDir file : ExceptT Failure (StateM Session) Unit) := by
  refine ((quiet_configure env docsDir).preserves _).bind fun app => ?_
  refine ((quiet_readDocument file).preserves _).bind fun source => ?_
  exact (readOnly_process app _ source).bind fun text => Session.readOnly_print text

theorem readOnly_showPaths (env : Environment) (docsDir : Path) :
    ReadOnly (showPaths env docsDir : ExceptT Failure (StateM Session) Unit) :=
  (((Settings.quiet_load env docsDir).adapt _).preserves _).bind fun _ => Session.readOnly_print _

theorem readOnly_showConfig (env : Environment) (docsDir : Path) :
    ReadOnly (showConfig env docsDir : ExceptT Failure (StateM Session) Unit) :=
  (((Config.quiet_load env docsDir).adapt _).preserves _).bind fun _ => Session.readOnly_print _

/-- A book that is processed only takes note of chapters. -/
theorem preserves_preprocess {γ : Type} {part : Session → γ}
    (hpart : ∀ s cs, part (Book.noted s cs) = part s) (env : Environment) (input : String) :
    Preserves part (preprocess env input : ExceptT Failure (StateM Session) Book) := by
  unfold preprocess
  cases Book.parse input with
  | error e => exact (Session.quiet_throw _).preserves part
  | ok parsed =>
      obtain ⟨context, book⟩ := parsed
      refine ((quiet_configure env context.root).preserves part).bind fun app s => ?_
      rw [Book.run_process]
      exact hpart s book.chapters

theorem readOnly_perform (program : Program) (env : Environment) (input : String)
    {request : Request} (h : ∀ docsDir out, request ≠ .build docsDir out) :
    ReadOnly (perform program env input request : ExceptT Failure (StateM Session) Unit) := by
  cases request with
  | build docsDir out => exact absurd rfl (h docsDir out)
  | render docsDir file => exact readOnly_render env docsDir file
  | showPaths docsDir => exact readOnly_showPaths env docsDir
  | showConfig docsDir => exact readOnly_showConfig env docsDir
  | preprocess =>
      exact (preserves_preprocess (fun _ _ => rfl) env input).bind fun book =>
        Session.readOnly_print book.write
  | supports renderer => exact (Session.quiet_pure ()).preserves _
  | version => exact Session.readOnly_print _
  | help => exact (Session.quiet_pure ()).preserves _

/-! ## Before the first document -/

theorem quiet_sourcesBelow (settings : Settings) (docsDir : Path) (skip : Option Path) (n : Nat)
    (dir : Path) :
    Quiet (sourcesBelow settings docsDir skip n dir : ExceptT Fault (StateM Session) _) := by
  induction n generalizing dir with
  | zero => exact Session.quiet_throw _
  | succ n ih =>
      refine (Session.quiet_listDirectory _).bind fun listed => ?_
      cases listed with
      | error fault => exact Session.quiet_throw fault
      | ok entries =>
          refine (Session.quiet_mapM (fun entry => ?_) entries).bind fun _ => Session.quiet_pure _
          obtain ⟨name, isDir⟩ := entry
          cases h : classify settings skip (dir.join ⟨name⟩) isDir with
          | nothing => simpa only [h] using Session.quiet_pure _
          | source => simpa only [h] using Session.quiet_pure _
          | directory => simpa only [h] using ih _

theorem quiet_findSources (settings : Settings) (docsDir : Path) (skip : Option Path) :
    Quiet (findSources settings docsDir skip : ExceptT Fault (StateM Session) _) :=
  (quiet_sourcesBelow settings docsDir skip _ _).bind fun _ => Session.quiet_pure _

/-- A failure of one document: it cannot be read, or its output cannot be written. -/
inductive Failure.OfDocument : Failure → Prop
  | read (p : Path) (fault : Fault) : Failure.OfDocument (.read p fault)
  | write (p : Path) (fault : Fault) : Failure.OfDocument (.write p fault)

theorem failsOnly_readDocument (p : Path) :
    FailsOnly Failure.OfDocument (readDocument p : ExceptT Failure (StateM Session) String) := by
  refine (Session.failsOnly_lift _).bind fun r => ?_
  cases r with
  | ok source => exact Session.failsOnly_pure source
  | error fault => exact Session.failsOnly_throw (.read p fault)

theorem failsOnly_writeDocument (p : Path) (text : String) :
    FailsOnly Failure.OfDocument
      (writeDocument p text : ExceptT Failure (StateM Session) Unit) := by
  refine (Session.failsOnly_ensureParent p).bind fun made => ?_
  cases made with
  | error fault => exact Session.failsOnly_throw (.write p fault)
  | ok u =>
      refine (Session.failsOnly_lift _).bind fun written => ?_
      cases written with
      | ok u => exact Session.failsOnly_pure ()
      | error fault => exact Session.failsOnly_throw (.write p fault)

theorem failsOnly_buildDocument (app : Application) (out p : Path) :
    FailsOnly Failure.OfDocument
      (buildDocument app out p : ExceptT Failure (StateM Session) Unit) := by
  refine (failsOnly_readDocument _).bind fun source => ?_
  refine FailsOnly.bind ?_ fun text => failsOnly_writeDocument _ text
  exact (Session.failsOnly_lift _).bind fun _ => Session.failsOnly_pure _

section

variable {s : Session} {env : Environment} {docsDir : Path}

theorem configure_error {e : LoadError} (h : (s.run (Config.load env docsDir)).1 = .error e) :
    s.run (configure env docsDir) = (.error (.load e), s) := by
  unfold configure Application.configure
  rw [Session.run_adapt, Session.run_bind, (Config.quiet_load env docsDir).run_eq s, h]
  rfl

theorem build_of_load {config : Config} (h : (s.run (Config.load env docsDir)).1 = .ok config)
    (given : Option Path) :
    s.run (build env docsDir given) =
      s.run (buildAll (Application.new config).setup (given.getD (docsDir.join defaultOutput))) := by
  rw [build, Session.run_bind_ok (configure_run (configure_of_load h))]

theorem quiet_sourcesFor (app : Application) (out : Path) :
    Quiet (sourcesFor app out : ExceptT Failure (StateM Session) (List Path)) := by
  refine Session.quiet_currentDir.bind fun here => ?_
  cases h : Placement.of here app.config.docsDir out with
  | same p => simpa only [h] using Session.quiet_throw _
  | inside p => simpa only [h] using (quiet_findSources _ _ _).adapt _
  | outside => simpa only [h] using (quiet_findSources _ _ _).adapt _

theorem build_of_same {config : Config} {given : Option Path} {p : Path}
    (hload : (s.run (Config.load env docsDir)).1 = .ok config)
    (hplace : Placement.of s.currentDir docsDir (given.getD (docsDir.join defaultOutput)) =
      .same p) :
    s.run (build env docsDir given) = (.error (.outputIsDocs p), s) := by
  obtain rfl : config.docsDir = docsDir := Config.docsDir_of_load (Prod.ext hload rfl)
  have hsources : s.run (sourcesFor (Application.new config).setup
      (given.getD (config.docsDir.join defaultOutput))) = (.error (.outputIsDocs p), s) := by
    rw [sourcesFor, Session.run_bind, Session.run_currentDir]
    simp only [Application.setup, Application.connect, Application.new, hplace, Session.run_throw]
  rw [build_of_load hload, buildAll, Session.run_bind_error hsources]

theorem build_of_scan {config : Config} {given : Option Path} {placement : Placement}
    {fault : Fault} (hload : (s.run (Config.load env docsDir)).1 = .ok config)
    (hplace : Placement.of s.currentDir docsDir (given.getD (docsDir.join defaultOutput)) =
      placement)
    (hother : ∀ p, placement ≠ .same p)
    (hscan : (s.run (findSources config.settings docsDir placement.skipped?)).1 = .error fault) :
    s.run (build env docsDir given) = (.error (.scan docsDir fault), s) := by
  obtain rfl : config.docsDir = docsDir := Config.docsDir_of_load (Prod.ext hload rfl)
  have hsources : s.run (sourcesFor (Application.new config).setup
      (given.getD (config.docsDir.join defaultOutput))) =
        (.error (.scan config.docsDir fault), s) := by
    have hof : Placement.of s.currentDir (Application.new config).setup.config.docsDir
        (given.getD (config.docsDir.join defaultOutput)) = placement := hplace
    have hfind : (s.run (findSources (Application.new config).setup.config.settings
        (Application.new config).setup.config.docsDir placement.skipped?)).1 = .error fault := hscan
    rw [sourcesFor_eq hof hother, Session.run_adapt, (quiet_findSources _ _ _).run_eq s, hfind]
    rfl
  rw [build_of_load hload, buildAll, Session.run_bind_error hsources]

/-- A build that is not to blame on a document has left the session as it was. -/
theorem buildAll_before_documents {s' : Session} {app : Application} {out : Path} {f : Failure}
    (h : s.run (buildAll app out) = (.error f, s')) (hf : ¬ f.OfDocument) : s' = s := by
  rw [buildAll, Session.run_bind, (quiet_sourcesFor app out).run_eq s] at h
  cases hsources : (s.run (sourcesFor app out)).1 with
  | error e =>
      rw [hsources] at h
      cases h
      rfl
  | ok sources =>
      rw [hsources] at h
      have hloop : FailsOnly Failure.OfDocument (do
          sources.forM (buildDocument app out)
          Files.Host.print (builtLine sources.length out) :
            ExceptT Failure (StateM Session) Unit) :=
        (Session.failsOnly_forM (failsOnly_buildDocument app out) sources).bind
          fun _ => Session.failsOnly_lift _
      exact absurd (hloop s f (congrArg Prod.fst h)) hf

theorem build_before_documents {s' : Session} {given : Option Path} {f : Failure}
    (h : s.run (build env docsDir given) = (.error f, s')) (hf : ¬ f.OfDocument) : s' = s := by
  cases hload : (s.run (Config.load env docsDir)).1 with
  | error e =>
      rw [build, Session.run_bind_error (configure_error hload)] at h
      cases h
      rfl
  | ok config =>
      rw [build_of_load hload] at h
      exact buildAll_before_documents h hf

/-! ## Without a configuration -/

/-- The directory whose configuration a request needs, if it needs one.  A book says itself
where it lies. -/
def Request.docsDir? (input : String) : Request → Option Path
  | .build docsDir _ | .render docsDir _ | .showConfig docsDir => some docsDir
  | .preprocess =>
      match Book.parse input with
      | .ok (context, _) => some context.root
      | .error _ => none
  | _ => none

theorem perform_of_load_error {program : Program} {input : String} {request : Request}
    (hdir : request.docsDir? input = some docsDir) {e : LoadError}
    (h : (s.run (Config.load env docsDir)).1 = .error e) :
    s.run (perform program env input request) = (.error (.load e), s) := by
  cases request with
  | build dir out =>
      cases hdir
      rw [perform, build, Session.run_bind_error (configure_error h)]
  | render dir file =>
      cases hdir
      rw [perform, render, Session.run_bind_error (configure_error h)]
  | showConfig dir =>
      cases hdir
      have hload : s.run (ExceptT.adapt Failure.load (Config.load env docsDir)) =
          (.error (.load e), s) := by
        rw [Session.run_adapt, (Config.quiet_load env docsDir).run_eq s, h]
        rfl
      rw [perform, showConfig, Session.run_bind_error hload]
  | preprocess =>
      cases hparse : Book.parse input with
      | error e => simp [Request.docsDir?, hparse] at hdir
      | ok parsed =>
          obtain ⟨context, book⟩ := parsed
          obtain rfl : context.root = docsDir := by simpa [Request.docsDir?, hparse] using hdir
          have hprocess : s.run (preprocess env input) = (.error (.load e), s) := by
            simp only [preprocess, hparse, processBook]
            rw [Session.run_bind_error (configure_error h)]
          rw [perform, Session.run_bind_error hprocess]
  | showPaths | supports | version | help => cases hdir

end

/-! ## Printing -/

theorem printsLast_buildAll (app : Application) (out : Path) :
    PrintsLast (buildAll app out : ExceptT Failure (StateM Session) Unit) := by
  refine Session.printsLast_bind ((quiet_sourcesFor app out).preserves _) fun sources => ?_
  have hloop := Session.preserves_forM (silent_buildDocument app out) sources
  exact Session.printsLast_bind hloop fun _ => Session.printsLast_print _

theorem printsLast_render (env : Environment) (docsDir file : Path) :
    PrintsLast (render env docsDir file : ExceptT Failure (StateM Session) Unit) := by
  refine Session.printsLast_bind ((quiet_configure env docsDir).preserves _) fun app => ?_
  refine Session.printsLast_bind ((quiet_readDocument file).preserves _) fun source => ?_
  exact Session.printsLast_bind (silent_process app _ source) fun text =>
    Session.printsLast_print text

theorem printsLast_perform (program : Program) (env : Environment) (input : String)
    (request : Request) :
    PrintsLast (perform program env input request : ExceptT Failure (StateM Session) Unit) := by
  cases request with
  | build docsDir out =>
      exact Session.printsLast_bind ((quiet_configure env docsDir).preserves _) fun app =>
        printsLast_buildAll app _
  | render docsDir file => exact printsLast_render env docsDir file
  | showPaths docsDir =>
      exact Session.printsLast_bind (((Settings.quiet_load env docsDir).adapt _).preserves _)
        fun _ => Session.printsLast_print _
  | showConfig docsDir =>
      exact Session.printsLast_bind (((Config.quiet_load env docsDir).adapt _).preserves _)
        fun _ => Session.printsLast_print _
  | preprocess =>
      exact Session.printsLast_bind (preserves_preprocess (fun _ _ => rfl) env input) fun book =>
        Session.printsLast_print book.write
  | supports renderer => exact Session.printsLast_of_silent ((Session.quiet_pure ()).preserves _)
  | version => exact Session.printsLast_print _
  | help => exact Session.printsLast_of_silent ((Session.quiet_pure ()).preserves _)

/-! ## Whole runs -/

/-- A run of any request but a build changes no file.  A build that cannot load its
configuration, whose output directory is that of the documents, or whose search fails, leaves
all as it was, and so does every build that is not to blame on a document.  Without a
configuration nothing is announced and the exit code is 1.  A run with that exit code has
printed nothing. -/
theorem run_fails_without_trace {program : Program} {args : List String} {request : Request}
    (hargs : Request.parse? program args = some request) (env : Environment) (input : String)
    (s : Session) :
    ∃ outcome s', (run program env args input : StateM Session Outcome) s = (outcome, s') ∧
      ((∀ docsDir given, request ≠ .build docsDir given) → s'.root = s.root) ∧
      (∀ docsDir given, request = .build docsDir given →
        (∀ e, (s.run (Config.load env docsDir)).1 = .error e →
          outcome = .failure (.load e) ∧ s' = s) ∧
        (∀ config placement, (s.run (Config.load env docsDir)).1 = .ok config →
          Placement.of s.currentDir docsDir (given.getD (docsDir.join defaultOutput)) =
            placement →
          (∀ p, placement = .same p → outcome = .failure (.outputIsDocs p) ∧ s' = s) ∧
          (∀ fault, (∀ p, placement ≠ .same p) →
            (s.run (findSources config.settings docsDir placement.skipped?)).1 = .error fault →
            outcome = .failure (.scan docsDir fault) ∧ s' = s)) ∧
        (∀ f, outcome = .failure f → ¬ f.OfDocument → s' = s)) ∧
      (∀ docsDir e, request.docsDir? input = some docsDir →
        (s.run (Config.load env docsDir)).1 = .error e →
        outcome.exitCode = 1 ∧ s'.documents = s.documents) ∧
      (outcome.exitCode = 1 → s'.printed = s.printed) := by
  cases hrun : s.run (perform program env input request) with
  | mk r s' =>
      refine ⟨.ofExcept r, s', run_of_perform hargs hrun, ?_, ?_, ?_, ?_⟩
      · intro hother
        have hroot := readOnly_perform program env input hother s
        rwa [hrun] at hroot
      · rintro docsDir given rfl
        refine ⟨?_, ?_, ?_⟩
        · intro e hload
          rw [perform_of_load_error rfl hload] at hrun
          cases hrun
          exact ⟨rfl, rfl⟩
        · intro config placement hload hplace
          refine ⟨?_, ?_⟩
          · rintro p rfl
            rw [perform, build_of_same hload hplace] at hrun
            cases hrun
            exact ⟨rfl, rfl⟩
          · intro fault hother hscan
            rw [perform, build_of_scan hload hplace hother hscan] at hrun
            cases hrun
            exact ⟨rfl, rfl⟩
        · intro f hf hlate
          cases r with
          | ok u => cases hf
          | error f' =>
              cases hf
              exact build_before_documents hrun hlate
      · intro docsDir e hdir hload
        rw [perform_of_load_error hdir hload] at hrun
        cases hrun
        exact ⟨rfl, rfl⟩
      · intro hcode
        cases r with
        | ok u => cases hcode
        | error f =>
            have hprinted := printsLast_perform program env input request s f
            rw [hrun] at hprinted
            exact hprinted rfl

def bareSession : Session where
  root := .dir [("docs", .dir [("index.rst", .file (.text Placeholder.server))])]
  here := []

/-- Without a manifest a build ends at once. -/
theorem run_fails_without_trace_bare :
    ∃ outcome s', (run .docs ⟨⟨""⟩, none⟩ ["-C", "docs", "build"] "" : StateM Session Outcome)
        bareSession = (outcome, s') ∧
      s' = bareSession ∧ outcome.exitCode = 1 ∧ s'.printed = "" := by
  have hargs : Request.parse? .docs ["-C", "docs", "build"] = some (.build ⟨"docs"⟩ none) := by
    decide +kernel
  obtain ⟨e, hload⟩ : ∃ e, (bareSession.run (Config.load ⟨⟨""⟩, none⟩ ⟨"docs"⟩)).1 = .error e := by
    cases h : (bareSession.run (Config.load ⟨⟨""⟩, none⟩ ⟨"docs"⟩)).1 with
    | error e => exact ⟨e, rfl⟩
    | ok config =>
        have hnone : (bareSession.run (Config.load ⟨⟨""⟩, none⟩ ⟨"docs"⟩)).1.toOption = none := by
          decide +kernel
        rw [h] at hnone
        cases hnone
  obtain ⟨outcome, s', hrun, -, hbuild, hcode, hprint⟩ :=
    run_fails_without_trace hargs ⟨⟨""⟩, none⟩ "" bareSession
  obtain ⟨hexit, -⟩ := hcode ⟨"docs"⟩ e rfl hload
  exact ⟨outcome, s', hrun, ((hbuild ⟨"docs"⟩ none rfl).1 e hload).2, hexit, hprint hexit⟩

end Command

end DocStamp
