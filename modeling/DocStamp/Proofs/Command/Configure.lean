/-
# Loading a configuration

Loading reads files and changes none, and what it gives is known from
the settings and the versions: an application for the documents that
were asked for, with one hook.
-/
import DocStamp.Command.Build
import DocStamp.Proofs.Files.Operations

namespace DocStamp

open Files (Session)

/-! ## Loading a configuration changes nothing -/

theorem Settings.quiet_loadFrom (p : Path) :
    Session.Quiet (Settings.loadFrom p : ExceptT LoadError (StateM Session) Settings) := by
  refine (Session.quiet_readText p).bind fun r => ?_
  cases r with
  | error fault => exact Session.quiet_throw _
  | ok source =>
      cases h : Settings.parse source with
      | ok settings => simpa only [h] using Session.quiet_pure settings
      | error e => simpa only [h] using Session.quiet_throw _

theorem Settings.quiet_load (env : Environment) (docsDir : Path) :
    Session.Quiet (Settings.load env docsDir : ExceptT LoadError (StateM Session) Settings) := by
  unfold Settings.load
  split
  · refine (Session.quiet_pathExists _).bind fun found => ?_
    cases found with
    | false => exact Session.quiet_pure _
    | true => exact Settings.quiet_loadFrom _
  · exact Settings.quiet_loadFrom _

theorem Manifest.quiet_load (p : Path) :
    Session.Quiet (Manifest.load p : ExceptT LoadError (StateM Session) Versions) := by
  refine (Session.quiet_readText p).bind fun r => ?_
  cases r with
  | error fault => exact Session.quiet_throw _
  | ok source =>
      cases h : Manifest.parse source with
      | ok versions => simpa only [h] using Session.quiet_pure versions
      | error e => simpa only [h] using Session.quiet_throw _

theorem Config.quiet_load (env : Environment) (docsDir : Path) :
    Session.Quiet (Config.load env docsDir : ExceptT LoadError (StateM Session) Config) :=
  (Settings.quiet_load env docsDir).bind fun _ =>
    (Manifest.quiet_load _).bind fun _ => Session.quiet_pure _

theorem Config.docsDir_of_load {s s' : Session} {env : Environment} {docsDir : Path}
    {config : Config} (h : s.run (Config.load env docsDir) = (.ok config, s')) :
    config.docsDir = docsDir := by
  unfold Config.load at h
  rw [Session.run_bind] at h
  split at h
  · rw [Session.run_bind] at h
    split at h
    · cases h
      rfl
    · cases h
  · cases h

namespace Command

theorem quiet_configure (env : Environment) (docsDir : Path) :
    Session.Quiet (configure env docsDir : ExceptT Failure (StateM Session) Application) :=
  Session.Quiet.adapt ((Config.quiet_load env docsDir).bind fun _ => Session.quiet_pure _) _

theorem configure_run {s : Session} {env : Environment} {docsDir : Path} {app : Application}
    (h : (s.run (configure env docsDir)).1 = .ok app) :
    s.run (configure env docsDir) = (.ok app, s) := by
  rw [(quiet_configure env docsDir).run_eq s, h]

/-- A loaded application has one hook: the one that stamps documents. -/
theorem configure_ok {s s' : Session} {env : Environment} {docsDir : Path} {app : Application}
    (h : s.run (configure env docsDir) = (.ok app, s')) :
    ∃ config : Config, config.docsDir = docsDir ∧ app = (Application.new config).setup := by
  unfold configure Application.configure at h
  rw [Session.run_adapt, Session.run_bind] at h
  cases hload : s.run (Config.load env docsDir) with
  | mk r s₁ =>
      rw [hload] at h
      cases r with
      | error e => cases h
      | ok config =>
          cases h
          exact ⟨config, Config.docsDir_of_load hload, rfl⟩

theorem configure_of_load {s : Session} {env : Environment} {docsDir : Path} {config : Config}
    (h : (s.run (Config.load env docsDir)).1 = .ok config) :
    (s.run (configure env docsDir)).1 = .ok (Application.new config).setup := by
  unfold configure Application.configure
  rw [Session.run_adapt, Session.run_bind, (Config.quiet_load env docsDir).run_eq s, h]
  rfl

theorem emit_of_configure {s : Session} {env : Environment} {docsDir : Path} {app : Application}
    (h : (s.run (configure env docsDir)).1 = .ok app) (name text : String) :
    app.emit name text = app.config.versions.stamp text := by
  obtain ⟨config, -, rfl⟩ := configure_ok (configure_run h)
  rfl

/-! ## A manifest to work with -/

/-- A manifest with two versions. -/
def sampleManifest : String :=
  "<project xmlns=\"" ++ Manifest.nameSpace ++ "\"><version>1</version>" ++
    "<properties><yamcsVersion>2</yamcsVersion></properties></project>"

/-- The application for documents without settings of their own, beside this manifest. -/
def sampleApp (docsDir : Path) : Application :=
  (Application.new ⟨docsDir, ⟨"pom.xml"⟩, .default, ⟨"1", "1", "2"⟩⟩).setup

theorem parse_sampleManifest : Manifest.parse sampleManifest = .ok ⟨"1", "1", "2"⟩ :=
  Session.eq_ok_of_toOption (by decide +kernel)

theorem configure_sample {s : Session} {docsDir : Path}
    (hsettings : s.pathExists (docsDir.join ⟨Settings.fileName⟩) = false)
    (hpath : Path.resolve docsDir Settings.default.manifest = ⟨"pom.xml"⟩)
    (hmanifest : s.readText ⟨"pom.xml"⟩ = .ok sampleManifest) :
    (s.run (configure ⟨⟨""⟩, none⟩ docsDir)).1 = .ok (sampleApp docsDir) := by
  have hload : s.run (Settings.load ⟨⟨""⟩, none⟩ docsDir) = (.ok .default, s) := by
    rw [Settings.load]
    simp only [Settings.path, Option.isNone_none, if_true, Session.run_bind,
      Session.run_pathExists, hsettings, Bool.not_false, Session.run_pure]
  have hversions : s.run (Manifest.load ⟨"pom.xml"⟩) = (.ok ⟨"1", "1", "2"⟩, s) := by
    simp only [Manifest.load, Session.run_bind, Session.run_readText, hmanifest,
      parse_sampleManifest, Session.run_pure]
  have hconfig : (s.run (Config.load ⟨⟨""⟩, none⟩ docsDir)).1 =
      .ok ⟨docsDir, ⟨"pom.xml"⟩, .default, ⟨"1", "1", "2"⟩⟩ := by
    rw [Config.load, Session.run_bind_ok hload, hpath, Session.run_bind_ok hversions]
    rfl
  exact configure_of_load hconfig

end Command

end DocStamp
