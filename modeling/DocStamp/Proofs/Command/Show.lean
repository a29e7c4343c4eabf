/-
# The configuration that is shown

Whatever configuration can be loaded, the text that shows it is read as
a map of the settings and the versions: the settings as they were
loaded, and each version as a text and nothing else.
-/
import DocStamp.Proofs.Command.Configure
import DocStamp.Proofs.Command.Run
import DocStamp.Proofs.Settings.RoundTrip

namespace DocStamp

open Files (Session)

/-! ## What is loaded -/

theorem Settings.isRead_of_loadFrom {s s' : Session} {p : Path} {settings : Settings}
    (h : s.run (Settings.loadFrom p) = (.ok settings, s')) :
    ∀ q ∈ settings.excludePatterns, IsRead q := by
  rw [Settings.loadFrom, Session.run_bind_ok (Session.run_readText LoadError s p)] at h
  cases hread : s.readText p with
  | error fault =>
      rw [hread] at h
      cases h
  | ok source =>
      rw [hread] at h
      cases hparse : Settings.parse source with
      | error e =>
          simp only [hparse] at h
          cases h
      | ok settings' =>
          simp only [hparse] at h
          cases h
          exact isRead_of_settings hparse

theorem Settings.isRead_of_load {s s' : Session} {env : Environment} {docsDir : Path}
    {settings : Settings} (h : s.run (Settings.load env docsDir) = (.ok settings, s')) :
    ∀ q ∈ settings.excludePatterns, IsRead q := by
  unfold Settings.load at h
  split at h
  · rw [Session.run_bind_ok (Session.run_pathExists LoadError s _)] at h
    cases hfound : s.pathExists (Settings.path env docsDir) with
    | true =>
        rw [hfound] at h
        exact isRead_of_loadFrom h
    | false =>
        rw [hfound] at h
        cases h
        exact isRead_default
  · exact isRead_of_loadFrom h

theorem Config.isRead_of_load {s : Session} {env : Environment} {docsDir : Path} {config : Config}
    (h : (s.run (Config.load env docsDir)).1 = .ok config) :
    ∀ q ∈ config.settings.excludePatterns, Settings.IsRead q := by
  cases hsettings : s.run (Settings.load env docsDir) with
  | mk r s' =>
      cases r with
      | error e =>
          rw [Config.load, Session.run_bind_error hsettings] at h
          cases h
      | ok settings =>
          rw [Config.load, Session.run_bind_ok hsettings] at h
          cases hversions : s'.run (Manifest.load (Path.resolve docsDir settings.manifest)) with
          | mk r s'' =>
              cases r with
              | error e =>
                  rw [Session.run_bind_error hversions] at h
                  cases h
              | ok versions =>
                  rw [Session.run_bind_ok hversions] at h
                  cases h
                  exact Settings.isRead_of_load hsettings

/-! ## What is shown -/

namespace Yaml

/-- A scalar with this text that stands for the text, not for a number, a truth value or nothing. -/
def IsText (n : Node) (s : String) : Prop :=
  ∃ m style, n = .scalar m none style s ∧ foundScalar none style s = .ok (.string s)

theorem isText_of_shown {n : Node} {s : String} (h : (Value.text s).Shown n) : IsText n s := by
  obtain ⟨m, rfl⟩ := h
  exact ⟨m, _, rfl, foundScalar_text s⟩

end Yaml

namespace Command

open Yaml (IsText)

theorem run_showConfig {s : Session} {env : Environment} {docsDir : Path} {config : Config}
    (hload : (s.run (Config.load env docsDir)).1 = .ok config) :
    s.run (showConfig env docsDir) = (.ok (), s.print config.write) := by
  have hadapt : s.run (ExceptT.adapt Failure.load (Config.load env docsDir)) = (.ok config, s) := by
    rw [Session.run_adapt, (Config.quiet_load env docsDir).run_eq s, hload]
    rfl
  rw [showConfig, Session.run_bind_ok hadapt, Session.run_print]

/-- If a configuration can be loaded, `show config` prints a text and does nothing else.  The text is
a map of the settings and the versions and of nothing else; its settings are read as those that
were loaded, and its versions are the texts that were loaded. -/
theorem run_shows_config {args : List String} {docsDir : Path}
    (hargs : Request.parse? .docs args = some (.showConfig docsDir)) {s : Session}
    {env : Environment} {config : Config}
    (hload : (s.run (Config.load env docsDir)).1 = .ok config) (input : String) :
    ∃ output d m settings versions plugin release server,
      (run .docs env args input : StateM Session Outcome) s = (.success, s.print output) ∧
      (∀ {α : Type} (blank : Except Yaml.Error α) (read : Yaml.Reader α),
        Yaml.decode blank read output = read d Yaml.rootPath (.mapping m (settings ++ versions))) ∧
      settings.map (fun e => Yaml.Fields.keyName? e.1) = Settings.fields.names.map some ∧
      Settings.read d Yaml.rootPath (.mapping m settings) = .ok config.settings ∧
      versions.map (fun e => (Yaml.Fields.keyName? e.1, e.2)) =
        [(some "plugin_version", plugin), (some "release", release),
          (some "yamcs_version", server)] ∧
      IsText plugin config.versions.plugin ∧ IsText release config.versions.release ∧
      IsText server config.versions.server := by
  have hne : config.settings.entries ++ config.versions.entries ≠ [] := List.cons_ne_nil _ _
  obtain ⟨d, m, ns, hns, hdecode⟩ := Yaml.decode_write hne config.writable
  obtain ⟨settings, versions, rfl, hsettings, hversions⟩ := hns.of_append
  -- The entries of the versions, one by one.
  obtain ⟨_, plugin, _, rfl, ⟨_, rfl⟩, hplugin, hversions⟩ := hversions
  obtain ⟨_, release, _, rfl, ⟨_, rfl⟩, hrelease, hversions⟩ := hversions
  obtain ⟨_, server, _, rfl, ⟨_, rfl⟩, hserver, rfl⟩ := hversions
  refine ⟨config.write, d, m, settings, _, plugin, release, server,
    run_of_perform hargs (run_showConfig hload), hdecode, hsettings.keys, ?_, rfl,
    Yaml.isText_of_shown hplugin, Yaml.isText_of_shown hrelease, Yaml.isText_of_shown hserver⟩
  exact Settings.reads_entries (Config.isRead_of_load hload) d _ _ ⟨m, settings, rfl, hsettings⟩

/-- Documents with a settings file, beside a manifest. -/
def settingsSession (source : String) : Session where
  root := .dir [("pom.xml", .file (.text sampleManifest)),
    ("docs", .dir [(Settings.fileName, .file (.text source))])]
  here := []

theorem load_settingsSession {source : String} {settings : Settings}
    (hparse : Settings.parse source = .ok settings)
    (hmanifest : settings.manifest = Settings.default.manifest) :
    ((settingsSession source).run (Config.load ⟨⟨""⟩, none⟩ ⟨"docs"⟩)).1 =
      .ok ⟨⟨"docs"⟩, ⟨"pom.xml"⟩, settings, ⟨"1", "1", "2"⟩⟩ := by
  have hexists : (settingsSession source).pathExists (Path.join ⟨"docs"⟩ ⟨Settings.fileName⟩) =
      true := rfl
  have hread : (settingsSession source).readText (Path.join ⟨"docs"⟩ ⟨Settings.fileName⟩) =
      .ok source := rfl
  have hversions : (settingsSession source).run (Manifest.load ⟨"pom.xml"⟩) =
      (.ok ⟨"1", "1", "2"⟩, settingsSession source) := by
    have hpom : (settingsSession source).readText ⟨"pom.xml"⟩ = .ok sampleManifest := rfl
    simp only [Manifest.load, Session.run_bind, Session.run_readText, hpom, parse_sampleManifest,
      Session.run_pure]
  have hfile : (settingsSession source).run (Settings.loadFrom (Path.join ⟨"docs"⟩
      ⟨Settings.fileName⟩)) = (.ok settings, settingsSession source) := by
    simp only [Settings.loadFrom, Session.run_bind, Session.run_readText, hread, hparse,
      Session.run_pure]
  have hsettings : (settingsSession source).run (Settings.load ⟨⟨""⟩, none⟩ ⟨"docs"⟩) =
      (.ok settings, settingsSession source) := by
    rw [Settings.load]
    simp only [Settings.path, Option.isNone_none, if_true, Session.run_bind,
      Session.run_pathExists, hexists, Bool.not_true]
    exact hfile
  have hpath : Path.resolve ⟨"docs"⟩ Settings.default.manifest = ⟨"pom.xml"⟩ := by decide
  rw [Config.load, Session.run_bind_ok hsettings, hmanifest, hpath, Session.run_bind_ok hversions]
  rfl

/-- Settings whose texts would be taken for something else if they were written as they are. -/
def mistakableSettings : Settings where
  project := ""
  copyright := "1e3"
  author := " two\n\nlines \n"
  extensions := ["null", "- a: b # c", "\x00\u0085", "'\""]
  sourceSuffix := "[.rst]"
  language := some "~"
  excludePatterns := ["no", "0x1f"].map Settings.literalPattern
  pygmentsStyle := "true"
  latexElements := ⟨"\t", "---", "é\r\n"⟩
  latexDocuments := [⟨"index", "? x", "|", "%", "\n"⟩]
  manifest := Settings.default.manifest

theorem isRead_mistakableSettings :
    ∀ p ∈ mistakableSettings.excludePatterns, Settings.IsRead p := by
  intro p hp
  obtain ⟨s, hs, rfl⟩ := List.mem_map.1 hp
  have hliteral : ["no", "0x1f"].all (·.toList.all Settings.isLiteral) = true := by decide
  exact Settings.isRead_literalPattern (List.all_eq_true.1 hliteral s hs)

/-- They are shown, and are read back. -/
theorem run_shows_config_mistakable :
    ∃ output d m settings versions,
      (run .docs ⟨⟨""⟩, none⟩ ["-C", "docs", "show", "config"] "" : StateM Session Outcome)
          (settingsSession (Yaml.write mistakableSettings.entries)) =
        (.success, (settingsSession (Yaml.write mistakableSettings.entries)).print output) ∧
      (∀ {α : Type} (blank : Except Yaml.Error α) (read : Yaml.Reader α),
        Yaml.decode blank read output = read d Yaml.rootPath (.mapping m (settings ++ versions))) ∧
      Settings.read d Yaml.rootPath (.mapping m settings) = .ok mistakableSettings := by
  have hargs : Request.parse? .docs ["-C", "docs", "show", "config"] =
      some (.showConfig ⟨"docs"⟩) := by
    decide +kernel
  have hload := load_settingsSession (Settings.parse_write isRead_mistakableSettings) rfl
  obtain ⟨output, d, m, settings, versions, plugin, release, server, hrun, hdecode, -, hread, -⟩ :=
    run_shows_config hargs hload ""
  exact ⟨output, d, m, settings, versions, hrun, hdecode, hread⟩

end Command

end DocStamp
