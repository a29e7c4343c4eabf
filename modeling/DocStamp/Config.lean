/-
The configuration in force: settings and versions, read from files.

Settings come from a file named in the environment, or else from
`docs.yml` beside the documents; that file may be absent, a named one
may not.  The versions come from the manifest that the settings point
to.
-/
import DocStamp.Files.Host
import DocStamp.Path.Place
import DocStamp.Settings.Read
import DocStamp.Text.Quoted

namespace DocStamp

open Files (Fault Host)

/-- What the surroundings of a run say. -/
structure Environment where
  /-- The home directory. -/
  home : Path
  /-- The settings file that is asked for, if any; it may be the empty text. -/
  settingsFile : Option String
deriving DecidableEq, Repr

/-- Everything that a build depends on besides the documents. -/
structure Config where
  docsDir : Path
  manifestPath : Path
  settings : Settings
  versions : Versions
deriving DecidableEq, Repr

/-! ## Errors -/

/-- Why a configuration cannot be loaded. -/
inductive LoadError where
  | settingsFile (path : Path) (fault : Fault)
  | settings (path : Path) (error : Yaml.Error)
  | manifestFile (path : Path) (fault : Fault)
  | manifest (error : Manifest.Error)
deriving DecidableEq, Repr

def LoadError.message : LoadError → String
  | .settingsFile p _ | .settings p _ => s!"Error loading settings from {Text.quote p.text}"
  | .manifestFile _ _ | .manifest _ => "Error loading version information"

/-- What lies behind an error, outermost first. -/
def LoadError.causes : LoadError → List String
  | .settingsFile _ fault => [fault.message]
  | .settings _ error => [error.message]
  | .manifestFile p fault => [s!"Error reading manifest `{p.text}`", fault.message]
  | .manifest error => error.message :: error.causes

/-! ## Loading -/

def Settings.fileName : String := "docs.yml"

def Settings.path (env : Environment) (docsDir : Path) : Path :=
  match env.settingsFile with
  | some file => Path.expandHome env.home ⟨file⟩
  | none => docsDir.join ⟨fileName⟩

section

variable {m : Type → Type} [Monad m] [Host m]

/-- Reads settings from a file that has to exist. -/
def Settings.loadFrom (p : Path) : ExceptT LoadError m Settings := do
  match ← Host.readText p with
  | .error fault => throw (.settingsFile p fault)
  | .ok source =>
      match Settings.parse source with
      | .ok s => return s
      | .error e => throw (.settings p e)

/-- Reads the settings that hold for a directory of documents. -/
def Settings.load (env : Environment) (docsDir : Path) : ExceptT LoadError m Settings := do
  let p := Settings.path env docsDir
  if env.settingsFile.isNone then
    if !(← Host.pathExists p) then return Settings.default
  Settings.loadFrom p

def Manifest.load (p : Path) : ExceptT LoadError m Versions := do
  match ← Host.readText p with
  | .error fault => throw (.manifestFile p fault)
  | .ok source =>
      match Manifest.parse source with
      | .ok v => return v
      | .error e => throw (.manifest e)

/-- Reads the configuration for a directory of documents. -/
def Config.load (env : Environment) (docsDir : Path) : ExceptT LoadError m Config := do
  let settings ← Settings.load env docsDir
  let manifestPath := Path.resolve docsDir settings.manifest
  return ⟨docsDir, manifestPath, settings, ← Manifest.load manifestPath⟩

end

end DocStamp
