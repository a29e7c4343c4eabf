/-
Hooks on documents.

An application holds a configuration and the hooks that are connected to
its extension points.  When a document has been read, its text passes
through all hooks in the order in which they were connected.
-/
import DocStamp.Config
import DocStamp.Labels

namespace DocStamp

/-- A point at which hooks can be connected. -/
inductive ExtensionPoint where
  /-- The text of a document has been read. -/
  | sourceRead
deriving DecidableEq, Repr

namespace ExtensionPoint

def labels : Labels ExtensionPoint := ⟨[(.sourceRead, ["source-read"])]⟩

def name (p : ExtensionPoint) : String := (labels.label? p).getD "unknown"

/-- A name that no point has. -/
structure Unknown where
  name : String
deriving DecidableEq, Repr

def Unknown.message (u : Unknown) : String :=
  let names := ", ".intercalate (labels.all.map fun n => s!"`{n}`")
  s!"Unknown extension point `{u.name}`; expected one of: {names}"

def parse (name : String) : Except Unknown ExtensionPoint :=
  match labels.get? name with
  | some p => .ok p
  | none => .error ⟨name⟩

end ExtensionPoint

/-! ## Hooks -/

/-- What a hook sees of the application: its configuration and how many hooks there are. -/
structure View where
  config : Config
  handlers : Nat
deriving Repr

/-- Turns the text of a document, given by its name, into another. -/
abbrev Hook := View → String → String → String

/-- The hooks at each point, in the order of connection.  A point is listed from its first hook
on. -/
abbrev Registry := List (ExtensionPoint × List Hook)

namespace Registry

def hooksAt (registry : Registry) (point : ExtensionPoint) : List Hook :=
  (registry.lookup point).getD []

/-- Puts a hook behind the others of its point. -/
def add (point : ExtensionPoint) (hook : Hook) : Registry → Registry
  | [] => [(point, [hook])]
  | (other, hooks) :: registry =>
      if other = point then (other, hooks ++ [hook]) :: registry
      else (other, hooks) :: add point hook registry

end Registry

/-! ## Applications -/

/-- A configuration with hooks. -/
structure Application where
  config : Config
  registry : Registry

namespace Application

def new (config : Config) : Application := ⟨config, []⟩

def handlerCount (app : Application) (point : ExtensionPoint) : Nat :=
  (app.registry.hooksAt point).length

def connect (app : Application) (point : ExtensionPoint) (hook : Hook) : Application :=
  { app with registry := app.registry.add point hook }

def view (app : Application) : View := ⟨app.config, app.handlerCount .sourceRead⟩

/-- The text of a document after all hooks. -/
def emit (app : Application) (docname source : String) : String :=
  (app.registry.hooksAt .sourceRead).foldl (fun text hook => hook app.view docname text) source

/-- The points that are listed and how many hooks each has, as one line. -/
def summary (app : Application) : String :=
  let entry := fun (point, hooks) =>
    s!"({Text.quote (ExtensionPoint.name point)}, {List.length hooks})"
  "[" ++ ", ".intercalate (app.registry.map entry) ++ "]"

def stampHook (pluginVersion serverVersion : String) : Hook :=
  fun _ _ source => Placeholder.stamp pluginVersion serverVersion source

/-- Connects the hook that stamps documents with the versions of the configuration. -/
def setup (app : Application) : Application :=
  app.connect .sourceRead (stampHook app.config.versions.plugin app.config.versions.server)

section

variable {m : Type → Type} [Monad m] [Files.Host m]

def configure (env : Environment) (docsDir : Path) : ExceptT LoadError m Application := do
  return (new (← Config.load env docsDir)).setup

/-- Takes note of a document and gives its text after all hooks. -/
def process (app : Application) (docname source : String) : m String := do
  Files.Host.announce docname
  return app.emit docname source

end

end Application

end DocStamp
