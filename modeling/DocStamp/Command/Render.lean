/-
Rendering: one document goes through the hooks onto the screen.
-/
import DocStamp.Command.Build

namespace DocStamp.Command

open Files (Host)

/-- The path of a file from the documents; outside of them, its name alone. -/
def relativeToDocs (file docsDir : Path) : Path :=
  let file := Path.resolve ⟨"."⟩ file
  let docsDir := Path.resolve ⟨"."⟩ docsDir
  let relative? :=
    if docsDir.text == "." && !file.isAbsolute then some file else file.below? docsDir
  match relative? with
  | some relative => if relative.steps.head? == some .up then lastName file else relative
  | none => lastName file
where
  /-- The last name of a path, or the path itself if it has none. -/
  lastName (file : Path) : Path :=
    match file.fileName? with
    | some n => ⟨n⟩
    | none => file

section

variable {m : Type → Type} [Monad m] [Host m]

def renderWith (app : Application) (docsDir file : Path) : ExceptT Failure m Unit := do
  let source ← readDocument file
  let name := (relativeToDocs file docsDir).documentName app.config.settings.sourceSuffix
  Host.print (← app.process name source)

def render (env : Environment) (docsDir file : Path) : ExceptT Failure m Unit := do
  renderWith (← configure env docsDir) docsDir file

end

end DocStamp.Command
