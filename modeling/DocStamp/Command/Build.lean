/-
Building: every source goes through the hooks into the output directory.
-/
import DocStamp.Application
import DocStamp.Command.Failure
import DocStamp.Command.Sources
import DocStamp.DocumentName

namespace DocStamp.Command

open Files (Host)

section

variable {m : Type → Type} [Monad m] [Host m]

def configure (env : Environment) (docsDir : Path) : ExceptT Failure m Application :=
  ExceptT.adapt .load (Application.configure env docsDir)

def readDocument (p : Path) : ExceptT Failure m String := do
  match ← Host.readText p with
  | .ok source => return source
  | .error fault => throw (.read p fault)

/-- Writes a document, in a directory that is made if need be. -/
def writeDocument (p : Path) (text : String) : ExceptT Failure m Unit := do
  match ← Files.ensureParent p with
  | .error fault => throw (.write p fault)
  | .ok () =>
      match ← Host.writeText p text with
      | .ok () => return ()
      | .error fault => throw (.write p fault)

/-- Builds the document at a path below the documents. -/
def buildDocument (app : Application) (out : Path) (relative : Path) : ExceptT Failure m Unit := do
  let source ← readDocument (app.config.docsDir.join relative)
  let name := relative.documentName app.config.settings.sourceSuffix
  let text ← app.process name source
  writeDocument (out.join relative) text

/-- Where the output goes by default, seen from the documents. -/
def defaultOutput : Path := ⟨"_build/source"⟩

/-- Finds the sources of an application that are to be built into a directory. -/
def sourcesFor (app : Application) (out : Path) : ExceptT Failure m (List Path) := do
  let config := app.config
  let placement := Placement.of (← Host.currentDir) config.docsDir out
  match placement with
  | .same out => throw (.outputIsDocs out)
  | _ =>
      ExceptT.adapt (.scan config.docsDir)
        (findSources config.settings config.docsDir placement.skipped?)

/-- What is said when `n` documents have been built. -/
def builtLine (n : Nat) (out : Path) : String := s!"Processed {n} document(s) into {out.text}\n"

/-- Builds all documents of an application, and says so at the end. -/
def buildAll (app : Application) (out : Path) : ExceptT Failure m Unit := do
  let sources ← sourcesFor app out
  sources.forM (buildDocument app out)
  Host.print (builtLine sources.length out)

def build (env : Environment) (docsDir : Path) (out : Option Path) : ExceptT Failure m Unit := do
  let app ← configure env docsDir
  buildAll app (out.getD (docsDir.join defaultOutput))

end

end DocStamp.Command
