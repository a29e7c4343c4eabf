/-
Showing where the configuration comes from, and what it says.
-/
import DocStamp.Command.Failure
import DocStamp.Settings.Write

namespace DocStamp.Command

open Files (Host)

section

variable {m : Type → Type} [Monad m] [Host m]

/-- The paths of the settings file and of the manifest. -/
def showPaths (env : Environment) (docsDir : Path) : ExceptT Failure m Unit := do
  let settings ← ExceptT.adapt .load (Settings.load env docsDir)
  let manifest := Path.resolve docsDir settings.manifest
  Host.print s!"Settings: {(Settings.path env docsDir).text}\nManifest: {manifest.text}\n"

def showConfig (env : Environment) (docsDir : Path) : ExceptT Failure m Unit := do
  let config ← ExceptT.adapt .load (Config.load env docsDir)
  Host.print config.write

end

end DocStamp.Command
