/-
Running a program: from arguments and input to what it does and how it
ends.

Each command prints once, and last: a text is known only when all else
has been done.  Asked for help, a program says how it is used and does
nothing else; the wording of help, and of complaints about arguments, is
left to the command line and no part of a run.
-/
import DocStamp.Command.Arguments
import DocStamp.Command.Preprocess
import DocStamp.Command.Render
import DocStamp.Command.Show

namespace DocStamp.Command

open Files (Host)

def Program.name : Program → String
  | .docs => "yamcs-docs"
  | .book => "mdbook-yamcs"

def version : String := "1.3.0"

/-- How a run ends. -/
inductive Outcome where
  /-- It has done what it was asked to do. -/
  | success
  | failure (reason : Failure)
  /-- The arguments were not understood. -/
  | misuse
deriving DecidableEq, Repr

namespace Outcome

def exitCode : Outcome → Nat
  | .success => 0
  | .failure _ => 1
  | .misuse => 2

/-- The outcome of a computation that may fail. -/
def ofExcept : Except Failure Unit → Outcome
  | .ok () => .success
  | .error reason => .failure reason

end Outcome

section

variable {m : Type → Type} [Monad m] [Host m]

/-- Does what is asked for, with the text that is given to preprocess. -/
def perform (program : Program) (env : Environment) (input : String) :
    Request → ExceptT Failure m Unit
  | .build docsDir out => build env docsDir out
  | .render docsDir file => render env docsDir file
  | .showPaths docsDir => showPaths env docsDir
  | .showConfig docsDir => showConfig env docsDir
  | .preprocess => do
      let book ← preprocess env input
      Host.print book.write
  -- Stamping does not depend on the renderer.
  | .supports _ => return ()
  | .version => Host.print s!"{program.name} {version}\n"
  | .help => return ()

def run (program : Program) (env : Environment) (args : List String) (input : String) :
    m Outcome := do
  match Request.parse? program args with
  | none => return .misuse
  | some request => return .ofExcept (← (perform program env input request).run)

end

end DocStamp.Command
