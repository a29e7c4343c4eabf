/-
Why a command fails, and how it says so.
-/
import DocStamp.Config
import DocStamp.Json.Error

namespace DocStamp.Command

open Files (Fault)

inductive Failure where
  | load (error : LoadError)
  /-- The output would overwrite the documents. -/
  | outputIsDocs (out : Path)
  | scan (docsDir : Path) (fault : Fault)
  | read (path : Path) (fault : Fault)
  | write (path : Path) (fault : Fault)
  | book (error : Json.Error)
deriving DecidableEq, Repr

namespace Failure

/-- The outermost wording of a failure. -/
def message : Failure → String
  | .load e => e.message
  | .outputIsDocs out => s!"Output directory {Text.quote out.text} is the docs directory"
  | .scan p _ => s!"Error scanning sources in {Text.quote p.text}"
  | .read p _ => s!"Error reading {Text.quote p.text}"
  | .write p _ => s!"Error writing {Text.quote p.text}"
  | .book _ => "Unable to parse the input"

/-- What lies behind a failure, outermost first. -/
def causes : Failure → List String
  | .load e => e.causes
  | .outputIsDocs _ => []
  | .scan _ fault | .read _ fault | .write _ fault => [fault.message]
  | .book e => [e.message]

/-- The failure and what lies behind it, line by line. -/
def report (f : Failure) : String :=
  String.join ((f.message :: f.causes.map ("  " ++ ·)).map (· ++ "\n"))

end Failure

end DocStamp.Command
