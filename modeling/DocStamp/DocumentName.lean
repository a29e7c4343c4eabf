/-
The names of documents.

A document is named by its path from the directory of documents, without
the suffix that all sources have.
-/
import DocStamp.Path.Basic
import DocStamp.Text.Replace

namespace DocStamp.Path

/-- The steps of a path, joined by slashes. -/
def stepText (p : Path) : String := joinPieces (p.steps.map Step.text)

/-- The name of the document at a path: its steps without the suffix. -/
def documentName (suffix : String) (p : Path) : String :=
  (Text.dropEnding? suffix p.stepText).getD p.stepText

end DocStamp.Path
