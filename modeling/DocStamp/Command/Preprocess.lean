/-
Preprocessing a book that another program sends.
-/
import DocStamp.Book.Process
import DocStamp.Book.Read
import DocStamp.Book.Write
import DocStamp.Command.Build

namespace DocStamp.Command

open Files (Host)

section

variable {m : Type → Type} [Monad m] [Host m]

/-- Processes a book with the configuration of its root. -/
def processBook (env : Environment) (context : Book.Context) (book : Book) :
    ExceptT Failure m Book := do
  let app ← configure env context.root
  book.process app

/-- Processes a book that comes as text. -/
def preprocess (env : Environment) (input : String) : ExceptT Failure m Book := do
  match Book.parse input with
  | .error e => throw (.book e)
  | .ok (context, book) => processBook env context book

end

end DocStamp.Command
