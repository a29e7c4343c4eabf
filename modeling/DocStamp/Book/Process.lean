/-
Passing every chapter of a book through the hooks of an application.

The items below a chapter come before the chapter itself.
-/
import DocStamp.Application
import DocStamp.Book.Basic

namespace DocStamp.Book

section

variable {m : Type → Type} [Monad m] [Files.Host m]

mutual

/-- Passes the chapters at and below an item through the hooks. -/
def processItem (app : Application) : Item → m Item
  | .chapter c items => do
      let items ← processItems app items
      let content ← app.process c.documentName c.content
      return .chapter { c with content := content } items
  | .separator => return .separator
  | .partTitle title => return .partTitle title

/-- Passes the chapters at and below items through the hooks, in order. -/
def processItems (app : Application) : List Item → m (List Item)
  | [] => return []
  | item :: items => do
      let item ← processItem app item
      return item :: (← processItems app items)

end

def process (app : Application) (b : Book) : m Book := do
  return ⟨← processItems app b.items⟩

end

end DocStamp.Book
