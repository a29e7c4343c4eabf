/-
Books: chapters inside each other, with separators and part titles.
-/
import DocStamp.DocumentName

namespace DocStamp

/-- A chapter, without the items below it. -/
structure Chapter where
  name : String
  content : String
  /-- The number of the chapter, level by level. -/
  number : Option (List Nat)
  path : Option Path
  sourcePath : Option Path
  /-- The names of the chapters that it lies in, outermost first. -/
  parentNames : List String
deriving DecidableEq, Repr

namespace Chapter

/-- What the paths of chapters end with. -/
def suffix : String := ".md"

/-- The name of a chapter as a document: by its path, or by its place in the book. -/
def documentName (c : Chapter) : String :=
  match c.path with
  | some p => p.documentName suffix
  | none => "/".intercalate (c.parentNames ++ [c.name])

end Chapter

namespace Book

inductive Item where
  /-- A chapter with the items below it. -/
  | chapter (c : Chapter) (items : List Item)
  | separator
  | partTitle (title : String)
deriving Repr

end Book

structure Book where
  items : List Book.Item
deriving Repr

end DocStamp
