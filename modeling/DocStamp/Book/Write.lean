/-
Writing books.
-/
import DocStamp.Book.Basic
import DocStamp.Json.Write

namespace DocStamp.Book

open Json (writeString writeList writeObject writeOption writeNat)

def writeChapter (c : Chapter) (items : List (List Char)) : List Char :=
  writeObject [
    ("name", writeString c.name),
    ("content", writeString c.content),
    ("number", writeOption (fun ns => writeList (ns.map writeNat)) c.number),
    ("sub_items", writeList items),
    ("path", writeOption (fun p => writeString p.text) c.path),
    ("source_path", writeOption (fun p => writeString p.text) c.sourcePath),
    ("parent_names", writeList (c.parentNames.map writeString))]

mutual

def writeItem : Item → List Char
  | .chapter c items => writeObject [("Chapter", writeChapter c (writeItems items))]
  | .separator => writeString "Separator"
  | .partTitle title => writeObject [("PartTitle", writeString title)]

def writeItems : List Item → List (List Char)
  | [] => []
  | item :: items => writeItem item :: writeItems items

end

/-- The text of a book. -/
def write (b : Book) : String :=
  String.ofList (writeObject [("items", writeList (writeItems b.items))])

end DocStamp.Book
