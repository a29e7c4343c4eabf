/-
Reading books.
-/
import DocStamp.Book.Basic
import DocStamp.Book.Context

namespace DocStamp.Book

open Json (Reader Record Variant)

/-- The fields of a chapter with its items, given the reader of items. -/
def chapterRecord (readItem : Reader Item) : Record (Chapter × List Item) where
  expected := "struct Chapter"
  fields := [
    .of "name" true readText fun c v => ({ c.1 with name := v }, c.2),
    .of "content" true readText fun c v => ({ c.1 with content := v }, c.2),
    .of "number" false (Json.optional (Json.list Json.natural)) fun c v =>
      ({ c.1 with number := v }, c.2),
    .of "sub_items" true (Json.list readItem) fun c v => (c.1, v),
    .of "path" false (Json.optional readPath) fun c v => ({ c.1 with path := v }, c.2),
    .of "source_path" false (Json.optional readPath) fun c v =>
      ({ c.1 with sourcePath := v }, c.2),
    .of "parent_names" true (Json.list readText) fun c v => ({ c.1 with parentNames := v }, c.2)]
  closed := false
  short := false

/-- A chapter with nothing in it. -/
def blankChapter : Chapter := ⟨"", "", none, none, none, []⟩

/-- The alternatives of an item, given the reader of the items below. -/
def itemVariants (readItem : Reader Item) : List (Variant Item) := [
  .carrying "Chapter" ((chapterRecord readItem).read (blankChapter, [])) fun c =>
    .chapter c.1 c.2,
  .plain "Separator" .separator,
  .carrying "PartTitle" readText .partTitle]

/-- Reads an item with at most `n` items around each other. -/
def readItem : Nat → Reader Item
  | 0 => fun _ _ => .error .tooDeep
  | n + 1 => Variant.readOne (itemVariants (readItem n))

def record : Record Book where
  expected := "struct Book"
  fields := [.of "items" true (Json.list (readItem Json.levels)) fun _ v => ⟨v⟩]
  closed := false
  short := false

def read : Reader Book := record.read ⟨[]⟩

def readBoth : Reader (Context × Book) :=
  Json.tuple "a tuple of size 2" [
    .of "context" true Context.read fun b v => (v, b.2),
    .of "book" true read fun b v => (b.1, v)] (⟨⟨""⟩, "", ""⟩, ⟨[]⟩)

/-- Reads a text that holds a context and a book. -/
def parse (source : String) : Except Json.Error (Context × Book) := Json.parse readBoth source

end DocStamp.Book
