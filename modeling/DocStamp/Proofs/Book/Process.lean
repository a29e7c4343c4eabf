/-
# Passing a book through the hooks

Processing a book puts another content into every chapter, at any depth,
and leaves all else alone (`run_process`).  Every chapter is announced
once, after the chapters below it.
-/
import DocStamp.Book.Process
import DocStamp.Proofs.Book.RoundTrip
import DocStamp.Proofs.Files.Operations
import DocStamp.Proofs.Path.Pieces

namespace DocStamp.Book

open Files (Session)

mutual

/-- The same items, with other chapters in the places of the chapters. -/
def Item.map (f : Chapter → Chapter) : Item → Item
  | .chapter c items => .chapter (f c) (Item.mapAll f items)
  | .separator => .separator
  | .partTitle title => .partTitle title

def Item.mapAll (f : Chapter → Chapter) : List Item → List Item
  | [] => []
  | item :: items => item.map f :: Item.mapAll f items

end

mutual

/-- The chapters at and below an item, those below a chapter before the chapter itself. -/
def Item.chapters : Item → List Chapter
  | .chapter c items => Item.chaptersOf items ++ [c]
  | .separator => []
  | .partTitle _ => []

def Item.chaptersOf : List Item → List Chapter
  | [] => []
  | item :: items => item.chapters ++ Item.chaptersOf items

end

/-- The same book, with other chapters in the places of its chapters. -/
def map (f : Chapter → Chapter) (b : Book) : Book := ⟨Item.mapAll f b.items⟩

def chapters (b : Book) : List Chapter := Item.chaptersOf b.items

theorem mapAll_eq_map (f : Chapter → Chapter) (items : List Item) :
    Item.mapAll f items = items.map (Item.map f) := by
  induction items with
  | nil => rfl
  | cons item items ih => rw [Item.mapAll, ih, List.map_cons]

/-- Levels are counted by the numbers of chapters and by how they lie in each other. -/
theorem Item.Fits.map {f : Chapter → Chapter} (hf : ∀ c, (f c).number = c.number) {depth : Nat}
    {item : Item} (h : item.Fits depth) : (item.map f).Fits depth := by
  induction h with
  | @chapter depth c items levels number below ih =>
      rw [Item.map, mapAll_eq_map]
      refine .chapter levels (hf c ▸ number) fun item hitem => ?_
      obtain ⟨old, hold, rfl⟩ := List.mem_map.1 hitem
      exact ih old hold
  | separator depth => exact .separator depth
  | partTitle levels title => exact .partTitle levels title

theorem Fits.map {f : Chapter → Chapter} (hf : ∀ c, (f c).number = c.number) {depth : Nat}
    {b : Book} (h : b.Fits depth) : (b.map f).Fits depth := by
  intro item hitem
  rw [Book.map, mapAll_eq_map] at hitem
  obtain ⟨old, hold, rfl⟩ := List.mem_map.1 hitem
  exact (h old hold).map hf

section

variable {ε : Type} (app : Application)

/-- A chapter with the text that the hooks make of its own. -/
def emitted (c : Chapter) : Chapter := { c with content := app.emit c.documentName c.content }

/-- A session that has taken note of chapters. -/
def noted (s : Session) (cs : List Chapter) : Session :=
  { s with documents := s.documents ++ cs.map Chapter.documentName }

theorem noted_append (s : Session) (cs ds : List Chapter) :
    noted s (cs ++ ds) = noted (noted s cs) ds := by
  simp [noted]

theorem run_process_chapter (c : Chapter) (s : Session) :
    s.run (app.process c.documentName c.content : ExceptT ε (StateM Session) String) =
      (.ok (emitted app c).content, noted s [c]) := by
  rw [Application.process, Session.run_bind, Session.run_announce]
  rfl

mutual

theorem run_processItem (item : Item) (s : Session) :
    s.run (processItem app item : ExceptT ε (StateM Session) Item) =
      (.ok (item.map (emitted app)), noted s item.chapters) := by
  match item with
  | .chapter c items =>
      rw [processItem, Session.run_bind_ok (run_processItems items s),
        Session.run_bind_ok (run_process_chapter app c _), Item.chapters, noted_append]
      rfl
  | .separator => simp [processItem, Item.map, Item.chapters, noted]
  | .partTitle title => simp [processItem, Item.map, Item.chapters, noted]

theorem run_processItems (items : List Item) (s : Session) :
    s.run (processItems app items : ExceptT ε (StateM Session) (List Item)) =
      (.ok (Item.mapAll (emitted app) items), noted s (Item.chaptersOf items)) := by
  match items with
  | [] => simp [processItems, Item.mapAll, Item.chaptersOf, noted]
  | item :: items =>
      rw [processItems, Session.run_bind_ok (run_processItem item s),
        Session.run_bind_ok (run_processItems items _), Item.chaptersOf, noted_append]
      rfl

end

theorem run_process (b : Book) (s : Session) :
    s.run (b.process app : ExceptT ε (StateM Session) Book) =
      (.ok (b.map (emitted app)), noted s b.chapters) := by
  rw [process, Session.run_bind_ok (run_processItems app b.items s)]
  rfl

end

end DocStamp.Book
