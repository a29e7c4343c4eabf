/-
# Preprocessing changes the contents of chapters and nothing else

A book that comes as text is read, processed and written again.  Whoever
reads what was written finds the book that came, with every content
passed through the hooks (`preprocess_maps_chapters`).

A chapter is announced by its document name.  With a path, that is the
steps of the path joined by slashes, without `.md`; the text of the path
itself may have more slashes than that.
-/
import DocStamp.Proofs.Book.Process
import DocStamp.Proofs.Command.Configure
import DocStamp.Proofs.Command.Run

namespace DocStamp.Command

open Files (Session)

theorem run_preprocess {s : Session} {env : Environment} {input : String} {context : Book.Context}
    {book : Book} {app : Application} (hparse : Book.parse input = .ok (context, book))
    (happ : (s.run (configure env context.root)).1 = .ok app) (program : Program) :
    s.run (perform program env input .preprocess) =
      (.ok (), (Book.noted s book.chapters).print (book.map (Book.emitted app)).write) := by
  have hprocess : s.run (preprocess env input) =
      (.ok (book.map (Book.emitted app)), Book.noted s book.chapters) := by
    simp only [preprocess, hparse, processBook]
    rw [Session.run_bind_ok (configure_run happ), Book.run_process]
  rw [perform, Session.run_bind_ok hprocess, Session.run_print]

/-- A book that is accepted comes out as it came in, with the contents of its chapters passed
through the hooks under their document names.  Every chapter is announced once, after the
chapters below it. -/
theorem preprocess_maps_chapters {s : Session} {program : Program} {args : List String}
    {env : Environment} {input : String} {context : Book.Context} {book : Book} {app : Application}
    (hargs : Request.parse? program args = some .preprocess)
    (hparse : Book.parse input = .ok (context, book))
    (happ : (s.run (configure env context.root)).1 = .ok app) :
    ∃ output,
      (run program env args input : StateM Session Outcome) s =
        (.success, { s with
          documents := s.documents ++ book.chapters.map Chapter.documentName,
          printed := s.printed ++ output }) ∧
      Json.parse Book.read output =
        .ok (book.map fun c => { c with content := app.emit c.documentName c.content }) ∧
      ∀ c ∈ book.chapters,
        (c.path = none → c.documentName = "/".intercalate (c.parentNames ++ [c.name])) ∧
        ∀ p, c.path = some p →
          (".md".toList <:+ p.stepText.toList → c.documentName ++ ".md" = p.stepText) ∧
          (¬ ".md".toList <:+ p.stepText.toList → c.documentName = p.stepText) ∧
          (p.Named → p.stepText = p.text) := by
  refine ⟨_, run_of_perform hargs (run_preprocess hparse happ program), ?_, fun c _ => ⟨?_, ?_⟩⟩
  · -- The book is written with one level less around it than it was read with.
    have hnumber : ∀ c, (Book.emitted app c).number = c.number := fun _ => rfl
    exact Book.parse_write (((Book.fits_of_parse hparse).map hnumber).mono (by decide))
  · intro hpath
    rw [Chapter.documentName, hpath]
  · intro p hpath
    rw [Chapter.documentName, hpath]
    exact ⟨Path.documentName_of_suffix, Path.documentName_of_not_suffix, Path.Named.stepText_eq⟩

def manifestSession : Session where
  root := .dir [("pom.xml", .file (.text sampleManifest))]
  here := []

theorem configure_manifestSession :
    (manifestSession.run (configure ⟨⟨""⟩, none⟩ ⟨"book"⟩)).1 = .ok (sampleApp ⟨"book"⟩) :=
  configure_sample rfl (by decide) rfl

def sampleContext : Book.Context := ⟨⟨"book"⟩, "html", "0.5.4"⟩

/-- A chapter below another one, with a part title before and a separator behind. -/
def nestedBook (content : String) : Book where
  items := [
    .partTitle "Part",
    .chapter ⟨"A", content, some [1], some ⟨"a.md"⟩, none, []⟩
      [.chapter ⟨"B", content, none, none, none, ["A"]⟩ []],
    .separator]

theorem nestedBook_fits (content : String) : (nestedBook content).Fits (Json.levels - 3) := by
  have hinner : (Book.Item.chapter ⟨"B", content, none, none, none, ["A"]⟩ []).Fits 4 :=
    .chapter (by decide) (by simp) (by simp)
  have houter : (Book.Item.chapter ⟨"A", content, some [1], some ⟨"a.md"⟩, none, []⟩
      [.chapter ⟨"B", content, none, none, none, ["A"]⟩ []]).Fits 7 := by
    refine .chapter (by decide) ?_ (by simpa using hinner)
    simp
  intro item hitem
  simp only [nestedBook, List.mem_cons, List.not_mem_nil, or_false] at hitem
  rcases hitem with rfl | rfl | rfl
  · exact .partTitle (by decide) _
  · exact houter.mono (by decide)
  · exact .separator _

/-- Both chapters are stamped, and the one below comes first. -/
theorem preprocess_maps_chapters_nested :
    ∃ output,
      (run .book ⟨⟨""⟩, none⟩ [] (Book.send sampleContext (nestedBook Placeholder.server)) :
          StateM Session Outcome) manifestSession =
        (.success, { manifestSession with documents := ["A/B", "a"], printed := output }) ∧
      Json.parse Book.read output = .ok (nestedBook "2") := by
  have hparse := Book.parse_send sampleContext (nestedBook_fits Placeholder.server)
  have hargs : Request.parse? .book [] = some .preprocess := rfl
  obtain ⟨output, hrun, hread, -⟩ :=
    preprocess_maps_chapters hargs hparse configure_manifestSession
  have hnames : (nestedBook Placeholder.server).chapters.map Chapter.documentName = ["A/B", "a"] := by
    decide +kernel
  have hemit (name : String) : (sampleApp ⟨"book"⟩).emit name Placeholder.server = "2" := by
    rw [emit_of_configure configure_manifestSession]
    decide +kernel
  refine ⟨output, ?_, hread.trans ?_⟩
  · rw [hrun, hnames]
    rfl
  · simp only [nestedBook, Book.map, Book.Item.mapAll, Book.Item.map, hemit]

def slashBook : Book where
  items := [.chapter ⟨"B", "", none, some ⟨"a//b.md"⟩, none, []⟩ []]

/-- The text of its path without `.md` is not the name that the chapter is announced by. -/
theorem preprocess_slash_announces_steps :
    ∃ context app s', Book.parse (Book.send sampleContext slashBook) = .ok (context, slashBook) ∧
      (manifestSession.run (configure ⟨⟨""⟩, none⟩ context.root)).1 = .ok app ∧
      (run .book ⟨⟨""⟩, none⟩ [] (Book.send sampleContext slashBook) : StateM Session Outcome)
        manifestSession = (.success, s') ∧
      slashBook.chapters.map Chapter.path = [some ⟨"a//b.md"⟩] ∧
      s'.documents = ["a/b"] ∧ ∀ name ∈ s'.documents, name ++ ".md" ≠ "a//b.md" := by
  have hfits : slashBook.Fits (Json.levels - 3) := by
    intro item hitem
    obtain rfl := List.mem_singleton.1 hitem
    exact .chapter (by decide) (by simp) (by simp)
  have hparse := Book.parse_send sampleContext hfits
  have hargs : Request.parse? .book [] = some .preprocess := rfl
  have hnames : slashBook.chapters.map Chapter.documentName = ["a/b"] := by
    decide +kernel
  refine ⟨sampleContext, _, _, hparse, configure_manifestSession,
    run_of_perform hargs (run_preprocess hparse configure_manifestSession .book), by decide +kernel, ?_⟩
  have hdocuments (text : String) :
      ((Book.noted manifestSession slashBook.chapters).print text).documents = ["a/b"] := hnames
  rw [hdocuments]
  decide +kernel

end DocStamp.Command
