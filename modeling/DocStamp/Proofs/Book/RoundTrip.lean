/-
# Books are read back as they were written

Lists and objects may lie inside each other only so deep, and a chapter
inside another one takes three levels more.  `Item.Fits` says that an
item has the levels it needs, and that the numbers of its chapters are
numbers that can be read.

Every item that was read fits (`gives_readItem`), and every item that
fits is read back from its text (`reads_item`).  A book is written with
one level more than it was read with, so what was read can always be
read again (`parse_write`).
-/
import DocStamp.Book.Read
import DocStamp.Book.Write
import DocStamp.Proofs.Json.Accepted

namespace DocStamp.Book

open Json (Reads Gives Record Variant reads_string reads_list writeString writeList writeOption
  writeNat)

/-- An item that can be read, and read back, with a number of levels left. -/
inductive Item.Fits : Nat → Item → Prop where
  | chapter {depth : Nat} {c : Chapter} {items : List Item} (levels : 1 ≤ depth)
      (number : ∀ ns ∈ c.number, ∀ n ∈ ns, n < 0x100000000)
      (below : ∀ item ∈ items, item.Fits depth) : Fits (depth + 3) (.chapter c items)
  | separator (depth : Nat) : Fits depth .separator
  | partTitle {depth : Nat} (levels : 2 ≤ depth) (title : String) : Fits depth (.partTitle title)

theorem Item.Fits.mono {depth depth' : Nat} {item : Item} (h : item.Fits depth)
    (hle : depth ≤ depth') : item.Fits depth' := by
  induction h generalizing depth' with
  | @chapter depth c items levels number below ih =>
      obtain ⟨d, rfl⟩ : ∃ d, depth' = d + 3 := ⟨depth' - 3, by omega⟩
      exact .chapter (by omega) number fun item hitem => ih item hitem (by omega)
  | separator => exact .separator _
  | partTitle levels title => exact .partTitle (by omega) title

/-! ## Whatever is read fits -/

theorem nodup_chapterRecord (readItem : Json.Reader Item) :
    (chapterRecord readItem).names.Nodup := by
  simp +decide [Record.names, chapterRecord, Json.Field.of]

/-- What holds while the fields of a chapter are taken in. -/
structure Sound (depth : Nat) (c : Chapter × List Item) : Prop where
  number : ∀ ns ∈ c.1.number, ∀ n ∈ ns, n < 0x100000000
  below : ∀ item ∈ c.2, item.Fits depth

section

variable {readItem : Json.Reader Item} {depth : Nat}

theorem sound_field (h : Gives readItem (depth - 1) (Item.Fits (depth - 1)))
    {f : Json.Field (Chapter × List Item)} (hf : f ∈ (chapterRecord readItem).fields)
    {c : Chapter × List Item} (hc : Sound (depth - 1) c) :
    Gives (f.read c) depth (Sound (depth - 1)) := by
  have hnumber : Gives (Json.optional (Json.list Json.natural)) depth fun v =>
      ∀ ns ∈ v, ∀ n ∈ ns, n < 0x100000000 :=
    Json.gives_natural.list.optional.mono fun v hv ns hns => (hv ns hns).2
  have hbelow : Gives (Json.list readItem) depth fun v => ∀ item ∈ v, item.Fits (depth - 1) :=
    h.list.mono fun v hv => hv.2
  simp only [chapterRecord, List.mem_cons, List.not_mem_nil, or_false] at hf
  rcases hf with rfl | rfl | rfl | rfl | rfl | rfl | rfl
  case inr.inr.inl => exact .field (hnumber.mono fun v hv => ⟨hv, hc.below⟩)
  case inr.inr.inr.inl => exact .field (hbelow.mono fun v hv => ⟨hc.number, hv⟩)
  -- The other fields touch neither the number nor the items below.
  all_goals exact .field fun _ _ _ _ => ⟨hc.number, hc.below⟩

theorem gives_chapter (h : Gives readItem (depth - 1 - 1) (Item.Fits (depth - 1 - 1))) :
    Gives ((chapterRecord readItem).read (blankChapter, [])) depth fun c =>
      3 ≤ depth ∧ Sound (depth - 1 - 1) c := by
  intro cs c rest hread
  obtain ⟨hdepth, fs, htook, hfs, hall⟩ := Record.took_read rfl (nodup_chapterRecord readItem) hread
  have hblank : Sound (depth - 1 - 1) (blankChapter, []) := ⟨by simp [blankChapter], by simp⟩
  refine ⟨?_, htook.invariant (fun f hf c hc => sound_field h (hfs f hf) hc) hblank⟩
  -- The items below are always a list, which takes a level.
  obtain ⟨c', cs', out, hitems⟩ := htook.exists_read (hall
    (.of "sub_items" true (Json.list readItem) fun c v => (c.1, v)) (by simp [chapterRecord]) rfl)
  obtain ⟨⟨items, rest'⟩, hitems, -⟩ := Json.ok_of_bind hitems
  have hlevels := (h.list _ _ _ hitems).1
  omega

end

theorem gives_readItem (n depth : Nat) : Gives (readItem n) depth (Item.Fits depth) := by
  induction n generalizing depth with
  | zero =>
      intro cs item rest hread
      cases hread
  | succ n ih =>
      refine Variant.gives_readOne ?_ fun hdepth v hv => ?_
      · intro v hv item hitem
        simp only [itemVariants, List.mem_cons, List.not_mem_nil, or_false] at hv
        rcases hv with rfl | rfl | rfl
        · cases hitem
        · cases hitem
          exact .separator depth
        · cases hitem
      · simp only [itemVariants, List.mem_cons, List.not_mem_nil, or_false] at hv
        rcases hv with rfl | rfl | rfl
        · refine .carrying ((gives_chapter (ih (depth - 1 - 1 - 1))).mono ?_)
          rintro c ⟨hlevels, hc⟩
          obtain ⟨d, rfl⟩ : ∃ d, depth = d + 3 := ⟨depth - 3, by omega⟩
          exact .chapter (by omega) hc.number hc.below
        · intro cs item rest hread
          obtain ⟨out, -, h⟩ := Json.ok_of_bind hread
          cases h
          exact .separator depth
        · exact .carrying fun _ title _ _ => .partTitle hdepth title

def Fits (depth : Nat) (b : Book) : Prop := ∀ item ∈ b.items, item.Fits depth

theorem Fits.mono {depth depth' : Nat} {b : Book} (h : b.Fits depth) (hle : depth ≤ depth') :
    b.Fits depth' :=
  fun item hitem => (h item hitem).mono hle

theorem gives_read (depth : Nat) : Gives read depth (Fits (depth - 1 - 1)) := by
  intro cs b rest hread
  obtain ⟨-, fs, htook, hfs, -⟩ := Record.took_read rfl (by simp [record, Record.names]) hread
  refine htook.invariant (P := Fits (depth - 1 - 1)) (fun f hf b _ => ?_) (List.forall_mem_nil _)
  rw [List.mem_singleton.1 (hfs f hf)]
  exact .field ((gives_readItem _ _).list.mono fun items h => h.2)

/-- Three levels lie around the items of a book that comes with its context. -/
theorem fits_of_parse {source : String} {context : Context} {b : Book}
    (h : parse source = .ok (context, b)) : b.Fits (Json.levels - 3) := by
  have hboth : Gives readBoth Json.levels fun x => x.2.Fits (Json.levels - 3) := by
    intro cs x rest hread
    obtain ⟨-, htook⟩ := Json.took_tuple hread
    refine htook.invariant (P := fun x => x.2.Fits (Json.levels - 3)) (fun f hf x hx => ?_)
      (List.forall_mem_nil _)
    simp only [List.mem_cons, List.not_mem_nil, or_false] at hf
    rcases hf with rfl | rfl
    · exact .field fun _ _ _ _ => hx
    · exact .field (gives_read _)
  exact hboth.of_parse h

/-! ## Whatever fits is read back -/

theorem writeItems_eq_map (items : List Item) : writeItems items = items.map writeItem := by
  induction items with
  | nil => rfl
  | cons item items ih => rw [writeItems, ih, List.map_cons]

theorem reads_path (p : Path) (depth : Nat) : Reads readPath depth (writeString p.text) p :=
  (reads_string _ _ _).map _

theorem reads_chapter {readItem : Json.Reader Item} {depth : Nat} (hdepth : 3 ≤ depth) {c : Chapter}
    (hnumber : ∀ ns ∈ c.number, ∀ n ∈ ns, n < 0x100000000) {items : List Item}
    (hitems : ∀ item ∈ items, Reads readItem (depth - 1 - 1) (writeItem item) item) :
    Reads ((chapterRecord readItem).read (blankChapter, [])) depth
      (writeChapter c (writeItems items)) (c, items) := by
  have hnumber' : Reads (Json.optional (Json.list Json.natural)) (depth - 1)
      (writeOption (fun ns => writeList (ns.map writeNat)) c.number) c.number := by
    cases hc : c.number with
    | none => exact Json.reads_null _ _ _
    | some ns =>
        refine (reads_list (by omega) fun n hn => ?_).optional (by simp [writeList])
        exact Json.reads_natural (hnumber ns hc n hn) _
  have hpath (p : Option Path) : Reads (Json.optional readPath) (depth - 1)
      (writeOption (fun p => writeString p.text) p) p := by
    cases p with
    | none => exact Json.reads_null _ _ _
    | some p => exact (reads_path p _).optional (by simp [writeString])
  rw [writeItems_eq_map]
  refine Record.reads_object (nodup_chapterRecord readItem) (by omega) ?_
  exact .cons ((reads_string _ _ _).field _ _ _) <|
    .cons ((reads_string _ _ _).field _ _ _) <|
    .cons (hnumber'.field _ _ _) <|
    .cons ((reads_list (by omega) hitems).field _ _ _) <|
    .cons ((hpath c.path).field _ _ _) <|
    .cons ((hpath c.sourcePath).field _ _ _) <|
    .cons ((reads_list (by omega) fun name _ => reads_string _ name _).field _ _ _) (.nil _)

/-- An item has fewer items around it than it has levels. -/
theorem reads_item {n depth : Nat} (hn : depth < n) {item : Item} (h : item.Fits depth) :
    Reads (readItem n) depth (writeItem item) item := by
  induction n generalizing depth item with
  | zero => cases hn
  | succ n ih =>
      cases h with
      | @chapter depth c items levels number below =>
          have hitems : ∀ item ∈ items, Reads (readItem n) depth (writeItem item) item :=
            fun item hitem => ih (by omega) (below item hitem)
          have hchapter : Reads ((chapterRecord (readItem n)).read (blankChapter, [])) (depth + 2)
              (writeChapter c (writeItems items)) (c, items) :=
            reads_chapter (by omega) number hitems
          rw [writeItem]
          exact Variant.reads_object (v := .carrying "Chapter" _ _) rfl (by omega)
            (hchapter.carrying _)
      | separator =>
          rw [writeItem]
          exact Variant.reads_bare (v := .plain "Separator" _) rfl rfl
      | partTitle levels title =>
          rw [writeItem]
          exact Variant.reads_object (v := .carrying "PartTitle" _ _) rfl levels
            ((reads_string _ _ _).carrying _)

theorem reads_book {depth : Nat} (hdepth : 3 ≤ depth) (hlevels : depth ≤ Json.levels) {b : Book}
    (h : b.Fits (depth - 1 - 1)) :
    Reads read depth (Json.writeObject [("items", writeList (writeItems b.items))]) b := by
  have hitems : ∀ item ∈ b.items,
      Reads (readItem Json.levels) (depth - 1 - 1) (writeItem item) item :=
    fun item hitem => reads_item (by omega) (h item hitem)
  rw [writeItems_eq_map]
  exact Record.reads_object (by simp [record, Record.names]) (by omega)
    (.cons ((reads_list (by omega) hitems).field _ _ _) (.nil _))

theorem parse_write {b : Book} (h : b.Fits (Json.levels - 2)) :
    Json.parse read b.write = .ok b :=
  (reads_book (by decide) (Nat.le_refl _) h).parse

/-! ## Books that are sent -/

/-- A context that says nothing in its configuration. -/
def Context.write (context : Context) : List Char :=
  Json.writeObject [("root", writeString context.root.text), ("config", Json.writeObject []),
    ("renderer", writeString context.renderer), ("mdbook_version", writeString context.version)]

theorem reads_context (context : Context) {depth : Nat} (hdepth : 3 ≤ depth) :
    Reads Context.read depth context.write context := by
  have hconfig : Reads readConfig (depth - 1) (Json.writeObject []) () :=
    Record.reads_empty (by simp [checked, Json.Field.of]) (by omega) ()
  refine Record.reads_object (by decide) (by omega) ?_
  exact .cons ((reads_path _ _).field _ _ _) <|
    .cons (hconfig.field _ _ _) <|
    .cons ((reads_string _ _ _).field _ _ _) <|
    .cons ((reads_string _ _ _).field _ _ _) (.nil _)

/-- A context and a book in one text. -/
def send (context : Context) (b : Book) : String :=
  String.ofList (writeList [context.write, b.write.toList])

theorem parse_send (context : Context) {b : Book} (h : b.Fits (Json.levels - 3)) :
    parse (send context b) = .ok (context, b) := by
  have hcontext : Reads Context.read (Json.levels - 1) context.write context :=
    reads_context context (by decide)
  have hbook : Reads read (Json.levels - 1) b.write.toList b := by
    rw [write, String.toList_ofList]
    exact reads_book (by decide) (by decide) h
  have hfills : Record.Fills (Json.levels - 1)
      [.of "context" true Context.read fun x v => (v, x.2), .of "book" true read fun x v => (x.1, v)]
      [("context", context.write), ("book", b.write.toList)] (⟨⟨""⟩, "", ""⟩, ⟨[]⟩) (context, b) :=
    .cons (hcontext.field _ _ _) (.cons (hbook.field _ _ _) (.nil _))
  have hlevels : 2 ≤ Json.levels := by decide
  have hboth := Record.reads_tuple hlevels hfills "a tuple of size 2"
  simp only [List.map_cons, List.map_nil] at hboth
  exact Reads.parse hboth

end DocStamp.Book
