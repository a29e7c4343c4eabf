/-
# Settings are read field by field

The three records of a settings file, each put together from its fields.
The settings and the LaTeX elements have defaults for what is absent; a
LaTeX document must have all its fields.
-/
import DocStamp.Proofs.Settings.RoundTrip
import DocStamp.Proofs.Yaml.Schema

namespace DocStamp

open Yaml (Decides Mark MeansList MeansOptionalText MeansText Node Schema Slot)

namespace Settings

/-! ## What the values of fields mean -/

def textSlot {σ : Type} (name : String) (set : σ → String → σ) (get : σ → String)
    (get_set : ∀ s a, get (set s a) = a) : Slot σ where
  name := name
  Value := String
  read := readText
  set := set
  get := get
  Means := MeansText
  decides := Yaml.decides_text _
  get_set := get_set

/-- A text means the pattern that it is read as. -/
def MeansPattern (n : Node) (p : Glob.Pattern) : Prop :=
  ∃ t, MeansText n t ∧ Glob.Pattern.parse t = .ok p

theorem decides_readPattern : Decides readPattern MeansPattern := by
  intro d path n p hn
  constructor
  · intro h
    obtain ⟨t, ht, h⟩ := Yaml.bind_eq_ok h
    refine ⟨t, (Yaml.decides_text _ _ _ _ _ hn).1 ht, ?_⟩
    split at h
    next hparse =>
      cases h
      exact hparse
    next => cases h
  · rintro ⟨t, ht, hparse⟩
    have hread : readText d path n = .ok t := (Yaml.decides_text _ _ _ _ _ hn).2 ht
    rw [readPattern, hread, Yaml.ok_bind]
    simp only [hparse]
    rfl

theorem finish_default {σ : Type} (s : σ) (seen : List String) (s' : σ) :
    (.ok s : Except Yaml.Mistake σ) = .ok s' ↔ s' = s ∧ ∀ k ∈ ([] : List String), k ∈ seen := by
  rw [Except.ok.injEq, eq_comm]
  exact (and_iff_left (List.forall_mem_nil _)).symm

end Settings

/-! ## The LaTeX elements -/

namespace LatexElements

open Settings (textSlot)

def slots : List (Slot LatexElements) := [
  textSlot "papersize" (fun s v => { s with paperSize := v }) (·.paperSize) fun _ _ => rfl,
  textSlot "figure_align" (fun s v => { s with figureAlign := v }) (·.figureAlign) fun _ _ => rfl,
  textSlot "extraclassoptions" (fun s v => { s with extraClassOptions := v })
    (·.extraClassOptions) fun _ _ => rfl]

theorem slots_apart : ∀ c ∈ slots, ∀ c' ∈ slots, c.name ≠ c'.name →
    ∀ s a, c.get (c'.set s a) = c.get s := by
  intro c hc c' hc' hne s a
  simp only [slots, List.mem_cons, List.not_mem_nil, or_false] at hc hc'
  rcases hc with rfl | rfl | rfl <;> rcases hc' with rfl | rfl | rfl <;>
    first
    | exact absurd rfl hne
    | rfl

theorem slots_ext (s s' : LatexElements) (h : ∀ c ∈ slots, c.get s = c.get s') : s = s' := by
  simp only [slots, List.forall_mem_cons] at h
  obtain ⟨hpaper, halign, hoptions, -⟩ := h
  cases s
  cases s'
  cases hpaper
  cases halign
  cases hoptions
  rfl

def schema : Schema LatexElements where
  slots := slots
  start := .default
  required := []
  nodup := Settings.nodup_latexElements
  apart := slots_apart
  ext := slots_ext

theorem decides_read : Decides read schema.Means :=
  Schema.decides_record (S := schema) rfl fun s seen s' => Settings.finish_default s seen s'

end LatexElements

/-! ## The LaTeX documents -/

namespace LatexDocument

open Settings (textSlot)

def slots : List (Slot LatexDocument) := [
  textSlot "start_doc" (fun s v => { s with startDoc := v }) (·.startDoc) fun _ _ => rfl,
  textSlot "target_name" (fun s v => { s with targetName := v }) (·.targetName) fun _ _ => rfl,
  textSlot "title" (fun s v => { s with title := v }) (·.title) fun _ _ => rfl,
  textSlot "author" (fun s v => { s with author := v }) (·.author) fun _ _ => rfl,
  textSlot "document_class" (fun s v => { s with documentClass := v }) (·.documentClass)
    fun _ _ => rfl]

theorem slots_apart : ∀ c ∈ slots, ∀ c' ∈ slots, c.name ≠ c'.name →
    ∀ s a, c.get (c'.set s a) = c.get s := by
  intro c hc c' hc' hne s a
  simp only [slots, List.mem_cons, List.not_mem_nil, or_false] at hc hc'
  rcases hc with rfl | rfl | rfl | rfl | rfl <;> rcases hc' with rfl | rfl | rfl | rfl | rfl <;>
    first
    | exact absurd rfl hne
    | rfl

theorem slots_ext (s s' : LatexDocument) (h : ∀ c ∈ slots, c.get s = c.get s') : s = s' := by
  simp only [slots, List.forall_mem_cons] at h
  obtain ⟨hstart, htarget, htitle, hauthor, hclass, -⟩ := h
  cases s
  cases s'
  cases hstart
  cases htarget
  cases htitle
  cases hauthor
  cases hclass
  rfl

/-- A LaTeX document; no field may be absent, so what it starts from never shows. -/
def schema : Schema LatexDocument where
  slots := slots
  start := ⟨"", "", "", "", ""⟩
  required := fields.names
  nodup := Settings.nodup_latexDocument
  apart := slots_apart
  ext := slots_ext

theorem decides_read : Decides read schema.Means := by
  refine Schema.decides_record (S := schema) rfl fun s seen s' => ?_
  have hnone : (fields.names.find? fun name => !seen.contains name) = none ↔
      ∀ k ∈ fields.names, k ∈ seen := by
    rw [List.find?_eq_none]
    simp
  cases hfind : fields.names.find? fun name => !seen.contains name with
  | some name =>
      constructor
      · intro h
        cases h
      · rintro ⟨-, h⟩
        cases hfind.symm.trans (hnone.2 h)
  | none =>
      have hall := hnone.1 hfind
      constructor
      · intro h
        cases h
        exact ⟨rfl, hall⟩
      · rintro ⟨rfl, -⟩
        rfl

theorem means_of_mem_slots {c : Slot LatexDocument} (hc : c ∈ slots) (n : Node) :
    (∃ a, c.Means n a) ↔ ∃ t, MeansText n t := by
  simp only [slots, List.mem_cons, List.not_mem_nil, or_false] at hc
  rcases hc with rfl | rfl | rfl | rfl | rfl <;> rfl

/-- The entries of a LaTeX document are its five fields, each once, with texts. -/
theorem fits_iff (es : List (Node × Node)) :
    schema.Fits es ↔
      (Schema.keys es).Perm (fields.names.map some) ∧ ∀ e ∈ es, ∃ t, MeansText e.2 t := by
  have hnames : fields.names = slots.map Slot.name := rfl
  have hnodup : (fields.names.map some).Nodup :=
    Settings.nodup_latexDocument.map fun _ _ => Option.some.inj
  constructor
  · intro h
    refine ⟨(List.perm_ext_iff_of_nodup h.distinct hnodup).2 fun k => ⟨?_, ?_⟩, fun e he => ?_⟩
    · intro hk
      obtain ⟨e, he, rfl⟩ := Schema.mem_keys.1 hk
      obtain ⟨c, hc, hname, -⟩ := h.fit e he
      rw [hname, hnames]
      exact List.mem_map_of_mem (List.mem_map_of_mem hc)
    · intro hk
      obtain ⟨name, hname, rfl⟩ := List.mem_map.1 hk
      exact h.complete name hname
    · obtain ⟨c, hc, -, hmeans⟩ := h.fit e he
      exact (means_of_mem_slots hc e.2).1 hmeans
  · rintro ⟨hperm, htexts⟩
    refine ⟨hperm.nodup_iff.2 hnodup, fun e he => ?_, fun k hk => ?_⟩
    · have hkey := hperm.mem_iff.1 (Schema.mem_keys.2 ⟨e, he, rfl⟩)
      rw [hnames, List.map_map] at hkey
      obtain ⟨c, hc, hname⟩ := List.mem_map.1 hkey
      exact ⟨c, hc, hname.symm, (means_of_mem_slots hc e.2).2 (htexts e he)⟩
    · exact hperm.mem_iff.2 (List.mem_map_of_mem hk)

end LatexDocument

/-! ## The settings -/

namespace Settings

def slots : List (Slot Settings) := [
  textSlot "project" (fun s v => { s with project := v }) (·.project) fun _ _ => rfl,
  textSlot "copyright" (fun s v => { s with copyright := v }) (·.copyright) fun _ _ => rfl,
  textSlot "author" (fun s v => { s with author := v }) (·.author) fun _ _ => rfl,
  { name := "extensions"
    Value := List String
    read := Yaml.list readText
    set := fun s v => { s with extensions := v }
    get := (·.extensions)
    Means := MeansList MeansText
    decides := Yaml.decides_list (Yaml.decides_text _)
    get_set := fun _ _ => rfl },
  textSlot "source_suffix" (fun s v => { s with sourceSuffix := v }) (·.sourceSuffix)
    fun _ _ => rfl,
  { name := "language"
    Value := Option String
    read := Yaml.optional readText
    set := fun s v => { s with language := v }
    get := (·.language)
    Means := MeansOptionalText
    decides := Yaml.decides_optional _
    get_set := fun _ _ => rfl },
  { name := "exclude_patterns"
    Value := List Glob.Pattern
    read := Yaml.list readPattern
    set := fun s v => { s with excludePatterns := v }
    get := (·.excludePatterns)
    Means := MeansList MeansPattern
    decides := Yaml.decides_list decides_readPattern
    get_set := fun _ _ => rfl },
  textSlot "pygments_style" (fun s v => { s with pygmentsStyle := v }) (·.pygmentsStyle)
    fun _ _ => rfl,
  { name := "latex_elements"
    Value := LatexElements
    read := LatexElements.read
    set := fun s v => { s with latexElements := v }
    get := (·.latexElements)
    Means := LatexElements.schema.Means
    decides := LatexElements.decides_read
    get_set := fun _ _ => rfl },
  { name := "latex_documents"
    Value := List LatexDocument
    read := Yaml.list LatexDocument.read
    set := fun s v => { s with latexDocuments := v }
    get := (·.latexDocuments)
    Means := MeansList LatexDocument.schema.Means
    decides := Yaml.decides_list LatexDocument.decides_read
    get_set := fun _ _ => rfl },
  { name := "manifest"
    Value := String
    read := Yaml.text "path string"
    set := fun s v => { s with manifest := ⟨v⟩ }
    get := (·.manifest.text)
    Means := MeansText
    decides := Yaml.decides_text _
    get_set := fun _ _ => rfl }]

theorem slots_apart : ∀ c ∈ slots, ∀ c' ∈ slots, c.name ≠ c'.name →
    ∀ s a, c.get (c'.set s a) = c.get s := by
  intro c hc c' hc' hne s a
  simp only [slots, List.mem_cons, List.not_mem_nil, or_false] at hc hc'
  rcases hc' with rfl | rfl | rfl | rfl | rfl | rfl | rfl | rfl | rfl | rfl | rfl <;>
    rcases hc with rfl | rfl | rfl | rfl | rfl | rfl | rfl | rfl | rfl | rfl | rfl <;>
    first
    | exact absurd rfl hne
    | rfl

theorem slots_ext (s s' : Settings) (h : ∀ c ∈ slots, c.get s = c.get s') : s = s' := by
  simp only [slots, List.forall_mem_cons] at h
  obtain ⟨hproject, hcopyright, hauthor, hextensions, hsuffix, hlanguage, hpatterns, hstyle,
    helements, hdocuments, hmanifest, -⟩ := h
  obtain ⟨_, _, _, _, _, _, _, _, _, _, ⟨_⟩⟩ := s
  obtain ⟨_, _, _, _, _, _, _, _, _, _, ⟨_⟩⟩ := s'
  cases hproject
  cases hcopyright
  cases hauthor
  cases hextensions
  cases hsuffix
  cases hlanguage
  cases hpatterns
  cases hstyle
  cases helements
  cases hdocuments
  cases hmanifest
  rfl

def schema : Schema Settings where
  slots := slots
  start := .default
  required := []
  nodup := nodup_fields
  apart := slots_apart
  ext := slots_ext

theorem decides_read : Decides read schema.Means :=
  Schema.decides_record (S := schema) rfl fun s seen s' => finish_default s seen s'

/-- A mapping without aliases is read into settings field by field, with the defaults for what is
absent.  So are the LaTeX elements, and a LaTeX document, which is accepted exactly if it has its
five fields, each once, with texts. -/
theorem read_is_field_by_field {m : Mark} {es : List (Node × Node)}
    (h : (Node.mapping m es).Direct) :
    schema.ReadsByField Settings.read m es ∧
      LatexElements.schema.ReadsByField LatexElements.read m es ∧
      LatexDocument.schema.ReadsByField LatexDocument.read m es ∧
      ∀ d path, (∃ l, LatexDocument.read d path (.mapping m es) = .ok l) ↔
        (Schema.keys es).Perm (LatexDocument.fields.names.map some) ∧
          ∀ e ∈ es, ∃ t, MeansText e.2 t := by
  have hdocument := Schema.readsByField LatexDocument.decides_read h
  refine ⟨Schema.readsByField decides_read h, Schema.readsByField LatexElements.decides_read h,
    hdocument, fun d path => ?_⟩
  rw [hdocument.accepts, LatexDocument.fits_iff]

-- The versions are no settings: they come from the manifest alone.
example : "version" ∉ fields.names ∧ "release" ∉ fields.names := by decide

def plainNode (s : String) : Node := .scalar ⟨0, 0, 0⟩ none .plain s

/-- Entries of every kind of value: documents, nothing, a part of a record, patterns, no list. -/
def mixedEntries : List (Node × Node) := [
  (plainNode "latex_documents", .sequence ⟨0, 0, 0⟩ [.mapping ⟨0, 0, 0⟩ [
    (plainNode "title", plainNode "Guide"), (plainNode "author", plainNode "Team"),
    (plainNode "start_doc", plainNode "index"), (plainNode "document_class", plainNode "howto"),
    (plainNode "target_name", plainNode "guide.tex")]]),
  (plainNode "language", plainNode "~"),
  (plainNode "latex_elements", .mapping ⟨0, 0, 0⟩ [
    (plainNode "papersize", plainNode "letterpaper")]),
  (plainNode "exclude_patterns", .sequence ⟨0, 0, 0⟩ [plainNode "drafts"]),
  (plainNode "extensions", plainNode "")]

def mixedSettings : Settings :=
  { default with
    extensions := []
    excludePatterns := [literalPattern "drafts"]
    latexElements := ⟨"letterpaper", "htbp", "openany"⟩
    latexDocuments := [⟨"index", "guide.tex", "Guide", "Team", "howto"⟩] }

theorem direct_mixedEntries : (Node.mapping ⟨0, 0, 0⟩ mixedEntries).Direct := by
  have hplain : ∀ s, (plainNode s).Direct := fun s => .scalar _ _ _ s
  refine .mapping _ ?_ ?_
  · simp only [mixedEntries, List.forall_mem_cons]
    exact ⟨hplain _, hplain _, hplain _, hplain _, hplain _, List.forall_mem_nil _⟩
  · simp only [mixedEntries, List.forall_mem_cons]
    refine ⟨.sequence _ ?_, hplain _, .mapping _ ?_ ?_, .sequence _ ?_, hplain _,
      List.forall_mem_nil _⟩
    · simp only [List.forall_mem_cons]
      refine ⟨.mapping _ ?_ ?_, List.forall_mem_nil _⟩ <;> simp only [List.forall_mem_cons] <;>
        exact ⟨hplain _, hplain _, hplain _, hplain _, hplain _, List.forall_mem_nil _⟩
    all_goals
      simp only [List.forall_mem_cons]
      exact ⟨hplain _, List.forall_mem_nil _⟩

theorem read_is_field_by_field_mixed :
    (Node.mapping ⟨0, 0, 0⟩ mixedEntries).Direct ∧
      ∀ es, mixedEntries.Perm es → ∀ m d path,
        (Settings.read d path (.mapping m es)).toOption = some mixedSettings := by
  refine ⟨direct_mixedEntries, fun es hperm m d path => ?_⟩
  have hread : (Settings.read ⟨none, [], none⟩ Yaml.rootPath
      (.mapping ⟨0, 0, 0⟩ mixedEntries)).toOption = some mixedSettings := by
    decide +kernel
  exact ((read_is_field_by_field direct_mixedEntries).1.reordered es hperm m
    ⟨none, [], none⟩ Yaml.rootPath d path).symm.trans hread

end Settings

end DocStamp
