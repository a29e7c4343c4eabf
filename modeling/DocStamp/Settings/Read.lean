/-
Reading settings from YAML.

A record of settings takes each of its fields at most once and no
others.  Fields that are absent keep their defaults, except in the
record of a LaTeX document, which must have them all.
-/
import DocStamp.Settings.Basic
import DocStamp.Text.Blank
import DocStamp.Yaml.Decode

namespace DocStamp

open Yaml (Reader Fields FieldReader)

/-- The reader of plain text fields. -/
def Settings.readText : Reader String := Yaml.text "a string"

/-- A field that is set from the value that a reader gives. -/
def Settings.field {σ α : Type} (read : Reader α) (set : σ → α → σ) : FieldReader σ :=
  fun s d path n => set s <$> read d path n

namespace LatexElements

open Settings (field readText)

def fields : Fields LatexElements where
  expected := "struct LatexElements"
  fields := [
    ("papersize", field readText fun s v => { s with paperSize := v }),
    ("figure_align", field readText fun s v => { s with figureAlign := v }),
    ("extraclassoptions", field readText fun s v => { s with extraClassOptions := v })]

/-- Reads the record; absent fields have their defaults. -/
def read : Reader LatexElements := fields.record .default fun s _ => .ok s

end LatexElements

namespace LatexDocument

open Settings (field readText)

def fields : Fields LatexDocument where
  expected := "struct LatexDocument"
  fields := [
    ("start_doc", field readText fun s v => { s with startDoc := v }),
    ("target_name", field readText fun s v => { s with targetName := v }),
    ("title", field readText fun s v => { s with title := v }),
    ("author", field readText fun s v => { s with author := v }),
    ("document_class", field readText fun s v => { s with documentClass := v })]

/-- Reads the record; no field may be absent. -/
def read : Reader LatexDocument :=
  fields.record ⟨"", "", "", "", ""⟩ fun s seen =>
    match fields.names.find? fun name => !seen.contains name with
    | some name => .error (.missingField name)
    | none => .ok s

end LatexDocument

namespace Settings

/-- Reads a list of patterns.  A faulty one is a mistake of the list. -/
def readPattern : Reader Glob.Pattern := fun d path n => do
  match Glob.Pattern.parse (← readText d path n) with
  | .ok p => return p
  | .error e => throw (.mistake (.refused e.message) none)

def fields : Fields Settings where
  expected := "struct Settings"
  fields := [
    ("project", field readText fun s v => { s with project := v }),
    ("copyright", field readText fun s v => { s with copyright := v }),
    ("author", field readText fun s v => { s with author := v }),
    ("extensions", field (Yaml.list readText) fun s v => { s with extensions := v }),
    ("source_suffix", field readText fun s v => { s with sourceSuffix := v }),
    ("language", field (Yaml.optional readText) fun s v => { s with language := v }),
    ("exclude_patterns", field (Yaml.list readPattern) fun s v => { s with excludePatterns := v }),
    ("pygments_style", field readText fun s v => { s with pygmentsStyle := v }),
    ("latex_elements", field LatexElements.read fun s v => { s with latexElements := v }),
    ("latex_documents", field (Yaml.list LatexDocument.read) fun s v =>
      { s with latexDocuments := v }),
    ("manifest", field (Yaml.text "path string") fun s v => { s with manifest := ⟨v⟩ })]

def read : Reader Settings := fields.record .default fun s _ => .ok s

/-- Reads settings from the text of a file.  A blank text means the defaults. -/
def parse (source : String) : Except Yaml.Error Settings :=
  if Text.trim source == "" then .ok .default
  else Yaml.decode (.ok .default) read source

end Settings

end DocStamp
