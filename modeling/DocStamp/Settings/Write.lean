/-
Writing the configuration in force as YAML.
-/
import DocStamp.Config
import DocStamp.Yaml.Write

namespace DocStamp

open Yaml (Value)

def Settings.texts (ss : List String) : Value := .list (ss.map .text)

def LatexElements.value (e : LatexElements) : Value :=
  .map [
    ("papersize", .text e.paperSize),
    ("figure_align", .text e.figureAlign),
    ("extraclassoptions", .text e.extraClassOptions)]

def LatexDocument.value (d : LatexDocument) : Value :=
  .map [
    ("start_doc", .text d.startDoc),
    ("target_name", .text d.targetName),
    ("title", .text d.title),
    ("author", .text d.author),
    ("document_class", .text d.documentClass)]

def Settings.optionalText : Option String → Value
  | none => .null
  | some s => .text s

def Settings.entries (s : Settings) : List (String × Value) := [
  ("project", .text s.project),
  ("copyright", .text s.copyright),
  ("author", .text s.author),
  ("extensions", texts s.extensions),
  ("source_suffix", .text s.sourceSuffix),
  ("language", optionalText s.language),
  ("exclude_patterns", texts (s.excludePatterns.map (·.text))),
  ("pygments_style", .text s.pygmentsStyle),
  ("latex_elements", s.latexElements.value),
  ("latex_documents", .list (s.latexDocuments.map LatexDocument.value)),
  ("manifest", .text s.manifest.text)]

def Versions.entries (v : Versions) : List (String × Value) := [
  ("plugin_version", .text v.plugin),
  ("release", .text v.release),
  ("yamcs_version", .text v.server)]

/-- The configuration as YAML: the settings, then the versions. -/
def Config.write (c : Config) : String := Yaml.write (c.settings.entries ++ c.versions.entries)

end DocStamp
