/-
The settings of a documentation tree, and their defaults.
-/
import DocStamp.Glob.Match
import DocStamp.Manifest

namespace DocStamp

/-- Settings of the LaTeX output. -/
structure LatexElements where
  paperSize : String
  figureAlign : String
  extraClassOptions : String
deriving DecidableEq, Repr

/-- One LaTeX document to be made. -/
structure LatexDocument where
  /-- The document that the output starts from. -/
  startDoc : String
  targetName : String
  title : String
  author : String
  documentClass : String
deriving DecidableEq, Repr

/-- The settings of a documentation tree. -/
structure Settings where
  project : String
  copyright : String
  author : String
  extensions : List String
  /-- What the names of source documents end with. -/
  sourceSuffix : String
  language : Option String
  excludePatterns : List Glob.Pattern
  pygmentsStyle : String
  latexElements : LatexElements
  latexDocuments : List LatexDocument
  /-- Where the manifest is, seen from the documents. -/
  manifest : Path
deriving DecidableEq, Repr

namespace LatexElements

def default : LatexElements := ⟨"a4paper", "htbp", "openany"⟩

end LatexElements

namespace LatexDocument

/-- The manual of the plugin. -/
def manual : LatexDocument where
  startDoc := "index"
  targetName := "yamcs-maven-plugin.tex"
  title := "Yamcs Maven Plugin"
  author := "Space Applications Services"
  documentClass := "manual"

end LatexDocument

namespace Settings

/-- A pattern that matches exactly one text without wildcards. -/
def literalPattern (s : String) : Glob.Pattern := ⟨s, s.toList.map .lit⟩

/-- The settings that hold where nothing else is said. -/
def default : Settings where
  project := "yamcs-maven-plugin"
  copyright := "2019, Space Applications Services"
  author := "Yamcs Team"
  extensions := ["sphinxcontrib.fulltoc"]
  sourceSuffix := ".rst"
  language := none
  excludePatterns := ["_build", "Thumbs.db", ".DS_Store"].map literalPattern
  pygmentsStyle := "sphinx"
  latexElements := .default
  latexDocuments := [.manual]
  manifest := ⟨Manifest.defaultPath⟩

/-- Is a path, seen from the documents, excluded by a pattern? -/
def isExcluded (s : Settings) (p : Path) : Bool := s.excludePatterns.any (·.excludes p)

end Settings

end DocStamp
