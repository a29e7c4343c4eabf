/-
# Settings files without content

Emptiness is decided twice: a text of blanks is not read at all, and a
text without a document is read as having no entries.  Blank lines and
comments may fall on either side, and either way the settings are the
defaults (`load_of_vacant`).
-/
import DocStamp.Config
import DocStamp.Proofs.Files.Operations
import DocStamp.Proofs.Yaml.Vacant

namespace DocStamp.Settings

open Files (Session)
open Yaml (LineEnd VacantLine vacantText)

theorem parse_vacant (lines : List (VacantLine × LineEnd)) (last : VacantLine) :
    parse (String.ofList (vacantText lines last)) = .ok .default := by
  rw [parse]
  split
  · rfl
  · exact Yaml.decode_vacant .default read lines last

theorem load_of_readText {s : Session} {env : Environment} {docsDir : Path} {source : String}
    {settings : Settings} (hread : s.readText (path env docsDir) = .ok source)
    (hparse : parse source = .ok settings) :
    s.run (load env docsDir) = (.ok settings, s) := by
  have hfile : s.run (loadFrom (path env docsDir)) = (.ok settings, s) := by
    rw [loadFrom, Session.run_bind, Session.run_readText, hread]
    simp only [hparse, Session.run_pure]
  have hexists : s.pathExists (path env docsDir) = true := by
    rw [Session.pathExists, Session.readText_ok_iff.1 hread]
    rfl
  rw [load]
  split
  · rw [Session.run_bind_ok (Session.run_pathExists LoadError s _), hexists]
    exact hfile
  · exact hfile

/-- A settings file that holds nothing but blank lines and comments means the defaults, as an empty
one does. -/
theorem load_of_vacant {s : Session} {env : Environment} {docsDir : Path}
    {lines : List (VacantLine × LineEnd)} {last : VacantLine}
    (hread : s.readText (path env docsDir) = .ok (String.ofList (vacantText lines last))) :
    s.run (load env docsDir) = (.ok .default, s) ∧
      ∀ s' : Session, s'.readText (path env docsDir) = .ok "" →
        s'.run (load env docsDir) = (.ok .default, s') := by
  refine ⟨load_of_readText hread (parse_vacant lines last), ?_⟩
  intro s' hempty
  exact load_of_readText hempty (parse_vacant [] ⟨0, none, rfl⟩)

/-- A settings file of comments with a blank line between them, and both kinds of line ends. -/
def vacantSession : Session where
  root := .dir [("docs.yml", .file (.text "# none yet\r\n   \n  # \t é"))]
  here := []

/-- The file is not blank, so it is read as a text without a document. -/
theorem load_of_vacant_commented :
    vacantSession.run (load ⟨⟨""⟩, none⟩ ⟨""⟩) = (.ok .default, vacantSession) := by
  have hread : vacantSession.readText (path ⟨⟨""⟩, none⟩ ⟨""⟩) =
      .ok (String.ofList (vacantText
        [(⟨0, some " none yet", by decide⟩, .both), (⟨3, none, rfl⟩, .lineFeed)]
        ⟨2, some " \t é", by decide⟩)) :=
    Session.eq_ok_of_toOption (by decide +kernel)
  exact (load_of_vacant hread).1

end DocStamp.Settings
