/-
Finding the source documents of a tree.

Every file below the directory of documents whose path ends with the
source suffix is a source, unless a pattern excludes it or it lies in
the directory that the output goes to.  Links are never entered.
-/
import DocStamp.Config
import DocStamp.Path.Order

namespace DocStamp.Command

open Files (Fault Host)

/-- Where the output goes, seen from the documents. -/
inductive Placement where
  /-- The output directory is the directory of documents. -/
  | same (out : Path)
  /-- It lies below the directory of documents. -/
  | inside (relative : Path)
  | outside
deriving DecidableEq, Repr

namespace Placement

/-- The placement of an output directory, both paths seen from a current directory. -/
def of (here docsDir out : Path) : Placement :=
  let out := Path.resolve here out
  match out.below? (Path.resolve here docsDir) with
  | none => .outside
  | some relative => if relative.text == "" then .same out else .inside relative

/-- The path that the search leaves out. -/
def skipped? : Placement → Option Path
  | .inside relative => some relative
  | _ => none

end Placement

/-- What an entry of a directory is to the search. -/
inductive Finding where
  | nothing
  | source
  | directory
deriving DecidableEq, Repr

/-- Tells what an entry is, by its path from the documents. -/
def classify (settings : Settings) (skip : Option Path) (p : Path) (isDir : Bool) : Finding :=
  if settings.isExcluded p || skip.any (Path.sameSteps p) then .nothing
  else if isDir then .directory
  else if settings.sourceSuffix.toList.isSuffixOf p.text.toList then .source
  else .nothing

section

variable {m : Type → Type} [Monad m] [Host m]

/-- The sources in a directory below the documents, at most `n` levels deep.  Paths are
shorter than the greatest length of a path, so there are fewer levels than that. -/
def sourcesBelow (settings : Settings) (docsDir : Path) (skip : Option Path) :
    Nat → Path → ExceptT Fault m (List Path)
  | 0, _ => throw .nameTooLong
  | n + 1, dir => do
      match ← Host.listDirectory (docsDir.join dir) with
      | .error fault => throw fault
      | .ok entries =>
          let found ← entries.mapM fun (name, isDir) =>
            let p := dir.join ⟨name⟩
            match classify settings skip p isDir with
            | .nothing => pure []
            | .source => pure [p]
            | .directory => sourcesBelow settings docsDir skip n p
          return found.flatten

/-- All sources, in the order of their paths. -/
def findSources (settings : Settings) (docsDir : Path) (skip : Option Path) :
    ExceptT Fault m (List Path) := do
  return (← sourcesBelow settings docsDir skip Files.pathLimit ⟨""⟩).mergeSort Path.before

end

end DocStamp.Command
