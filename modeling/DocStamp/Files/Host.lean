/-
What commands ask of the machine they run on.

A host has files and a current directory, takes note of the names of
documents, and prints texts.  A session is a host, so whatever is written
for a host can be run, and reasoned about, on a tree.
-/
import DocStamp.Files.Session

namespace DocStamp.Files

/-- A machine with files. -/
class Host (m : Type → Type) where
  currentDir : m Path
  readText : Path → m (Except Fault String)
  pathExists : Path → m Bool
  isDirectory : Path → m Bool
  /-- The entries of a directory, each with whether it is a directory itself. -/
  listDirectory : Path → m (Except Fault (List (String × Bool)))
  makeDirectory : Path → m (Except Fault Unit)
  writeText : Path → String → m (Except Fault Unit)
  /-- Takes note that a document is being processed. -/
  announce : String → m Unit
  print : String → m Unit

/-- Runs an operation that changes a session when it succeeds. -/
def Session.attempt (f : Session → Except Fault Session) : StateM Session (Except Fault Unit) :=
  fun s =>
    match f s with
    | .ok s' => (.ok (), s')
    | .error e => (.error e, s)

instance : Host (StateM Session) where
  currentDir := fun s => (s.currentDir, s)
  readText p := fun s => (s.readText p, s)
  pathExists p := fun s => (s.pathExists p, s)
  isDirectory p := fun s => (s.isDirectory p, s)
  listDirectory p := fun s => (s.listDirectory p, s)
  makeDirectory p := Session.attempt (·.makeDirectory p)
  writeText p t := Session.attempt (·.writeFile p (.text t))
  announce name := fun s => ((), { s with documents := s.documents ++ [name] })
  print text := fun s => ((), s.print text)

section

variable {m : Type → Type} [Monad m] [Host m]

/-- A computation that may fail asks the host that it runs on. -/
instance {ε : Type} : Host (ExceptT ε m) where
  currentDir := ExceptT.lift Host.currentDir
  readText p := ExceptT.lift (Host.readText p)
  pathExists p := ExceptT.lift (Host.pathExists p)
  isDirectory p := ExceptT.lift (Host.isDirectory p)
  listDirectory p := ExceptT.lift (Host.listDirectory p)
  makeDirectory p := ExceptT.lift (Host.makeDirectory p)
  writeText p s := ExceptT.lift (Host.writeText p s)
  announce name := ExceptT.lift (Host.announce name)
  print text := ExceptT.lift (Host.print text)

/-- Makes a directory; one that is already there will do. -/
def ensureDirectory (p : Path) : m (Except Fault Unit) := do
  match ← Host.makeDirectory p with
  | .ok () => return .ok ()
  | .error e => if ← Host.isDirectory p then return .ok () else return .error e

/-- Makes a directory and, where they are missing, the directories above it, at
most `n` of them. -/
def ensureDirectories : Nat → Path → m (Except Fault Unit)
  | 0, _ => return .ok ()
  | n + 1, p =>
      if p.text == "" then return .ok ()
      else do
        match ← Host.makeDirectory p with
        | .ok () => return .ok ()
        | .error .notFound =>
            match p.parent? with
            | none => return .error .noTree
            | some q =>
                match ← ensureDirectories n q with
                | .ok () => ensureDirectory p
                | .error e => return .error e
        | .error e => if ← Host.isDirectory p then return .ok () else return .error e

/-- Makes the directory that a path lies in. -/
def ensureParent (p : Path) : m (Except Fault Unit) :=
  match p.parent? with
  | none => return .error (.noParent p.text)
  | some q => ensureDirectories (q.text.length + 1) q

end

end DocStamp.Files
