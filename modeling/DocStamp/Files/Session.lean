/-
A session on a tree of files: operations by path.

A path is followed from the root or from the current directory.  Links
on the way are followed, at most forty of them; a link at the end of a
path is followed when the operation asks for it.  Names and paths have a
greatest length.

An operation fails for where its path leads, and for nothing else: there
are no permissions, no file has a second name, and a file that can be
opened for writing holds all of the new text afterwards.
-/
import DocStamp.Files.Fault
import DocStamp.Files.Tree
import DocStamp.Path.Basic

namespace DocStamp.Files

/-- A tree of files and the current directory, the documents named so far, and the text printed so
far. -/
structure Session where
  root : Node
  here : Location
  documents : List String := []
  printed : String := ""
deriving Repr

/-- Where a path leads. -/
inductive Spot where
  /-- Something is there. -/
  | found (location : Location) (node : Node)
  /-- Nothing is there, but the directory that it would be in. -/
  | free (directory : Location) (name : String)
deriving Repr

/-! ## Following paths -/

/-- The number of links that a path may lead through. -/
def linkLimit : Nat := 40

/-- The number of bytes that a name may have. -/
def nameLimit : Nat := 255

/-- The number of bytes that a path must stay below. -/
def pathLimit : Nat := 4096

/-- What a path is followed for. -/
inductive Aim where
  /-- What is there, behind all links. -/
  | target
  /-- The entry itself, which may be a link. -/
  | entry
  /-- A file, which is made if it is not there. -/
  | file
deriving DecidableEq, Repr

/-- The pieces that a path is followed by.  A slash at the end asks for a directory; it
becomes an empty piece. -/
def stepsOf (text : String) : List String :=
  let pieces := (Path.piecesOf text).filter (· != "")
  if text.toList.getLast? == some '/' && !pieces.isEmpty then pieces ++ [""] else pieces

/-- Where following starts: at the root or in a directory. -/
def startOf (text : String) (directory : Location) : Location :=
  if text.toList.head? == some '/' then [] else directory

/-- Follows pieces from a directory.  `jump` goes on where a link leads to.  No file has
a name with a slash behind it, whether it is there or not. -/
def followWith (root : Node) (aim : Aim)
    (jump : Location → List String → Except Fault Spot) :
    Location → List String → Except Fault Spot
  | dir, [] =>
      match root.at? dir with
      | some n => .ok (.found dir n)
      | none => .error .notFound
  | dir, piece :: pieces =>
      if piece == "" || piece == "." then followWith root aim jump dir pieces
      else if piece == ".." then followWith root aim jump dir.dropLast pieces
      else if aim = .file ∧ pieces = [""] then .error .isDirectory
      else if nameLimit < piece.utf8ByteSize then .error .nameTooLong
      else
        match root.at? (dir ++ [piece]) with
        | none => if pieces.isEmpty then .ok (.free dir piece) else .error .notFound
        | some (.dir _) => followWith root aim jump (dir ++ [piece]) pieces
        | some (.file c) =>
            if pieces.isEmpty then .ok (.found (dir ++ [piece]) (.file c))
            else .error .notDirectory
        | some (.link target) =>
            if pieces.isEmpty && aim = .entry then .ok (.found (dir ++ [piece]) (.link target))
            else if target == "" then .error .notFound
            else jump (startOf target dir) (stepsOf target ++ pieces)

/-- Follows pieces through at most `n` links. -/
def follow (root : Node) (aim : Aim) : Nat → Location → List String → Except Fault Spot
  | 0 => followWith root aim fun _ _ => .error .tooManyLinks
  | n + 1 => followWith root aim (follow root aim n)

namespace Session

/-! ## Operations -/

def locate (s : Session) (aim : Aim) (p : Path) : Except Fault Spot :=
  if p.text.toList.contains '\x00' then .error .nulCharacter
  else if p.text == "" then .error .notFound
  else if pathLimit ≤ p.text.utf8ByteSize then .error .nameTooLong
  else follow s.root aim linkLimit (startOf p.text s.here) (stepsOf p.text)

/-- The node that a path leads to. -/
def node (s : Session) (p : Path) : Except Fault Node := do
  match ← s.locate .target p with
  | .found _ n => return n
  | .free _ _ => throw .notFound

def readText (s : Session) (p : Path) : Except Fault String := do
  match ← s.node p with
  | .file (.text t) => return t
  | .file (.binary _) => throw .notText
  | _ => throw .isDirectory

def pathExists (s : Session) (p : Path) : Bool := (s.node p).isOk

def isDirectory (s : Session) (p : Path) : Bool :=
  match s.node p with
  | .ok n => n.isDir
  | .error _ => false

/-- The entries of a directory, each with whether it is a directory itself. -/
def listDirectory (s : Session) (p : Path) : Except Fault (List (String × Bool)) := do
  match ← s.node p with
  | .dir entries => return entries.map fun e => (e.1, e.2.isDir)
  | _ => throw .notDirectory

def makeDirectory (s : Session) (p : Path) : Except Fault Session := do
  match ← s.locate .entry p with
  | .found _ _ => throw .exists
  | .free dir name => return { s with root := s.root.setAt (.dir []) (dir ++ [name]) }

/-- Writes a file, in the place of one that is there. -/
def writeFile (s : Session) (p : Path) (content : Content) : Except Fault Session := do
  match ← s.locate .file p with
  | .found _ (.dir _) => throw .isDirectory
  | .found location _ => return { s with root := s.root.setAt (.file content) location }
  | .free dir name => return { s with root := s.root.setAt (.file content) (dir ++ [name]) }

def print (s : Session) (text : String) : Session := { s with printed := s.printed ++ text }

def currentDir (s : Session) : Path := Path.ofShape .root s.here

end Session

end DocStamp.Files
