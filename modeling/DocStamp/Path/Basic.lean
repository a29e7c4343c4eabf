/-
Paths as they are written.

A path is a text; slashes divide it into pieces.  Empty pieces and the
pieces `.` say nothing, except that a path may begin with one of them:
an empty first piece is the root, a first `.` stands for the starting
directory.  What is left are the steps of the path.  The operations that
cut a path keep the text of what remains as it was written.
-/

namespace DocStamp

/-- A path, as it was written. -/
structure Path where
  text : String
deriving DecidableEq, Repr, Inhabited

namespace Path

/-- What a path begins with, before its body. -/
inductive Lead where
  /-- A leading slash. -/
  | root
  /-- A leading piece `.`. -/
  | here
  /-- Neither of them. -/
  | bare
deriving DecidableEq, Repr

inductive Step where
  | root
  | here
  | up
  | name (n : String)
deriving DecidableEq, Repr

/-! ## Pieces -/

/-- Cuts a list of characters at every slash. -/
def splitSlash : List Char → List (List Char)
  | [] => [[]]
  | c :: cs =>
      if c = '/' then [] :: splitSlash cs
      else
        match splitSlash cs with
        | [] => [[c]]
        | piece :: pieces => (c :: piece) :: pieces

/-- The pieces between the slashes of a text. -/
def piecesOf (s : String) : List String :=
  (splitSlash s.toList).map String.ofList

def joinPieces : List String → String
  | [] => ""
  | [p] => p
  | p :: q :: ps => p ++ "/" ++ joinPieces (q :: ps)

/-- A piece that says nothing inside a path. -/
def isIdle (piece : String) : Bool := piece == "" || piece == "."

/-! ## Shapes and steps -/

/-- The lead of a path and the pieces of its body, idle ones included. -/
def shape (p : Path) : Lead × List String :=
  match piecesOf p.text with
  | [] => (.bare, [])
  | [""] => (.bare, [])
  | "" :: body => (.root, body)
  | "." :: body => (.here, body)
  | body => (.bare, body)

/-- The path with the given lead and body. -/
def ofShape (lead : Lead) (body : List String) : Path :=
  match lead with
  | .root => ⟨"/" ++ joinPieces body⟩
  | .here => ⟨joinPieces ("." :: body)⟩
  | .bare => ⟨joinPieces body⟩

/-- The step that a lead stands for. -/
def Lead.steps : Lead → List Step
  | .root => [.root]
  | .here => [.here]
  | .bare => []

/-- The step that a piece of the body stands for, if any. -/
def stepOf? (piece : String) : Option Step :=
  if isIdle piece then none
  else if piece == ".." then some .up
  else some (.name piece)

def steps (p : Path) : List Step :=
  p.shape.1.steps ++ p.shape.2.filterMap stepOf?

def Step.text : Step → String
  | .root => "/"
  | .here => "."
  | .up => ".."
  | .name n => n

def isAbsolute (p : Path) : Bool := p.shape.1 == .root

/-! ## Paths from paths -/

/-- Drops idle pieces at the end of a body. -/
def trimEnd (body : List String) : List String :=
  (body.reverse.dropWhile isIdle).reverse

/-- Puts `p` below `base`; an absolute `p` stands alone. -/
def join (base p : Path) : Path :=
  if p.isAbsolute then p
  else if base.text == "" || base.text.toList.getLast? == some '/' then ⟨base.text ++ p.text⟩
  else ⟨base.text ++ "/" ++ p.text⟩

/-- The path without its last step; the root and the empty path have none to lose. -/
def parent? (p : Path) : Option Path :=
  match p.shape.1, trimEnd p.shape.2 with
  | .here, [] => some ⟨""⟩
  | _, [] => none
  | lead, body => some (ofShape lead (trimEnd body.dropLast))

/-- The path and its parents, at most `n` of them. -/
def ancestorsUpTo : Nat → Path → List Path
  | 0, p => [p]
  | n + 1, p =>
      p :: match p.parent? with
        | none => []
        | some q => ancestorsUpTo n q

/-- The path itself, then its parent, and so on up. -/
def ancestors (p : Path) : List Path := ancestorsUpTo p.text.length p

/-- The last step of the path, when it is a name. -/
def fileName? (p : Path) : Option String :=
  match p.steps.getLast? with
  | some (.name n) => some n
  | _ => none

/-- Drops `n` steps, and the idle pieces before them, from the front of a body. -/
def dropPieces : Nat → List String → List String
  | 0, body => body
  | _, [] => []
  | n + 1, piece :: body =>
      if isIdle piece then dropPieces (n + 1) body else dropPieces n body

/-- What remains of `p` below `base`, when the steps of `base` begin those of `p`. -/
def below? (p base : Path) : Option Path :=
  if base.steps.isPrefixOf p.steps then
    let (lead, body) := p.shape
    match base.steps.length with
    | 0 => some (ofShape lead (trimEnd body))
    | n => some ⟨joinPieces (trimEnd ((dropPieces (n - lead.steps.length) body).dropWhile isIdle))⟩
  else none

/-- Puts the home directory in the place of a leading step `~`. -/
def expandHome (home p : Path) : Path :=
  match p.below? ⟨"~"⟩ with
  | some rest => home.join rest
  | none => p

end Path

end DocStamp
