/-
Where a path leads, read off its text alone.

A place is the root followed by names, or a number of steps up followed
by names.  Walking a path from a place never looks at any file: `..`
takes the last name away, stays put at the root, and otherwise climbs.
A place has exactly one text, the clean form of every path that leads
there.
-/
import DocStamp.Path.Basic

namespace DocStamp

/-- Where a path leads, by its text alone. -/
inductive Place where
  /-- Names below the root. -/
  | rooted (names : List String)
  /-- Names below the directory reached by going up `ups` times. -/
  | floating (ups : Nat) (names : List String)
deriving DecidableEq, Repr

namespace Place

/-- Goes on from a place by one step. -/
def walk (here : Place) (step : Path.Step) : Place :=
  match here, step with
  | _, .root => .rooted []
  | here, .here => here
  | .rooted names, .up => .rooted names.dropLast
  | .floating ups [], .up => .floating (ups + 1) []
  | .floating ups names, .up => .floating ups names.dropLast
  | .rooted names, .name n => .rooted (names ++ [n])
  | .floating ups names, .name n => .floating ups (names ++ [n])

def ofPath (p : Path) : Place := p.steps.foldl walk (.floating 0 [])

/-- The one path that spells a place out. -/
def toPath : Place → Path
  | .rooted names => Path.ofShape .root names
  | .floating 0 [] => ⟨"."⟩
  | .floating ups names => ⟨Path.joinPieces (List.replicate ups ".." ++ names)⟩

end Place

namespace Path

/-- The clean form of a path: no idle pieces, no `..` that could be worked out. -/
def clean (p : Path) : Path := (Place.ofPath p).toPath

/-- The clean path of `p` as seen from `base`. -/
def resolve (base p : Path) : Path :=
  if p.isAbsolute then p.clean else (base.join p).clean

end Path

end DocStamp
