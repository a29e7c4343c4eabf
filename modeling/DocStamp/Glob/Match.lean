/-
Matching texts against patterns.

The matcher tries the shortest run first for each wildcard.  It tells
apart a text that fails here, where a longer run may still help, from a
text that is too short, where no longer run of an earlier wildcard can
help; the second ends the search.
-/
import DocStamp.Glob.Pattern
import DocStamp.Path.Basic

namespace DocStamp.Glob

/-- How matching a text against tokens ends. -/
inductive Outcome where
  | matched
  /-- The text fails here; a longer run of an earlier wildcard may help. -/
  | mismatch
  /-- The text is too short for the tokens. -/
  | short
deriving DecidableEq, Repr

def inRanges (rs : Ranges) (c : Char) : Bool :=
  rs.any fun r => r.1 ≤ c && c ≤ r.2

/-- Does a token for one character accept it?  Only a literal accepts a slash. -/
def Token.accepts : Token → Char → Bool
  | .lit d, c => c == d
  | .any, c => c != '/'
  | .oneOf rs, c => c != '/' && inRanges rs c
  | .noneOf rs, c => c != '/' && !inRanges rs c
  | .star, _ => false
  | .tree, _ => false

/-- Goes on with `next` where `*` ends: here or after some more characters of the name. -/
def matchStar (next : List Char → Outcome) : List Char → Outcome
  | [] => next []
  | c :: cs =>
      match next (c :: cs) with
      | .mismatch => if c = '/' then .mismatch else matchStar next cs
      | o => o

/-- Goes on with `next` behind one of the following slashes, or at the end. -/
def matchBehindSlash (next : List Char → Outcome) : List Char → Outcome
  | [] => next []
  | c :: cs =>
      if c = '/' then
        match next cs with
        | .mismatch => matchBehindSlash next cs
        | o => o
      else matchBehindSlash next cs

/-- Goes on with `next` where `**` ends: here, behind a slash, or at the end. -/
def matchTree (next : List Char → Outcome) (cs : List Char) : Outcome :=
  match next cs with
  | .mismatch => matchBehindSlash next cs
  | o => o

def matchTokens : List Token → List Char → Outcome
  | [], [] => .matched
  | [], _ :: _ => .mismatch
  | .star :: ts, cs => matchStar (matchTokens ts) cs
  | .tree :: ts, cs => matchTree (matchTokens ts) cs
  | _ :: _, [] => .short
  | t :: ts, c :: cs => if t.accepts c then matchTokens ts cs else .mismatch

namespace Pattern

def matchesText (p : Pattern) (s : String) : Bool :=
  matchTokens p.tokens s.toList == .matched

/-- Does the pattern exclude a path: does it match the path or a directory above it? -/
def excludes (p : Pattern) (path : Path) : Bool :=
  path.ancestors.any fun a => a.text != "" && p.matchesText a.text

end Pattern

end DocStamp.Glob
