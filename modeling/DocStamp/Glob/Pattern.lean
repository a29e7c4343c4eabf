/-
Patterns that name excluded paths.

A pattern is read character by character: `?` is one character, `*` a
run of them, `**` any number of directories, and a bracket holds a class
of characters.  There is no escape character.  A faulty pattern is
reported with the place of the fault, counted in characters from 0.
-/

namespace DocStamp.Glob

/-- The ranges of a class of characters; a single character is a range of its own. -/
abbrev Ranges := List (Char × Char)

/-- One token of a pattern. -/
inductive Token where
  /-- The character itself. -/
  | lit (c : Char)
  /-- Any one character. -/
  | any
  /-- One character of a class. -/
  | oneOf (rs : Ranges)
  /-- One character outside a class. -/
  | noneOf (rs : Ranges)
  /-- Any run of characters within a name. -/
  | star
  /-- Any number of directories. -/
  | tree
deriving DecidableEq, Repr

/-! ## Faults -/

inductive Fault where
  | stars
  | component
  | range
deriving DecidableEq, Repr

/-- A fault and the character at which it stands. -/
structure Error where
  position : Nat
  fault : Fault
deriving DecidableEq, Repr

def Fault.message : Fault → String
  | .stars => "wildcards are either regular `*` or recursive `**`"
  | .component => "recursive wildcards must form a single path component"
  | .range => "invalid range pattern"

def Error.message (e : Error) : String :=
  s!"Pattern syntax error near position {e.position}: {e.fault.message}"

/-- A pattern: its text and the tokens that the text stands for. -/
structure Pattern where
  text : String
  tokens : List Token
deriving DecidableEq, Repr

/-! ## Classes -/

/-- The ranges that the inside of a bracket lists: `a-z`, or single characters. -/
def rangesOf : List Char → Ranges
  | a :: '-' :: b :: cs => (a, b) :: rangesOf cs
  | a :: cs => (a, a) :: rangesOf cs
  | [] => []

/-- Cuts a text at its first closing bracket. -/
def splitBracket : List Char → Option (List Char × List Char)
  | [] => none
  | c :: cs =>
      if c = ']' then some ([], cs)
      else (splitBracket cs).map fun r => (c :: r.1, r.2)

/-- The class that follows an opening bracket, and the text behind it.  The
first character of a class belongs to it, even when it is a closing bracket. -/
def bracket? : List Char → Option (Token × List Char)
  | '!' :: c :: cs => (splitBracket cs).map fun r => (.noneOf (rangesOf (c :: r.1)), r.2)
  | ['!'] => none
  | c :: cs => (splitBracket cs).map fun r => (.oneOf (rangesOf (c :: r.1)), r.2)
  | [] => none

theorem splitBracket_length {cs : List Char} {r : List Char × List Char}
    (h : splitBracket cs = some r) : r.2.length < cs.length := by
  induction cs generalizing r with
  | nil => simp [splitBracket] at h
  | cons c cs ih =>
      unfold splitBracket at h
      split at h
      · cases h; simp
      · obtain ⟨s, hs, rfl⟩ := Option.map_eq_some_iff.1 h
        have := ih hs
        simp only [List.length_cons]; omega

theorem bracket?_length {cs : List Char} {r : Token × List Char}
    (h : bracket? cs = some r) : r.2.length < cs.length := by
  unfold bracket? at h
  split at h
  · obtain ⟨s, hs, rfl⟩ := Option.map_eq_some_iff.1 h
    have := splitBracket_length hs
    simp only [List.length_cons]; omega
  · simp at h
  · obtain ⟨s, hs, rfl⟩ := Option.map_eq_some_iff.1 h
    have := splitBracket_length hs
    simp only [List.length_cons]; omega
  · simp at h

/-! ## Reading patterns -/

/-- Adds `**` to the tokens read so far, latest first.  A second one in a row
adds nothing, unless the first of them opens the pattern. -/
def addTree : List Token → List Token
  | .tree :: t :: ts => .tree :: t :: ts
  | ts => .tree :: ts

/-- Reads the rest of a pattern.  `before` is the character in front of the
rest, `position` the number of characters read, `read` the tokens so far,
latest first. -/
def parseFrom (before : Option Char) (position : Nat) (read : List Token) :
    List Char → Except Error (List Token)
  | [] => .ok read.reverse
  | '?' :: cs => parseFrom (some '?') (position + 1) (.any :: read) cs
  | '*' :: '*' :: '*' :: _ => .error ⟨position + 2, .stars⟩
  | '*' :: '*' :: cs =>
      if before = none ∨ before = some '/' then
        match cs with
        | [] => .ok (addTree read).reverse
        | '/' :: cs => parseFrom (some '/') (position + 3) (addTree read) cs
        | _ => .error ⟨position + 2, .component⟩
      else .error ⟨position - 1, .component⟩
  | '*' :: cs => parseFrom (some '*') (position + 1) (.star :: read) cs
  | '[' :: cs =>
      match h : bracket? cs with
      | some (token, rest) =>
          have : rest.length < cs.length := bracket?_length h
          parseFrom (some ']') (position + 1 + (cs.length - rest.length)) (token :: read) rest
      | none => .error ⟨position, .range⟩
  | c :: cs => parseFrom (some c) (position + 1) (.lit c :: read) cs
termination_by s => s.length

def Pattern.parse (text : String) : Except Error Pattern :=
  (parseFrom none 0 [] text.toList).map fun tokens => ⟨text, tokens⟩

end DocStamp.Glob
