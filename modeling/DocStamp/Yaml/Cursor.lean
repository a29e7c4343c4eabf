/-
A place in a YAML document, the character classes, and the small readers.
-/
import DocStamp.Yaml.Error

namespace DocStamp.Yaml

/-- May the character stand in a document? -/
def isAllowed (c : Char) : Bool :=
  let n := c.toNat
  n == 0x09 || n == 0x0A || n == 0x0D || (0x20 ≤ n && n ≤ 0x7E) || n == 0x85 ||
    (0xA0 ≤ n && n ≤ 0xFFFD) || 0x10000 ≤ n

/-- A space or a tab. -/
def isGap (c : Char) : Bool := c == ' ' || c == '\t'

/-- A line break; the carriage return counts alone or before a line feed. -/
def isBreak (c : Char) : Bool :=
  c == '\n' || c == '\r' || c.toNat == 0x85 || c.toNat == 0x2028 || c.toNat == 0x2029

/-- A letter, a digit, `_` or `-`. -/
def isWordChar (c : Char) : Bool := c.isAlphanum || c == '_' || c == '-'

/-- Does the text begin with a space, a tab or a line break, or is it at its end? -/
def gapNext : List Char → Bool
  | [] => true
  | c :: _ => isGap c || isBreak c

/-- Does the text begin with a line break, or is it at its end? -/
def breakNext : List Char → Bool
  | [] => true
  | c :: _ => isBreak c

def charNext (c : Char) (cs : List Char) : Bool := cs.head? == some c

/-! ## Marks -/

/-- The mark behind a character that is no line break. -/
def Mark.next (m : Mark) (c : Char) : Mark := ⟨m.index + c.utf8Size, m.line, m.column + 1⟩

/-- The mark behind a line break of `n` bytes. -/
def Mark.nextLine (m : Mark) (n : Nat) : Mark := ⟨m.index + n, m.line + 1, 0⟩

/-! ## Cursors -/

/-- What is left of a document, and the mark where it begins. -/
structure Cursor where
  rest : List Char
  mark : Mark
deriving Repr

namespace Cursor

def start (text : List Char) : Cursor := ⟨text, ⟨0, 0, 0⟩⟩

/-- Passes over a character that is no line break, if there is one. -/
def skip (k : Cursor) : Cursor :=
  match k.rest with
  | c :: cs => ⟨cs, k.mark.next c⟩
  | [] => k

def skipN : Nat → Cursor → Cursor
  | 0, k => k
  | n + 1, k => skipN n k.skip

/-- Reads a line break, as the characters it stands for.  Where there is none,
nothing is read. -/
def readBreak (k : Cursor) : List Char × Cursor :=
  match k.rest with
  | '\r' :: '\n' :: cs => (['\n'], ⟨cs, k.mark.nextLine 2⟩)
  | c :: cs =>
      if c == '\n' || c == '\r' || c.toNat == 0x85 then
        (['\n'], ⟨cs, k.mark.nextLine c.utf8Size⟩)
      else if isBreak c then ([c], ⟨cs, k.mark.nextLine c.utf8Size⟩)
      else ([], k)
  | [] => ([], k)

def skipBreak (k : Cursor) : Cursor := k.readBreak.2

/-- Reads characters as long as the test holds; the test refuses line breaks. -/
def takeWhile (test : Char → Bool) : List Char → Mark → List Char × Cursor
  | [], m => ([], ⟨[], m⟩)
  | c :: cs, m =>
      if test c then
        let (read, k) := takeWhile test cs (m.next c)
        (c :: read, k)
      else ([], ⟨c :: cs, m⟩)

/-- Reads characters as long as the test holds; the test refuses line breaks. -/
def read (test : Char → Bool) (k : Cursor) : List Char × Cursor := takeWhile test k.rest k.mark

def skipGaps (k : Cursor) : Cursor := (k.read isGap).2

def skipComment (k : Cursor) : Cursor :=
  if charNext '#' k.rest then (k.read fun c => !isBreak c).2 else k

/-- Passes over a byte order mark at the start of a line, if there is one. -/
def skipByteOrderMark (k : Cursor) : Cursor :=
  if k.mark.column == 0 && k.rest.head?.any (·.toNat == 0xFEFF) then k.skip else k

/-- Does a line begin here with a mark of where a document starts or ends? -/
def atDocumentMark (k : Cursor) : Bool :=
  k.mark.column == 0 && (['-', '-', '-'].isPrefixOf k.rest || ['.', '.', '.'].isPrefixOf k.rest) &&
    gapNext (k.rest.drop 3)

/-- An error here, in a construct that began at `from_`. -/
def fail {α : Type} (k : Cursor) (problem : Problem) (context : Context) (from_ : Mark) :
    Except Error α :=
  .error (.malformed problem k.mark (some (context, from_)))

end Cursor

/-- The offset of the first character that no document may hold, in bytes. -/
def controlOffset? (offset : Nat) : List Char → Option Nat
  | [] => none
  | c :: cs => if isAllowed c then controlOffset? (offset + c.utf8Size) cs else some offset

end DocStamp.Yaml
