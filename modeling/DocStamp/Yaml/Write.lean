/-
Writing YAML in block style.

Lists stand under their key without further indentation, and lines are
never folded.  A text is written plain where it can be; in single quotes
where it would be taken for something else or has a mark in the wrong
place; as a literal block when it has several lines; and in double
quotes where none of these can hold it.
-/
import DocStamp.Yaml.Cursor
import DocStamp.Yaml.Scalar

namespace DocStamp.Yaml

/-- A document to be written. -/
inductive Value where
  | null
  | text (s : String)
  | list (items : List Value)
  | map (entries : List (String × Value))
deriving Repr

inductive Layout where
  | plain
  | single
  | double
  | literal
deriving DecidableEq, Repr

/-! ## Which layouts a text allows -/

/-- Characters that may stand in a document as they are. -/
def isPrintable (c : Char) : Bool :=
  let n := c.toNat
  n == 0x0A || (0x20 ≤ n && n ≤ 0x7E) || (0xA0 ≤ n && n ≤ 0xFFFD && n != 0xFEFF) ||
    0x10000 ≤ n

/-- Marks with which no plain text begins. -/
def isOpeningMark (c : Char) : Bool :=
  ['#', ',', '[', ']', '\x7b', '\x7d', '&', '*', '!', '|', '>', '\x27', '"', '%', '@', '\x60'].contains c

/-- Is there a mark inside a text that ends it?  `gap` tells whether a blank or a break came last. -/
def hasInnerMark : Bool → List Char → Bool
  | _, [] => false
  | gap, c :: cs =>
      (c == ':' && gapNext cs) || (c == '#' && gap) || hasInnerMark (gapNext [c]) cs

/-- Does the text begin with a mark, so that it cannot be plain? -/
def hasOpeningMark : List Char → Bool
  | [] => false
  | c :: cs =>
      isOpeningMark c || ((c == '?' || c == ':' || c == '-') && gapNext cs)
        || ['-', '-', '-'].isPrefixOf (c :: cs) || ['.', '.', '.'].isPrefixOf (c :: cs)

/-- Do two neighbours stand somewhere in the text? -/
def hasPair (p q : Char → Bool) : List Char → Bool
  | c :: d :: cs => (p c && q d) || hasPair p q (d :: cs)
  | _ => false

/-- Is the first or the last character of this kind? -/
def atEdge (p : Char → Bool) (cs : List Char) : Bool := cs.head?.any p || cs.getLast?.any p

def isSpace (c : Char) : Bool := c == ' '

def canBePlain (cs : List Char) : Bool :=
  !(hasOpeningMark cs || hasInnerMark (gapNext (cs.take 1)) (cs.drop 1) || atEdge isSpace cs
    || cs.any isBreak || !cs.all isPrintable)

def canBeSingle (cs : List Char) : Bool :=
  cs.all isPrintable && !hasPair isSpace isBreak cs && !hasPair isBreak isSpace cs

def canBeLiteral (cs : List Char) : Bool :=
  cs.all isPrintable && !hasPair isSpace isBreak cs && !cs.getLast?.any isSpace

/-- Would the text be taken for something else if it were plain? -/
def isMistakable (s : String) : Bool :=
  match resolvePlain s with
  | .string _ => hasLeadingZero s.toList
  | _ => true

def layoutOf (s : String) : Layout :=
  let cs := s.toList
  if cs.contains '\n' then if canBeLiteral cs then .literal else .double
  else if !isMistakable s && canBePlain cs then .plain
  else if canBeSingle cs then .single
  else .double

/-! ## Literal blocks -/

def spaces (n : Nat) : List Char := List.replicate n ' '

/-- The lines of a text, indented where they are not empty.  `fresh` tells whether a
line has just begun. -/
def indentLines (indent : Nat) : Bool → List Char → List Char
  | _, [] => []
  | fresh, c :: cs =>
      if isBreak c then c :: indentLines indent true cs
      else (if fresh then spaces indent else []) ++ c :: indentLines indent false cs

/-- The marks behind `|`: how deep the text lies if that cannot be seen, and how it ends. -/
def literalMarks (cs : List Char) : List Char :=
  (if cs.head?.any (fun c => isSpace c || isBreak c) then ['2'] else []) ++
    match cs.reverse with
    | [] => ['-']
    | c :: rest =>
        if !isBreak c then ['-']
        else
          match rest with
          | [] => ['+']
          | d :: _ => if isBreak d then ['+'] else []

/-- A text as a literal block, with the break at its end. -/
def writeLiteral (indent : Nat) (cs : List Char) : List Char :=
  '|' :: literalMarks cs ++ '\n' :: indentLines indent true cs ++
    (if cs.getLast?.any isBreak then [] else ['\n'])

/-! ## Quoted texts -/

/-- The characters of a text in single quotes.  A break is followed by indentation, but not
before a space. -/
def singleChars (indent : Nat) : Bool → List Char → List Char
  | fresh, [] => if fresh then spaces indent else []
  | fresh, c :: cs =>
      if isSpace c then c :: singleChars indent fresh cs
      else if isBreak c then c :: singleChars indent true cs
      else (if fresh then spaces indent else []) ++
        (if c == '\x27' then ['\x27', '\x27'] else [c]) ++ singleChars indent false cs

def writeSingle (indent : Nat) (cs : List Char) : List Char :=
  '\x27' :: singleChars indent false cs ++ ['\x27']

/-- The letter behind a backslash that stands for a character. -/
def escapeLetter? (c : Char) : Option Char :=
  match c.toNat with
  | 0x00 => some '0'
  | 0x07 => some 'a'
  | 0x08 => some 'b'
  | 0x09 => some 't'
  | 0x0A => some 'n'
  | 0x0B => some 'v'
  | 0x0C => some 'f'
  | 0x0D => some 'r'
  | 0x1B => some 'e'
  | 0x22 => some '"'
  | 0x5C => some '\\'
  | 0x85 => some 'N'
  | 0x2028 => some 'L'
  | 0x2029 => some 'P'
  | _ => none

def hexDigit (n : Nat) : Char := (Nat.digitChar n).toUpper

/-- The last `width` hexadecimal digits of a number. -/
def hexDigits (n : Nat) : Nat → List Char
  | 0 => []
  | width + 1 => hexDigits (n / 16) width ++ [hexDigit (n % 16)]

/-- A character by its number, with as many digits as its size needs. -/
def spellNumber (n : Nat) : List Char :=
  if n ≤ 0xff then 'x' :: hexDigits n 2
  else if n ≤ 0xffff then 'u' :: hexDigits n 4
  else 'U' :: hexDigits n 8

def doubleChar (c : Char) : List Char :=
  if !isPrintable c || isBreak c || c == '"' || c == '\\' then
    '\\' :: match escapeLetter? c with
      | some l => [l]
      | none => spellNumber c.toNat
  else [c]

def writeDouble (cs : List Char) : List Char := '"' :: cs.flatMap doubleChar ++ ['"']

/-! ## Documents -/

/-- A text as it stands behind a key or a dash, with the break at its end. -/
def writeText (indent : Nat) (s : String) : List Char :=
  match layoutOf s with
  | .plain => s.toList ++ ['\n']
  | .single => writeSingle (indent + 2) s.toList ++ ['\n']
  | .double => writeDouble s.toList ++ ['\n']
  | .literal => writeLiteral (indent + 2) s.toList

mutual

/-- What follows a key at some indentation, to the end of the line or further. -/
def writeBehindKey (indent : Nat) : Value → List Char
  | .null => [' ', 'n', 'u', 'l', 'l', '\n']
  | .text s => ' ' :: writeText indent s
  | .list [] => [' ', '[', ']', '\n']
  | .list (item :: items) => '\n' :: writeItems indent (item :: items)
  | .map [] => [' ', '\x7b', '\x7d', '\n']
  | .map (e :: entries) => '\n' :: writeEntries (indent + 2) (spaces (indent + 2)) (e :: entries)

/-- What follows a dash at some indentation, to the end of the line or further. -/
def writeBehindDash (indent : Nat) : Value → List Char
  | .null => ['n', 'u', 'l', 'l', '\n']
  | .text s => writeText indent s
  | .list [] => ['[', ']', '\n']
  | .list (item :: items) =>
      ['-', ' '] ++ writeBehindDash (indent + 2) item ++ writeItems (indent + 2) items
  | .map [] => ['\x7b', '\x7d', '\n']
  | .map (e :: entries) => writeEntries (indent + 2) [] (e :: entries)

/-- The items of a list, each on a line of its own. -/
def writeItems (indent : Nat) : List Value → List Char
  | [] => []
  | item :: items =>
      spaces indent ++ ['-', ' '] ++ writeBehindDash indent item ++ writeItems indent items

/-- The entries of a map; `lead` stands before the first of them. -/
def writeEntries (indent : Nat) (lead : List Char) : List (String × Value) → List Char
  | [] => []
  | (key, value) :: entries =>
      lead ++ key.toList ++ ':' :: writeBehindKey indent value ++
        writeEntries indent (spaces indent) entries

end

/-- The text of a document that is a map. -/
def write (entries : List (String × Value)) : String :=
  String.ofList (writeEntries 0 [] entries)

end DocStamp.Yaml
