/-
A place in an XML document, and the small readers that move it.

Every reader takes a cursor and gives back what it read together with
the cursor behind it, or the error that stands there.
-/
import DocStamp.Xml.Chars
import DocStamp.Xml.Error

namespace DocStamp.Xml

/-- What is left of a document, and the position where it begins. -/
structure Cursor where
  rest : List Char
  position : Position
deriving Repr

def Cursor.start (text : List Char) : Cursor := ⟨text, ⟨1, 1⟩⟩

/-- The position behind a character. -/
def Position.next (p : Position) (c : Char) : Position :=
  if c = '\n' then ⟨p.line + 1, 1⟩ else ⟨p.line, p.column + 1⟩

namespace Cursor

/-- The cursor behind the next `n` characters. -/
def advance : Nat → Cursor → Cursor
  | 0, k => k
  | n + 1, ⟨[], p⟩ => advance n ⟨[], p⟩
  | n + 1, ⟨c :: cs, p⟩ => advance n ⟨cs, p.next c⟩

def startsWith (k : Cursor) (s : String) : Bool := s.toList.isPrefixOf k.rest

/-! ## Reading characters -/

/-- Reads characters as long as the test holds. -/
def takeWhile (test : Char → Bool) : List Char → Position → List Char × Cursor
  | [], p => ([], ⟨[], p⟩)
  | c :: cs, p =>
      if test c then
        let (read, k) := takeWhile test cs (p.next c)
        (c :: read, k)
      else ([], ⟨c :: cs, p⟩)

def skipSpaces (k : Cursor) : Cursor := (takeWhile isSpace k.rest k.position).2

def atSpace (k : Cursor) : Bool :=
  match k.rest with
  | c :: _ => isSpace c
  | [] => false

/-- Reads legal characters up to a place where the test holds of what is left. -/
def readUntil (stop : List Char → Bool) : List Char → Position → Except Error (List Char × Cursor)
  | [], p => .ok ([], ⟨[], p⟩)
  | c :: cs, p =>
      if !isLegal c then .error (.illegalChar c p)
      else if stop (c :: cs) then .ok ([], ⟨c :: cs, p⟩)
      else
        match readUntil stop cs (p.next c) with
        | .ok (read, k) => .ok (c :: read, k)
        | .error e => .error e

def expectChar (expected : Char) (k : Cursor) : Except Error Cursor :=
  match k.rest with
  | [] => .error .endOfStream
  | c :: _ =>
      if c = expected then .ok (k.advance 1)
      else .error (.char expected (firstByte c) k.position)

def expectString (expected : String) (k : Cursor) : Except Error Cursor :=
  if k.startsWith expected then .ok (k.advance expected.length)
  else .error (.string expected k.position)

/-- Reads a quotation mark of either kind. -/
def readQuote (k : Cursor) : Except Error (Char × Cursor) :=
  match k.rest with
  | [] => .error .endOfStream
  | c :: _ =>
      if c = '"' || c = '\x27' then .ok (c, k.advance 1)
      else .error (.quote (firstByte c) k.position)

/-- Reads a name without looking for a colon in it. -/
def readName (k : Cursor) : Except Error (String × Cursor) :=
  match k.rest with
  | [] => .error (.name k.position)
  | c :: _ =>
      if isNameStart c then
        let (read, k) := takeWhile isNameChar k.rest k.position
        .ok (String.ofList read, k)
      else .error (.name k.position)

end Cursor

/-! ## Tag names -/

/-- A name as a tag writes it: an optional part before a colon, and the rest. -/
structure TagName where
  space : String
  localName : String
deriving DecidableEq, Repr

def TagName.text (n : TagName) : String :=
  if n.space == "" then n.localName else n.space ++ ":" ++ n.localName

def beginsName : List Char → Bool
  | [] => false
  | c :: _ => isNameStart c

/-- Reads a tag name.  The part before a colon may be empty, the rest may not. -/
def Cursor.readTagName (k : Cursor) : Except Error (TagName × Cursor) :=
  let (read, k') := Cursor.takeWhile isNameChar k.rest k.position
  let first := read.takeWhile (· != ':')
  match read.drop first.length with
  | [] =>
      if beginsName first then .ok (⟨"", String.ofList first⟩, k') else .error (.name k.position)
  | _ :: second =>
      if second.contains ':' then .error (.name k.position)
      else if (first.isEmpty || beginsName first) && beginsName second then
        .ok (⟨String.ofList first, String.ofList second⟩, k')
      else .error (.name k.position)

end DocStamp.Xml
