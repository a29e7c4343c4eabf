/-
Directives, anchors and tags.

The names of tags are kept as bytes, one character for each: escapes may
spell any UTF-8 sequence.  A name ends before the first zero byte.
-/
import DocStamp.Yaml.Cursor
import DocStamp.Yaml.Token

namespace DocStamp.Yaml

def hexValue? (c : Char) : Option Nat :=
  if c.isDigit then some (c.toNat - '0'.toNat)
  else if 'a' ≤ c && c ≤ 'f' then some (c.toNat - 'a'.toNat + 10)
  else if 'A' ≤ c && c ≤ 'F' then some (c.toNat - 'A'.toNat + 10)
  else none

/-- May the character stand in the name of a tag?  Three more may where the name is delimited. -/
def isUriChar (delimited : Bool) (c : Char) : Bool :=
  isWordChar c || ";/?:@&=+$.%!~*'()".toList.contains c ||
    (delimited && [',', '[', ']'].contains c)

namespace Cursor

/-! ## Tags -/

/-- The number of bytes that a first byte of UTF-8 announces. -/
def utf8Width? (octet : Nat) : Option Nat :=
  if octet < 0x80 then some 1
  else if octet / 0x20 = 6 then some 2
  else if octet / 0x10 = 14 then some 3
  else if octet / 8 = 30 then some 4
  else none

def readOctet (context : Context) (from_ : Mark) (k : Cursor) : Except Error (Nat × Cursor) :=
  match k.rest with
  | '%' :: a :: b :: _ =>
      match hexValue? a, hexValue? b with
      | some x, some y => .ok (16 * x + y, k.skipN 3)
      | _, _ => k.fail .noEscapedOctet context from_
  | _ => k.fail .noEscapedOctet context from_

/-- Reads `n` escaped bytes that go on with a character. -/
def readTrailing (context : Context) (from_ : Mark) :
    Nat → Cursor → Except Error (List Char × Cursor)
  | 0, k => .ok ([], k)
  | n + 1, k => do
      let (octet, k') ← k.readOctet context from_
      if octet / 0x40 ≠ 2 then k.fail .trailingOctet context from_
      let (more, k') ← readTrailing context from_ n k'
      return (Char.ofNat octet :: more, k')

/-- Reads the escaped bytes of one character. -/
def readEscaped (context : Context) (from_ : Mark) (k : Cursor) :
    Except Error (List Char × Cursor) := do
  let (octet, k') ← k.readOctet context from_
  match utf8Width? octet with
  | none => k.fail .leadingOctet context from_
  | some width =>
      let (more, k') ← readTrailing context from_ (width - 1) k'
      return (Char.ofNat octet :: more, k')

/-- Reads the name of a tag, at most `n` characters of it. -/
def readUriChars (delimited : Bool) (context : Context) (from_ : Mark) :
    Nat → Cursor → Except Error (List Char × Cursor)
  | 0, k => .ok ([], k)
  | n + 1, k =>
      match k.rest with
      | [] => .ok ([], k)
      | c :: _ =>
          if !isUriChar delimited c then .ok ([], k)
          else do
            let (chars, k) ← if c = '%' then k.readEscaped context from_ else pure ([c], k.skip)
            let (more, k) ← readUriChars delimited context from_ n k
            return (chars ++ more, k)

/-- Reads the name of a tag behind a head that was taken for a handle. -/
def readUri (delimited : Bool) (context : Context) (head : List Char) (from_ : Mark) (k : Cursor) :
    Except Error (String × Cursor) := do
  let (chars, k) ← readUriChars delimited context from_ k.rest.length k
  if head.isEmpty && chars.isEmpty then k.fail .noTagUri context from_
  return (String.ofList ((head.tail ++ chars).takeWhile (· != '\x00')), k)

/-- Reads what may be the handle of a tag: `!`, a word, and perhaps `!` again. -/
def readHandle (context : Context) (from_ : Mark) (k : Cursor) :
    Except Error (List Char × Cursor) :=
  match k.rest with
  | '!' :: _ =>
      let (word, k) := k.skip.read isWordChar
      if charNext '!' k.rest then .ok ('!' :: word ++ ['!'], k.skip) else .ok ('!' :: word, k)
  | _ => k.fail .noExclamation context from_

/-- Is this a whole handle: `!`, a word that may be empty, and `!`? -/
def isHandle (cs : List Char) : Bool := 1 < cs.length && cs.getLast? == some '!'

/-- Reads a tag.  Its name stands between angles, behind a handle, or behind `!`. -/
def readTag (inFlow : Bool) (k : Cursor) : Except Error (Token × Cursor) := do
  let from_ := k.mark
  let ((handle, tail), k) ←
    if charNext '<' k.rest.tail then do
      let (tail, k) ← (k.skipN 2).readUri true .tagUri [] from_
      if !charNext '>' k.rest then k.fail .noClosingAngle .tag from_
      pure (("", tail), k.skip)
    else do
      let (handle, k) ← k.readHandle .tag from_
      if isHandle handle then do
        let (tail, k) ← k.readUri false .tagUri [] from_
        pure ((String.ofList handle, tail), k)
      else do
        let (tail, k) ← k.readUri false .tagUri handle from_
        pure (if tail == "" then ("", "!") else ("!", tail), k)
  if !(inFlow && charNext ',' k.rest) && !gapNext k.rest then k.fail .noBlankOrBreak .tag from_
  return (⟨.tag handle tail, from_, k.mark⟩, k)

/-! ## Anchors -/

/-- May an anchor or alias end before this text? -/
def endsAnchor : List Char → Bool
  | [] => true
  | c :: _ => isGap c || isBreak c || "?:,]\x7d%@`".toList.contains c

/-- Reads an anchor or an alias behind its sign. -/
def readAnchor (isAlias : Bool) (k : Cursor) : Except Error (Token × Cursor) :=
  let from_ := k.mark
  let (name, k) := k.skip.read isWordChar
  if name.isEmpty || !endsAnchor k.rest then
    k.fail .noNameChar (if isAlias then .alias else .anchor) from_
  else
    let name := String.ofList name
    .ok (⟨if isAlias then .alias name else .anchor name, from_, k.mark⟩, k)

/-! ## Directives -/

def readVersionNumber (from_ : Mark) (k : Cursor) : Except Error (Nat × Cursor) :=
  let (digits, k') := k.read Char.isDigit
  if digits.isEmpty then k'.fail .noVersion .versionDirective from_
  else if 9 < digits.length then (k.skipN 9).fail .longVersion .versionDirective from_
  else .ok (digits.foldl (fun n c => 10 * n + (c.toNat - '0'.toNat)) 0, k')

/-- Reads the rest of a directive for the version. -/
def readVersion (from_ : Mark) (k : Cursor) : Except Error (TokenKind × Cursor) := do
  let (major, k) ← k.skipGaps.readVersionNumber from_
  if !charNext '.' k.rest then k.fail .noDigitOrPoint .versionDirective from_
  let (minor, k) ← k.skip.readVersionNumber from_
  return (.versionDirective major minor, k)

/-- Reads the rest of a directive for a tag handle. -/
def readTagDirective (from_ : Mark) (k : Cursor) : Except Error (TokenKind × Cursor) := do
  let (handle, k) ← k.skipGaps.readHandle .tagDirectiveHandle from_
  if !isHandle handle && handle ≠ ['!'] then k.fail .noExclamation .tagDirectiveEnd from_
  if k.rest.isEmpty || !(k.rest.head?.any isGap) then k.fail .noBlank .tagDirective from_
  let (uri, k) ← k.skipGaps.readUri true .tagDirectiveUri [] from_
  if !gapNext k.rest then k.fail .noBlankOrBreak .tagDirective from_
  return (.tagDirective (String.ofList handle) uri, k)

/-- Reads a directive and the rest of its line. -/
def readDirective (k : Cursor) : Except Error (Token × Cursor) := do
  let from_ := k.mark
  let (name, k) := k.skip.read isWordChar
  if name.isEmpty then k.fail .noDirectiveName .directive from_
  if !gapNext k.rest then k.fail .directiveNonAlphabetic .directive from_
  let (kind, k) ←
    if name = "YAML".toList then k.readVersion from_
    else if name = "TAG".toList then k.readTagDirective from_
    else k.fail .unknownDirective .directive from_
  let token : Token := ⟨kind, from_, k.mark⟩
  let k := k.skipGaps.skipComment
  if !breakNext k.rest then k.fail .noCommentOrBreak .directive from_
  return (token, k.skipBreak)

end Cursor

end DocStamp.Yaml
