/-
Strings of JSON: how they are read, passed over and written.

Reading starts behind the opening quote and stops behind the closing
one.  A character beyond the first plane may be written as two escapes,
a leading and a trailing half.  Passing over a string does not look at
halves.
-/
import DocStamp.Json.Error

namespace DocStamp.Json

/-! ## Escapes -/

def hexDigit? (c : Char) : Option Nat :=
  if c.isDigit then some (c.toNat - '0'.toNat)
  else if 'a' ≤ c ∧ c ≤ 'f' then some (c.toNat - 'a'.toNat + 10)
  else if 'A' ≤ c ∧ c ≤ 'F' then some (c.toNat - 'A'.toNat + 10)
  else none

def readUnit : List Char → Except Error (Nat × List Char)
  | a :: b :: c :: d :: rest =>
      match hexDigit? a, hexDigit? b, hexDigit? c, hexDigit? d with
      | some a, some b, some c, some d => .ok (4096 * a + 256 * b + 16 * c + d, rest)
      | _, _, _, _ => .error .badEscape
  -- The digits are counted in bytes, so fewer characters may fill their place.
  | few => .error (if (String.ofList few).utf8ByteSize < 4 then .endInString else .badEscape)

/-- Is this the first of two units that make one character? -/
def isLeading (n : Nat) : Bool := 0xD800 ≤ n && n ≤ 0xDBFF

/-- Is this the second of two units that make one character? -/
def isTrailing (n : Nat) : Bool := 0xDC00 ≤ n && n ≤ 0xDFFF

/-- The character that two units make. -/
def pairChar (lead trail : Nat) : Char :=
  Char.ofNat ((lead - 0xD800) * 1024 + (trail - 0xDC00) + 0x10000)

/-- Reads the second unit of a character, with its mark. -/
def readTrailing (lead : Nat) : List Char → Except Error (Char × List Char)
  | '\\' :: 'u' :: cs => do
      let (trail, rest) ← readUnit cs
      if isTrailing trail then return (pairChar lead trail, rest) else throw .loneSurrogate
  | [] => .error .endInString
  | ['\\'] => .error .endInString
  | _ => .error .cutSurrogate

/-- Reads a character that is given by its number. -/
def readNumbered (cs : List Char) : Except Error (Char × List Char) := do
  let (n, rest) ← readUnit cs
  if isTrailing n then throw .loneSurrogate
  else if isLeading n then readTrailing n rest
  else return (Char.ofNat n, rest)

/-- The character that a letter behind a backslash stands for. -/
def escaped? (c : Char) : Option Char :=
  match c with
  | '"' => some '"'
  | '\\' => some '\\'
  | '/' => some '/'
  | 'b' => some '\x08'
  | 'f' => some '\x0c'
  | 'n' => some '\n'
  | 'r' => some '\r'
  | 't' => some '\t'
  | _ => none

def readEscape : List Char → Except Error (Char × List Char)
  | [] => .error .endInString
  | 'u' :: cs => readNumbered cs
  | c :: cs =>
      match escaped? c with
      | some e => .ok (e, cs)
      | none => .error .badEscape

def skipEscape : List Char → Except Error (List Char)
  | [] => .error .endInString
  | 'u' :: cs => Prod.snd <$> readUnit cs
  | c :: cs => if (escaped? c).isSome then .ok cs else .error .badEscape

/-! ## Strings -/

/-- Characters that must be written as escapes. -/
def isControl (c : Char) : Bool := c.toNat < 0x20

/-- Reads the characters of a string, at most `n`, and its closing quote. -/
def readChars : Nat → List Char → Except Error (List Char × List Char)
  | 0, _ => .error .endInString
  | _, [] => .error .endInString
  | n + 1, c :: cs =>
      if c = '"' then .ok ([], cs)
      else if c = '\\' then do
        let (e, cs) ← readEscape cs
        let (more, rest) ← readChars n cs
        return (e :: more, rest)
      else if isControl c then .error .controlCharacter
      else do
        let (more, rest) ← readChars n cs
        return (c :: more, rest)

def readString (cs : List Char) : Except Error (String × List Char) := do
  let (s, rest) ← readChars cs.length cs
  return (String.ofList s, rest)

/-- Passes over the characters of a string, at most `n`, and its closing quote. -/
def skipChars : Nat → List Char → Except Error (List Char)
  | 0, _ => .error .endInString
  | _, [] => .error .endInString
  | n + 1, c :: cs =>
      if c = '"' then .ok cs
      else if c = '\\' then do skipChars n (← skipEscape cs)
      else if isControl c then .error .controlCharacter
      else skipChars n cs

def skipString (cs : List Char) : Except Error (List Char) := skipChars cs.length cs

/-! ## Writing -/

/-- One character as it is written inside a string. -/
def writeChar (c : Char) : List Char :=
  if c = '"' then ['\\', '"']
  else if c = '\\' then ['\\', '\\']
  else if c = '\x08' then ['\\', 'b']
  else if c = '\x0c' then ['\\', 'f']
  else if c = '\n' then ['\\', 'n']
  else if c = '\r' then ['\\', 'r']
  else if c = '\t' then ['\\', 't']
  else if isControl c then
    ['\\', 'u', '0', '0', Nat.digitChar (c.toNat / 16), Nat.digitChar (c.toNat % 16)]
  else [c]

def writeString (s : String) : List Char := '"' :: s.toList.flatMap writeChar ++ ['"']

end DocStamp.Json
