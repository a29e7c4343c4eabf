/-
References in character data and attribute values.

A reference stands for a character, by number or by one of five names.
Line ends are normalised in character data, and white space turns into
blanks in attribute values; characters that came from references are
left alone.
-/
import DocStamp.Xml.Cursor

namespace DocStamp.Xml

/-- What a reference stands for. -/
inductive Reference where
  | char (c : Char)
  | entity (name : String)
deriving DecidableEq, Repr

/-! ## References -/

def digitValue? (base : Nat) (c : Char) : Option Nat :=
  let value? : Option Nat :=
    if c.isDigit then some (c.toNat - '0'.toNat)
    else if 'a' ≤ c && c ≤ 'f' then some (c.toNat - 'a'.toNat + 10)
    else if 'A' ≤ c && c ≤ 'F' then some (c.toNat - 'A'.toNat + 10)
    else none
  value?.filter (· < base)

def digitsValue (base : Nat) (digits : List Char) : Nat :=
  digits.foldl (fun n c => base * n + (digitValue? base c).getD 0) 0

/-- The character with a number, if the number fits 32 bits and the character is legal.
A number that is no character stands for U+FFFD. -/
def charOfNumber? (n : Nat) : Option Char :=
  if n < 0x100000000 then
    let c := if n.isValidChar then Char.ofNat n else Char.ofNat 0xFFFD
    if isLegal c then some c else none
  else none

/-- The character that a name stands for in every document. -/
def namedChar? : String → Option Char
  | "quot" => some '"'
  | "amp" => some '&'
  | "apos" => some '\x27'
  | "lt" => some '<'
  | "gt" => some '>'
  | _ => none

/-- Passes over the semicolon that ends a reference. -/
def endReference? (r : Reference) : List Char → Option (Reference × List Char)
  | ';' :: cs => some (r, cs)
  | _ => none

/-- The reference by number in a base, behind the sign that opens it. -/
def numbered? (base : Nat) (cs : List Char) : Option (Reference × List Char) :=
  let digits := cs.takeWhile fun c => (digitValue? base c).isSome
  if digits.isEmpty then none
  else (charOfNumber? (digitsValue base digits)).bind fun c =>
    endReference? (.char c) (cs.drop digits.length)

/-- The reference behind an ampersand, and the text behind it. -/
def reference? : List Char → Option (Reference × List Char)
  | '#' :: 'x' :: cs => numbered? 16 cs
  | '#' :: cs => numbered? 10 cs
  | cs =>
      if beginsName cs then
        let name := cs.takeWhile isNameChar
        let reference := match namedChar? (String.ofList name) with
          | some c => Reference.char c
          | none => .entity (String.ofList name)
        endReference? reference (cs.drop name.length)
      else none

/-! ## Resolving -/

/-- A piece of character data: a character as written, or one given by a reference. -/
inductive Datum where
  | plain (c : Char)
  | given (c : Char)
deriving DecidableEq, Repr

/-- Resolves the references of a text that begins at a position.  The number of
characters still to read bounds the recursion. -/
def resolveFrom : Nat → List Char → Position → Except Error (List Datum)
  | 0, _, _ => .ok []
  | _, [], _ => .ok []
  | n + 1, c :: cs, p =>
      if c = '&' then
        match reference? cs with
        | none => .error (.malformedReference p)
        | some (.entity name, _) => .error (.unknownReference name p)
        | some (.char d, rest) => do
            let k := Cursor.advance (cs.length - rest.length) ⟨cs, p.next c⟩
            return .given d :: (← resolveFrom n rest k.position)
      else return .plain c :: (← resolveFrom n cs (p.next c))

/-- Resolves the references of a text that begins at a position. -/
def resolve (cs : List Char) (p : Position) : Except Error (List Datum) :=
  resolveFrom cs.length cs p

/-! ## Normalisation -/

/-- The value of an attribute: white space becomes blanks, a line end one blank. -/
def attributeChars : List Datum → List Char
  | [] => []
  | .given c :: ds => c :: attributeChars ds
  | .plain '\r' :: .plain '\n' :: ds => ' ' :: attributeChars ds
  | .plain c :: ds => (if c = '\n' || c = '\r' || c = '\t' then ' ' else c) :: attributeChars ds

/-- Adds a character of a text to what was read, latest first.  A carriage return
waits for the next character to tell which line end it is, unless it is the last. -/
def pushData (read : List Char) (c : Char) (last : Bool) : List Char :=
  match read with
  | '\r' :: read =>
      if last && c = '\r' then '\n' :: '\n' :: read
      else if c = '\n' then '\n' :: read
      else c :: '\n' :: read
  | read => if last && c = '\r' then '\n' :: read else c :: read

/-- Normalises line ends, latest characters first.  A character behind a reference
is taken as it is. -/
def pushAll (read : List Char) (asIs : Bool) : List Datum → List Char
  | [] => read
  | .given c :: ds => pushAll (c :: read) true ds
  | .plain c :: ds =>
      if asIs then pushAll (c :: read) false ds
      else pushAll (pushData read c ds.isEmpty) false ds

/-- Character data with its line ends normalised. -/
def dataChars (ds : List Datum) : List Char := (pushAll [] false ds).reverse

end DocStamp.Xml
