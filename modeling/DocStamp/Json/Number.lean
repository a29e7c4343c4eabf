/-
Numbers of JSON.

An integer that fits 64 bits is kept exactly.  Any other number is a
64-bit floating-point number, made from at most 64 bits of digits and a
power of ten by one rounded multiplication or division.
-/
import DocStamp.Decimal.Shortest
import DocStamp.Json.Error

namespace DocStamp.Json

open Decimal (Magnitude)

inductive Number where
  | integer (n : Int)
  | float (negative : Bool) (x : Magnitude)
deriving DecidableEq, Repr

def Number.found : Number → Found
  | .integer n => .integer n
  | .float negative x =>
      .float ((if negative then "-" else "") ++ String.ofList (x.shortest .even).scientific)

/-! ## Floating-point numbers -/

def greatestSignificand : Nat := 0xFFFFFFFFFFFFFFFF

def greatestExponent : Nat := 0x7FFFFFFF

/-- The greatest power of ten that a number can be scaled by at once. -/
def greatestPower : Int := 308

def digitValue (c : Char) : Nat := c.toNat - '0'.toNat

/-- Takes digits into a significand as long as it fits, and gives the others back. -/
def absorb (significand : Nat) : List Char → Nat × List Char
  | [] => (significand, [])
  | c :: cs =>
      let next := 10 * significand + digitValue c
      if next ≤ greatestSignificand then absorb next cs else (significand, c :: cs)

/-- Divides by a power of ten, in at most `n` steps of what is possible at once. -/
def divideDown : Nat → Magnitude → Nat → Option Magnitude
  | 0, x, _ => some x
  | n + 1, x, e =>
      if e ≤ greatestPower.toNat then do x.div? (← Magnitude.ofDecimal? 1 e)
      else if x.significand = 0 then some x
      else do divideDown n (← x.div? (← Magnitude.ofDecimal? 1 greatestPower)) (e - greatestPower.toNat)

/-- The number `significand * 10 ^ e`, rounded; none when it is too large. -/
def scaled? (significand : Nat) (e : Int) : Option Magnitude := do
  let x ← Magnitude.ofRatio? significand 1
  if e < 0 then divideDown ((-e).toNat + 1) x (-e).toNat
  else if e ≤ greatestPower then x.mul? (← Magnitude.ofDecimal? 1 e)
  else if significand = 0 then some x
  else none

/-- A floating-point number from its parts. -/
def floatOf (negative : Bool) (significand : Nat) (e : Int) : Except Error Number :=
  match scaled? significand e with
  | some x => .ok (.float negative x)
  | none => .error .outOfRange

/-! ## Reading -/

def digitsValue (cs : List Char) : Nat := cs.foldl (fun n c => 10 * n + digitValue c) 0

/-- The sign of an exponent: is it negative, and what follows. -/
def exponentSign : List Char → Bool × List Char
  | '+' :: cs => (false, cs)
  | '-' :: cs => (true, cs)
  | cs => (false, cs)

/-- Reads an exponent behind its mark and ends the number. -/
def readExponent (negative : Bool) (significand : Nat) (start : Int) (cs : List Char) :
    Except Error (Number × List Char) := do
  let (down, cs) := exponentSign cs
  let digits := cs.takeWhile Char.isDigit
  let rest := cs.dropWhile Char.isDigit
  if digits.isEmpty then throw (if rest.isEmpty then .endInValue else .badNumber)
  let e := digitsValue digits
  if greatestExponent < e then
    if significand ≠ 0 ∧ !down then throw .outOfRange
    return (← floatOf negative 0 0, rest)
  return (← floatOf negative significand (if down then start - e else start + e), rest)

def isExponentMark (c : Char) : Bool := c = 'e' || c = 'E'

/-- Ends a number behind its digits: an exponent may follow. -/
def readEnd (negative : Bool) (significand : Nat) (e : Int) :
    List Char → Except Error (Number × List Char)
  | c :: cs =>
      if isExponentMark c then readExponent negative significand e cs
      else (·, c :: cs) <$> floatOf negative significand e
  | [] => (·, []) <$> floatOf negative significand e

/-- Reads the digits behind a point and ends the number. -/
def readFraction (negative : Bool) (significand : Nat) (e : Int) (cs : List Char) :
    Except Error (Number × List Char) := do
  let digits := cs.takeWhile Char.isDigit
  let rest := cs.dropWhile Char.isDigit
  if digits.isEmpty then throw (if rest.isEmpty then .endInValue else .badNumber)
  let (significand, left) := absorb significand digits
  readEnd negative significand (e - (digits.length - left.length : Nat)) rest

/-- The integer with these digits, as far as 64 bits go. -/
def wholeNumber (negative : Bool) (n : Nat) : Except Error Number :=
  if !negative then .ok (.integer n)
  else if n = 0 ∨ 0x8000000000000000 < n then floatOf true n 0
  else .ok (.integer (-n))

/-- Reads a number behind its sign. -/
def readNumber (negative : Bool) (cs : List Char) : Except Error (Number × List Char) := do
  let digits := cs.takeWhile Char.isDigit
  let rest := cs.dropWhile Char.isDigit
  if digits.isEmpty then throw (if rest.isEmpty then .endInValue else .badNumber)
  -- A zero in front stands alone.
  if digits.head? = some '0' ∧ 1 < digits.length then throw .badNumber
  let (significand, left) := absorb 0 digits
  match rest with
  | '.' :: cs => readFraction negative significand left.length cs
  | c :: _ =>
      if isExponentMark c ∨ left ≠ [] then readEnd negative significand left.length rest
      else return (← wholeNumber negative significand, rest)
  | [] =>
      if left ≠ [] then readEnd negative significand left.length []
      else return (← wholeNumber negative significand, [])

/-! ## Passing over -/

/-- Passes over the digits of an exponent behind its mark. -/
def skipExponent (cs : List Char) : Except Error (List Char) :=
  let cs := (exponentSign cs).2
  if (cs.takeWhile Char.isDigit).isEmpty then .error .badNumber
  else .ok (cs.dropWhile Char.isDigit)

/-- Passes over an exponent, if there is one. -/
def skipEnd : List Char → Except Error (List Char)
  | c :: cs => if isExponentMark c then skipExponent cs else .ok (c :: cs)
  | [] => .ok []

def skipNumber (cs : List Char) : Except Error (List Char) := do
  let digits := cs.takeWhile Char.isDigit
  let rest := cs.dropWhile Char.isDigit
  if digits.isEmpty then throw .badNumber
  if digits.head? = some '0' ∧ 1 < digits.length then throw .badNumber
  match rest with
  | '.' :: cs =>
      if (cs.takeWhile Char.isDigit).isEmpty then throw .badNumber
      skipEnd (cs.dropWhile Char.isDigit)
  | rest => skipEnd rest

end DocStamp.Json
