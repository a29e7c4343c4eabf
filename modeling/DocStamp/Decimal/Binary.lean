/-
Numbers of 64-bit floating point, by exact arithmetic.

A magnitude is `significand * 2 ^ exponent`, where the significand has at
most 53 bits and the exponent is at least -1074.  Every operation rounds
an exact ratio of natural numbers to the nearest magnitude, a tie to the
even significand.
-/

namespace DocStamp.Decimal

/-- A finite magnitude: `significand * 2 ^ exponent`. -/
structure Magnitude where
  significand : Nat
  exponent : Int
deriving DecidableEq, Repr

/-- What a significand of 53 bits stays below. -/
def significandLimit : Nat := 0x20000000000000

def leastExponent : Int := -1074

def greatestExponent : Int := 971

/-- The ratio `num / den` divided by a power of two, as a ratio. -/
def scaleDown (num den : Nat) (e : Int) : Nat × Nat :=
  if 0 ≤ e then (num, den * Nat.pow 2 e.toNat) else (num * Nat.pow 2 (-e).toNat, den)

/-! ## Rounding -/

/-- The quotient rounded to the nearest integer, a tie to the even one. -/
def divRound (num den : Nat) : Nat :=
  let q := num / den
  let r := num % den
  if 2 * r < den then q
  else if den < 2 * r then q + 1
  else if q % 2 = 0 then q else q + 1

/-- The exponent with which a ratio has a significand of 53 bits, or the least. -/
def exponentOf (num den : Nat) : Int :=
  let guess : Int := max ((Nat.log2 num : Int) - Nat.log2 den - 53) leastExponent
  let (n, d) := scaleDown num den guess
  if n / d < significandLimit then guess else guess + 1

/-- The magnitude nearest to `num / den`; none when it is too large. -/
def Magnitude.ofRatio? (num den : Nat) : Option Magnitude :=
  if num = 0 then some ⟨0, leastExponent⟩
  else
    let e := exponentOf num den
    let (n, d) := scaleDown num den e
    let m := divRound n d
    let (m, e) := if m < significandLimit then (m, e) else (m / 2, e + 1)
    if e ≤ greatestExponent then some ⟨m, e⟩ else none

/-- The magnitude nearest to `n * 10 ^ k`; none when it is too large.  Powers
beyond what any magnitude can hold are cut off first. -/
def Magnitude.ofDecimal? (n : Nat) (k : Int) : Option Magnitude :=
  if n = 0 then some ⟨0, leastExponent⟩
  else
    let digits : Int := (Nat.toDigits 10 n).length
    if 400 < k + digits then none
    else if k + digits < -400 then some ⟨0, leastExponent⟩
    else if 0 ≤ k then ofRatio? (n * Nat.pow 10 k.toNat) 1
    else ofRatio? n (Nat.pow 10 (-k).toNat)

def Magnitude.ratio (x : Magnitude) : Nat × Nat :=
  if 0 ≤ x.exponent then (x.significand * Nat.pow 2 x.exponent.toNat, 1)
  else (x.significand, Nat.pow 2 (-x.exponent).toNat)

/-- The rounded product; none when it is too large. -/
def Magnitude.mul? (x y : Magnitude) : Option Magnitude :=
  ofRatio? (x.ratio.1 * y.ratio.1) (x.ratio.2 * y.ratio.2)

/-- The rounded quotient by a magnitude other than zero; none when it is too large. -/
def Magnitude.div? (x y : Magnitude) : Option Magnitude :=
  ofRatio? (x.ratio.1 * y.ratio.2) (x.ratio.2 * y.ratio.1)

end DocStamp.Decimal
