/-
The shortest decimal that reads back as a given magnitude.

The reals that round to a magnitude form an interval around it, with
its ends when the significand is even.  Of all decimals in the interval
those with the fewest digits are taken, and of these the one nearest to
the magnitude; where two are equally near, the caller says which.  Two
layouts write the digits down.
-/
import DocStamp.Decimal.Binary

namespace DocStamp.Decimal

/-- The decimal `digits * 10 ^ exponent`. -/
structure Digits where
  digits : Nat
  exponent : Int
deriving DecidableEq, Repr

/-- Which of two equally near decimals is taken. -/
inductive Tie where
  | up
  /-- The one whose last digit is even. -/
  | even
deriving DecidableEq, Repr

/-- The choice between `c` and `c + 1`. -/
def Tie.choose (tie : Tie) (c : Nat) : Nat :=
  match tie with
  | .up => c + 1
  | .even => if c % 2 = 0 then c else c + 1

/-! ## Intervals -/

/-- A magnitude and the interval that rounds to it, over one denominator. -/
structure Interval where
  low : Nat
  value : Nat
  high : Nat
  den : Nat
  closed : Bool
deriving DecidableEq, Repr

/-- The interval of a magnitude, counted in quarters of its last place. -/
def Magnitude.interval (x : Magnitude) : Interval :=
  let m := x.significand
  -- Below a power of two the numbers lie closer together.
  let below := if m = 0x10000000000000 ∧ leastExponent < x.exponent then 1 else 2
  let e := x.exponent - 2
  let (up, den) := if 0 ≤ e then (Nat.pow 2 e.toNat, 1) else (1, Nat.pow 2 (-e).toNat)
  ⟨(4 * m - below) * up, 4 * m * up, (4 * m + 2) * up, den, m % 2 == 0⟩

/-- The interval times a power of ten. -/
def Interval.scale (i : Interval) (k : Int) : Interval :=
  if 0 ≤ k then
    let t := Nat.pow 10 k.toNat
    { i with low := i.low * t, value := i.value * t, high := i.high * t }
  else { i with den := i.den * Nat.pow 10 (-k).toNat }

def Interval.holds (i : Interval) (c : Nat) : Bool :=
  if i.closed then i.low ≤ c * i.den && c * i.den ≤ i.high
  else i.low < c * i.den && c * i.den < i.high

/-- The integer of the interval nearest to its value, of the two around the value. -/
def Interval.nearest? (i : Interval) (tie : Tie) : Option Nat :=
  let c := i.value / i.den
  let rest := i.value % i.den
  if i.holds c && i.holds (c + 1) then
    some (if 2 * rest < i.den then c else if i.den < 2 * rest then c + 1 else tie.choose c)
  else if i.holds c then some c
  else if i.holds (c + 1) then some (c + 1)
  else none

/-! ## The shortest decimal -/

/-- The least `k` from `k` on with `1 ≤ value * 10 ^ k`, within `n` steps. -/
def liftAbove : Nat → Nat → Nat → Nat → Nat
  | 0, k, _, _ => k
  | n + 1, k, num, den => if den ≤ num then k else liftAbove n (k + 1) (10 * num) den

/-- The power of ten of the first digit of a value above zero. -/
def leadingPower (num den : Nat) : Int :=
  if den ≤ num then ((Nat.toDigits 10 (num / den)).length : Int) - 1
  else -(liftAbove 400 0 num den : Int)

/-- Drops zeros at the end of the digits, at most `n` of them. -/
def dropZeros : Nat → Digits → Digits
  | 0, d => d
  | n + 1, d =>
      if d.digits ≠ 0 ∧ d.digits % 10 = 0 then dropZeros n ⟨d.digits / 10, d.exponent + 1⟩ else d

/-- The shortest decimal of a magnitude. -/
def Magnitude.shortest (tie : Tie) (x : Magnitude) : Digits :=
  if x.significand = 0 then ⟨0, 0⟩
  else
    let i := x.interval
    let lead := leadingPower i.value i.den
    let attempt := fun (n : Nat) => ((i.scale (n - lead)).nearest? tie).map fun c => Digits.mk c (lead - n)
    match (List.range 18).findSome? attempt with
    | some d => dropZeros 20 d
    | none => ⟨0, 0⟩

/-! ## Layouts -/

def Digits.text (d : Digits) : List Char := Nat.toDigits 10 d.digits

/-- The positional layout, with at least one digit on both sides of the point. -/
def Digits.positional (d : Digits) : List Char :=
  let ds := d.text
  let point : Int := ds.length + d.exponent
  if 0 ≤ d.exponent then ds ++ List.replicate d.exponent.toNat '0' ++ ['.', '0']
  else if 0 < point then ds.take point.toNat ++ ['.'] ++ ds.drop point.toNat
  else ['0', '.'] ++ List.replicate (-point).toNat '0' ++ ds

/-- An integer as text, always with its sign. -/
def signedText (n : Int) : List Char :=
  if 0 ≤ n then '+' :: Nat.toDigits 10 n.toNat else '-' :: Nat.toDigits 10 (-n).toNat

/-- The layout with an exponent where the positional one would grow long: the
point stands at most 5 places before the digits or 16 places into them. -/
def Digits.scientific (d : Digits) : List Char :=
  let ds := d.text
  let point : Int := ds.length + d.exponent
  if -5 < point ∧ point ≤ 16 then d.positional
  else
    match ds with
    | [c] => [c, 'e'] ++ signedText (point - 1)
    | c :: cs => [c, '.'] ++ cs ++ ['e'] ++ signedText (point - 1)
    | [] => []

end DocStamp.Decimal
