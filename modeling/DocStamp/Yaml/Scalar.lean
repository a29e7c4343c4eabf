/-
What a plain scalar stands for: nothing, a truth value, a number or text.
-/
import DocStamp.Decimal.Shortest
import DocStamp.Yaml.Error

namespace DocStamp.Yaml

def isNull (s : String) : Bool := s == "null" || s == "Null" || s == "NULL" || s == "~"

def bool? (s : String) : Option Bool :=
  if s == "true" || s == "True" || s == "TRUE" then some true
  else if s == "false" || s == "False" || s == "FALSE" then some false
  else none

/-! ## Integers -/

def digit? (base : Nat) (c : Char) : Option Nat :=
  let value? : Option Nat :=
    if c.isDigit then some (c.toNat - '0'.toNat)
    else if 'a' ≤ c && c ≤ 'f' then some (c.toNat - 'a'.toNat + 10)
    else if 'A' ≤ c && c ≤ 'F' then some (c.toNat - 'A'.toNat + 10)
    else none
  value?.filter (· < base)

/-- The number that digits spell; there has to be one at least. -/
def digits? (base : Nat) (cs : List Char) : Option Nat :=
  if cs.isEmpty then none
  else (cs.mapM (digit? base)).map fun ds => ds.foldl (fun n d => base * n + d) 0

/-- Digits behind a needless zero: such a text is no number. -/
def hasLeadingZero (cs : List Char) : Bool :=
  let cs := match cs with
    | '-' :: cs => cs
    | '+' :: cs => cs
    | cs => cs
  match cs with
  | '0' :: c :: rest => (c :: rest).all Char.isDigit
  | _ => false

/-- The number that follows a sign: decimal, or behind a mark in another base. -/
def magnitude? (whole : List Char) (cs : List Char) : Option Nat :=
  let based := match cs with
    | '0' :: 'x' :: ds => digits? 16 ds
    | '0' :: 'o' :: ds => digits? 8 ds
    | '0' :: 'b' :: ds => digits? 2 ds
    | _ => none
  match based with
  | some n => some n
  | none => if hasLeadingZero whole then none else digits? 10 cs

def int? (s : String) : Option Int :=
  match s.toList with
  | '-' :: cs => (magnitude? s.toList cs).map fun n => -(n : Int)
  | '+' :: cs => (magnitude? s.toList cs).map fun n => (n : Int)
  | cs => (magnitude? s.toList cs).map fun n => (n : Int)

/-- What an integer is taken for; beyond 128 bits it is no number. -/
def foundInt? (n : Int) : Option Found :=
  if -0x8000000000000000 ≤ n ∧ n < 0x10000000000000000 then some (.integer n)
  else if -0x80000000000000000000000000000000 ≤ n ∧ n < 0x100000000000000000000000000000000 then
    some (.wide n)
  else none

/-! ## Floating-point numbers -/

/-- The exponent part of a number, which may be missing. -/
def exponent? : List Char → Option Int
  | [] => some 0
  | c :: cs =>
      if c = 'e' || c = 'E' then
        match cs with
        | '-' :: ds => (digits? 10 ds).map fun n => -(n : Int)
        | '+' :: ds => (digits? 10 ds).map fun n => (n : Int)
        | ds => (digits? 10 ds).map fun n => (n : Int)
      else none

/-- The decimal that digits, an optional point and an optional exponent spell, as an
integer and a power of ten. -/
def decimal? (cs : List Char) : Option (Nat × Int) :=
  let whole := cs.takeWhile Char.isDigit
  let rest := cs.drop whole.length
  let (part, rest) := match rest with
    | '.' :: r => (r.takeWhile Char.isDigit, r.dropWhile Char.isDigit)
    | r => ([], r)
  if whole.isEmpty && part.isEmpty then none
  else do
    let n ← digits? 10 (whole ++ part)
    let e ← exponent? rest
    return (n, e - part.length)

/-- The text of a floating-point number that a text stands for, when it is finite. -/
def finite? (negative : Bool) (cs : List Char) : Option String := do
  let (n, k) ← decimal? cs
  let x ← Decimal.Magnitude.ofDecimal? n k
  return (if negative then "-" else "") ++ String.ofList (x.shortest .up).positional

/-- The text of the floating-point number that a text stands for. -/
def float? (s : String) : Option String :=
  let infinite := [".inf", ".Inf", ".INF"]
  match s.toList with
  | '+' :: cs => if infinite.contains (String.ofList cs) then some "inf" else finite? false cs
  | '-' :: cs => if infinite.contains (String.ofList cs) then some "-inf" else finite? true cs
  | cs =>
      if infinite.contains s then some "inf"
      else if [".nan", ".NaN", ".NAN"].contains s then some "NaN"
      else finite? false cs

/-! ## Plain scalars -/

/-- What a plain scalar without a tag stands for. -/
def resolvePlain (s : String) : Found :=
  if s == "" || isNull s then .unit
  else
    match bool? s with
    | some b => .bool b
    | none =>
        match (int? s).bind foundInt? with
        | some found => found
        | none =>
            match (if hasLeadingZero s.toList then none else float? s) with
            | some text => .float text
            | none => .string s

end DocStamp.Yaml
