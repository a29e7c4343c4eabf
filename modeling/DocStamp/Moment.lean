/-
Dates and times of day, and reading them.

A moment is a date, a time of day, or both; with both, an offset from
universal time may follow.  Whether all parts are there is checked
before how long they are, and that before how large they are.
-/

namespace DocStamp

structure Date where
  year : Nat
  month : Nat
  day : Nat
deriving DecidableEq, Repr

structure Clock where
  hour : Nat
  minute : Nat
  second : Option Nat
  nanosecond : Option Nat
deriving DecidableEq, Repr

/-- The distance from universal time. -/
inductive Offset where
  | none
  /-- Universal time itself. -/
  | zero
  | minutes (n : Int)
deriving DecidableEq, Repr

/-- A date, a time of day, or both. -/
inductive Moment where
  | date (d : Date)
  | clock (c : Clock)
  | both (d : Date) (c : Clock) (offset : Offset)
deriving DecidableEq, Repr

namespace Moment

/-! ## Faults -/

/-- The part of a moment in which a fault lies. -/
inductive Part where
  | whole
  | date
  /-- Between date and time. -/
  | divider
  | time
  | offset
deriving DecidableEq, Repr

def Part.text : Part → String
  | .whole => "datetime"
  | .date => "date"
  | .divider => "date-time"
  | .time => "time"
  | .offset => "offset"

/-- What should have been there. -/
inductive Need where
  | yearOrHour
  | dashOrColon
  | month
  | dash
  | day
  | hour
  | colon
  | minute
  | second
  | nanosecond
  | divider
  | zone
  | fourDigitYear
  | twoDigitMonth
  | twoDigitDay
  | twoDigitHour
  | twoDigitMinute
  | twoDigitSecond
  | monthInYear
  /-- A day of a month that has this many. -/
  | dayUpTo (last : Nat)
  | hourInDay
  | minuteInHour
  /-- A second of a minute, which may have a leap second. -/
  | secondInMinute
  | offsetHours
  | offsetMinutes
deriving DecidableEq, Repr

def Need.text : Need → String
  | .yearOrHour => "year or hour"
  | .dashOrColon => "`-` (YYYY-MM) or `:` (HH:MM)"
  | .month => "month"
  | .dash => "`-` (MM-DD)"
  | .day => "day"
  | .hour => "hour"
  | .colon => "`:` (HH:MM)"
  | .minute => "minute"
  | .second => "second"
  | .nanosecond => "nanosecond"
  | .divider => "`T` between date and time"
  | .zone => "`Z`, +OFFSET, -OFFSET"
  | .fourDigitYear => "a four-digit year (YYYY)"
  | .twoDigitMonth => "a two-digit month (MM)"
  | .twoDigitDay => "a two-digit day (DD)"
  | .twoDigitHour => "a two-digit hour (HH)"
  | .twoDigitMinute => "a two-digit minute (MM)"
  | .twoDigitSecond => "a two-digit second (SS)"
  | .monthInYear => "month between 01 and 12"
  | .dayUpTo last => s!"day between 01 and {last}"
  | .hourInDay => "hour between 00 and 23"
  | .minuteInHour => "minute between 00 and 59"
  | .secondInMinute => "second between 00 and 60"
  | .offsetHours => "hours between 00 and 23"
  | .offsetMinutes => "minutes between 00 and 59"

structure Error where
  part : Part
  /-- Nothing if the text goes on behind the moment. -/
  need : Option Need
deriving DecidableEq, Repr

def Error.message (e : Error) : String :=
  s!"invalid {e.part.text}" ++ e.need.elim "" fun need => s!", expected {need.text}"

def fail {α : Type} (part : Part) (need : Need) : Except Error α := .error ⟨part, some need⟩

/-! ## Digits -/

def readDigits (part : Part) (need : Need) (cs : List Char) :
    Except Error (List Char × List Char) :=
  match cs.takeWhile Char.isDigit with
  | [] => fail part need
  | digits => .ok (digits, cs.dropWhile Char.isDigit)

def readSign (sign : Char) (part : Part) (need : Need) : List Char → Except Error (List Char)
  | c :: cs => if c = sign then .ok cs else fail part need
  | [] => fail part need

def value (digits : List Char) : Nat :=
  digits.foldl (fun n c => 10 * n + (c.toNat - '0'.toNat)) 0

/-- Demands a number of digits. -/
def checkLength (part : Part) (need : Need) (length : Nat) (digits : List Char) :
    Except Error Unit :=
  if digits.length = length then .ok () else fail part need

/-- Demands that a number lies between two others. -/
def checkRange (part : Part) (need : Need) (least greatest n : Nat) : Except Error Unit :=
  if least ≤ n ∧ n ≤ greatest then .ok () else fail part need

/-! ## Dates -/

def isLeapYear (year : Nat) : Bool := year % 4 = 0 && (year % 100 ≠ 0 || year % 400 = 0)

def daysIn (year month : Nat) : Nat :=
  if month = 2 then if isLeapYear year then 29 else 28
  else if [4, 6, 9, 11].contains month then 30
  else 31

/-- Reads a date behind the dash that follows its year. -/
def readDate (year : List Char) (cs : List Char) : Except Error (Date × List Char) := do
  let (month, cs) ← readDigits .date .month cs
  let (day, cs) ← readDigits .date .day (← readSign '-' .date .dash cs)
  checkLength .date .fourDigitYear 4 year
  checkLength .date .twoDigitMonth 2 month
  checkLength .date .twoDigitDay 2 day
  let d : Date := ⟨value year, value month, value day⟩
  checkRange .date .monthInYear 1 12 d.month
  let last := daysIn d.year d.month
  checkRange .date (.dayUpTo last) 1 last d.day
  return (d, cs)

/-! ## Times of day -/

/-- Reads digits behind a sign, if the sign is there. -/
def readOptional (sign : Char) (part : Part) (need : Need) (cs : List Char) :
    Except Error (Option (List Char) × List Char) :=
  match cs with
  | c :: rest =>
      if c = sign then do
        let (digits, rest) ← readDigits part need rest
        return (some digits, rest)
      else .ok (none, c :: rest)
  | [] => .ok (none, [])

/-- The nanoseconds that the digits behind a point stand for; what is finer is dropped. -/
def nanoseconds (digits : List Char) : Nat :=
  value ((digits ++ List.replicate 9 '0').take 9)

def readClock (cs : List Char) : Except Error (Clock × List Char) := do
  let (hour, cs) ← readDigits .time .hour cs
  let (minute, cs) ← readDigits .time .minute (← readSign ':' .time .colon cs)
  let (second, cs) ← readOptional ':' .time .second cs
  let (fraction, cs) ← if second.isSome then readOptional '.' .time .nanosecond cs
    else pure (none, cs)
  checkLength .time .twoDigitHour 2 hour
  checkLength .time .twoDigitMinute 2 minute
  if let some digits := second then checkLength .time .twoDigitSecond 2 digits
  let c : Clock := ⟨value hour, value minute, second.map value, fraction.map nanoseconds⟩
  checkRange .time .hourInDay 0 23 c.hour
  checkRange .time .minuteInHour 0 59 c.minute
  checkRange .time .secondInMinute 0 60 (c.second.getD 0)
  return (c, cs)

/-! ## Offsets -/

def readShift (cs : List Char) : Except Error (Nat × List Char) := do
  let (hours, cs) ← readDigits .offset .hour cs
  let (minutes, cs) ← readDigits .offset .minute (← readSign ':' .offset .colon cs)
  checkLength .offset .twoDigitHour 2 hours
  checkLength .offset .twoDigitMinute 2 minutes
  checkRange .offset .offsetHours 0 23 (value hours)
  checkRange .offset .offsetMinutes 0 59 (value minutes)
  return (60 * value hours + value minutes, cs)

def readOffset : List Char → Except Error (Offset × List Char)
  | [] => .ok (.none, [])
  | '+' :: cs => do
      let (n, cs) ← readShift cs
      return (.minutes n, cs)
  | '-' :: cs => do
      let (n, cs) ← readShift cs
      return (.minutes (-n), cs)
  | c :: cs => if c = 'Z' || c = 'z' then .ok (.zero, cs) else fail .offset .zone

/-! ## Whole texts -/

/-- Demands that nothing follows. -/
def checkEnd (cs : List Char) : Except Error Unit :=
  if cs.isEmpty then .ok () else .error ⟨.whole, none⟩

/-- Reads what may follow a date: a time of day, behind a letter or a space. -/
def readRest (d : Date) : List Char → Except Error Moment
  | [] => .ok (.date d)
  | c :: cs => do
      if c ≠ 'T' && c ≠ 't' && c ≠ ' ' then fail .divider .divider
      let (time, cs) ← readClock cs
      let (offset, cs) ← readOffset cs
      checkEnd cs
      return .both d time offset

def parse (text : String) : Except Error Moment := do
  let cs := text.toList
  let (first, rest) ← readDigits .whole .yearOrHour cs
  match rest with
  | '-' :: rest => do
      let (d, rest) ← readDate first rest
      readRest d rest
  | ':' :: _ => do
      let (time, rest) ← readClock cs
      checkEnd rest
      return .clock time
  | _ => fail .whole .dashOrColon

end Moment

end DocStamp
