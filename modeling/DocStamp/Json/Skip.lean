/-
Passing over a value of any shape.

Lists and objects that are open are kept on a stack, so there is no
limit to how deep they may lie inside each other.
-/
import DocStamp.Json.Number
import DocStamp.Json.Text

namespace DocStamp.Json

/-- The characters that may stand between the parts of a text. -/
def isSpace (c : Char) : Bool := c = ' ' || c = '\n' || c = '\t' || c = '\r'

def skipSpaces (cs : List Char) : List Char := cs.dropWhile isSpace

/-- Passes over the letters of a word. -/
def word : List Char → List Char → Except Error (List Char)
  | [], cs => .ok cs
  | _ :: _, [] => .error .endInValue
  | e :: es, c :: cs => if c = e then word es cs else .error .noIdent

def restOfNull : List Char → Except Error (List Char) := word ['u', 'l', 'l']

def restOfTrue : List Char → Except Error (List Char) := word ['r', 'u', 'e']

def restOfFalse : List Char → Except Error (List Char) := word ['a', 'l', 's', 'e']

def colon (cs : List Char) : Except Error (List Char) :=
  match skipSpaces cs with
  | ':' :: rest => .ok rest
  | [] => .error .endInObject
  | _ => .error .noColon

/-! ## Lists and objects -/

/-- A list or an object that is open. -/
inductive Frame where
  | list
  | object
deriving DecidableEq, Repr

namespace Frame

/-- The character that closes it. -/
def close : Frame → Char
  | .list => ']'
  | .object => '\x7d'

/-- The error when the text ends in it. -/
def ended : Frame → Error
  | .list => .endInList
  | .object => .endInObject

/-- The error when it goes on without a comma. -/
def unclosed : Frame → Error
  | .list => .noListEnd
  | .object => .noObjectEnd

/-- Passes over what stands before a value in it: nothing, or a key. -/
def lead (f : Frame) (cs : List Char) : Except Error (List Char) :=
  match f with
  | .list => .ok cs
  | .object =>
      match skipSpaces cs with
      | '"' :: rest => do colon (← skipString rest)
      | [] => .error .endInObject
      | _ => .error .keyNoString

end Frame

/-- Passes over a value that is no list and no object. -/
def skipScalar : List Char → Except Error (List Char)
  | 'n' :: cs => restOfNull cs
  | 't' :: cs => restOfTrue cs
  | 'f' :: cs => restOfFalse cs
  | '-' :: cs => skipNumber cs
  | '"' :: cs => skipString cs
  | c :: cs => if c.isDigit then skipNumber (c :: cs) else .error .noValue
  | [] => .error .endInValue

/-- What is to be passed over next. -/
inductive Stage where
  | value
  /-- What follows a value; at the start of a list or object no comma may follow. -/
  | rest (comma : Bool)
deriving DecidableEq, Repr

/-- Passes over a value inside open lists and objects, in at most `n` steps. -/
def skipSteps : Nat → Stage → List Frame → List Char → Except Error (List Char)
  | 0, _, _, _ => .error .endInValue
  | n + 1, .value, stack, cs =>
      match skipSpaces cs with
      | '[' :: rest => skipSteps n (.rest false) (.list :: stack) rest
      | '\x7b' :: rest => skipSteps n (.rest false) (.object :: stack) rest
      | cs => do skipSteps n (.rest true) stack (← skipScalar cs)
  | _, .rest _, [], cs => .ok cs
  | n + 1, .rest comma, frame :: stack, cs =>
      match skipSpaces cs with
      | [] => .error frame.ended
      | c :: rest =>
          if c = ',' ∧ comma then do skipSteps n .value (frame :: stack) (← frame.lead rest)
          else if c = frame.close then skipSteps n (.rest true) stack rest
          else if comma then .error frame.unclosed
          else do skipSteps n .value (frame :: stack) (← frame.lead (c :: rest))

def skipValue (cs : List Char) : Except Error (List Char) :=
  -- Of two steps one takes a character.
  skipSteps (2 * cs.length + 3) .value [] cs

end DocStamp.Json
