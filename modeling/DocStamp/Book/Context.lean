/-
What comes with a book: where its root is and how it is configured.

Of the configuration nothing is kept; it only has to have the right
shape.
-/
import DocStamp.Json.Reader
import DocStamp.Path.Basic

namespace DocStamp.Book

open Json (Reader Record Variant)

/-- What comes with a book. -/
structure Context where
  /-- The directory that the book lies in. -/
  root : Path
  renderer : String
  /-- The version of the program that sends the book. -/
  version : String
deriving DecidableEq, Repr

/-! ## Parts of a configuration -/

def readText : Reader String := Json.string "a string"

def readPath : Reader Path := fun depth cs => do
  let (s, rest) ← Json.string "path string" depth cs
  return (⟨s⟩, rest)

/-- A field whose value is looked at and dropped. -/
def checked {α : Type} (name : String) (read : Reader α) : Json.Field Unit :=
  .of name false read fun _ _ => ()

/-- A record all of whose fields may be absent, and that has no others. -/
def options (expected : String) (fields : List (Json.Field Unit)) : Reader Unit :=
  Record.read ⟨expected, fields, true, true⟩ ()

/-- Refuses integers beyond 63 bits. -/
def checkNumber : Json.Number → Except Json.Error Unit
  | .integer n => if n < 0x8000000000000000 then .ok () else .error .hugeInteger
  | .float _ _ => .ok ()

/-! ## Values of any kind -/

/-- The key in front of a moment.  Where it comes first in an object, it stands alone. -/
def momentKey : String := "$__toml_private_datetime"

def readMoment : Reader Moment := fun depth cs => do
  let (s, rest) ← Json.string "string containing a datetime" depth cs
  match Moment.parse s with
  | .ok m => return (m, rest)
  | .error e => throw (.noMoment e)

/-- What stands behind the first key of an object, if that announces a moment. -/
def momentBehind? (cs : List Char) : Except Json.Error (Option (List Char)) := do
  let (another, cs) ← Json.nextKey true cs
  if !another then return none
  let (name, cs) ← Json.readString cs
  if name == momentKey then some <$> Json.colon cs else return none

/-- Reads any value but null.  In an object no key may come twice. -/
def readAny : Nat → Reader Unit
  | 0 => fun _ _ => .error .tooDeep
  | n + 1 => fun depth cs =>
      match Json.skipSpaces cs with
      | 'n' :: rest => do
          let _ ← Json.restOfNull rest
          throw (.wrongType .null "any valid TOML value")
      | 't' :: rest => ((), ·) <$> Json.restOfTrue rest
      | 'f' :: rest => ((), ·) <$> Json.restOfFalse rest
      | '"' :: rest => do return ((), (← Json.readString rest).2)
      | '-' :: rest => do
          let (x, rest) ← Json.readNumber true rest
          return (← checkNumber x, rest)
      | '[' :: rest => do
          let (_, rest) ← Json.list (readAny n) depth ('[' :: rest)
          return ((), rest)
      | '\x7b' :: rest => do
          let depth ← Json.descend depth
          let value := fun (seen : List String) name cs => do
            if seen.contains name then throw (.duplicateKey name)
            return (← readAny n depth (← Json.colon cs)).2
          match ← momentBehind? rest with
          | some cs => do return ((), ← Json.closeObject (← readMoment depth cs).2)
          | none => do
              let rest ← Json.entries value (rest.length + 1) true [] rest
              return ((), ← Json.closeObject rest)
      | [] => .error .endInValue
      | c :: rest => do
          if !c.isDigit then throw .noValue
          let (x, rest) ← Json.readNumber false (c :: rest)
          return (← checkNumber x, rest)

/-! ## The configuration of a book -/

/-- Reads one of several names. -/
def readWord (names : List String) : Reader Unit :=
  Variant.readOne (names.map fun name => .plain name ())

/-- Reads what is said about the book itself. -/
def readAbout : Reader Unit :=
  options "struct BookConfig" [
    checked "title" (Json.optional readText),
    checked "authors" (Json.list readText),
    checked "description" (Json.optional readText),
    checked "src" readPath,
    checked "language" (Json.optional readText),
    checked "text-direction" (Json.optional (readWord ["ltr", "rtl"]))]

/-- Reads how the book is built. -/
def readBuild : Reader Unit :=
  options "struct BuildConfig" [
    checked "build-dir" readPath,
    checked "create-missing" Json.bool,
    checked "use-default-preprocessors" Json.bool,
    checked "extra-watch-dirs" (Json.list readPath)]

/-- Reads which edition the code samples of the book have. -/
def readEdition : Reader Unit :=
  options "struct RustConfig" [
    checked "edition" (Json.optional (readWord ["2024", "2021", "2018", "2015"]))]

def readConfig : Reader Unit :=
  options "struct Config" [
    checked "book" readAbout,
    checked "build" readBuild,
    checked "rust" readEdition,
    checked "output" (readAny Json.levels),
    checked "preprocessor" (readAny Json.levels)]

namespace Context

/-! ## The context -/

def record : Record Context where
  expected := "struct PreprocessorContext"
  fields := [
    .of "root" true readPath fun c v => { c with root := v },
    .of "config" true readConfig fun c _ => c,
    .of "renderer" true readText fun c v => { c with renderer := v },
    .of "mdbook_version" true readText fun c v => { c with version := v }]
  closed := false
  short := false

def read : Reader Context := record.read ⟨⟨""⟩, "", ""⟩

end Context

end DocStamp.Book
