/-
Writing JSON without any spaces.
-/
import DocStamp.Json.Text

namespace DocStamp.Json

/-- Written values with commas between them. -/
def commas : List (List Char) → List Char
  | [] => []
  | [v] => v
  | v :: w :: vs => v ++ ',' :: commas (w :: vs)

def writeList (values : List (List Char)) : List Char := '[' :: commas values ++ [']']

def writeEntry (e : String × List Char) : List Char := writeString e.1 ++ ':' :: e.2

def writeObject (entries : List (String × List Char)) : List Char :=
  '\x7b' :: commas (entries.map writeEntry) ++ ['\x7d']

def writeOption {α : Type} (write : α → List Char) : Option α → List Char
  | none => ['n', 'u', 'l', 'l']
  | some a => write a

def writeNat (n : Nat) : List Char := Nat.toDigits 10 n

end DocStamp.Json
