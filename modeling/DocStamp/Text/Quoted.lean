/-
Texts and characters in quotes, as they stand in messages.

A quote and a backslash are escaped by a backslash, the common control
characters have letters, and any other hidden character is spelt by its
number in braces.  Of the two quotes only the one around the text is
escaped.
-/
import DocStamp.Text.Hidden

namespace DocStamp.Text

/-- The lower-case hexadecimal digits of a number, without leading zeros. -/
def hex (n : Nat) : List Char := Nat.toDigits 16 n

/-- A character by its number: `\u`, then the digits in braces. -/
def spellChar (c : Char) : List Char :=
  ['\\', 'u', '\x7b'] ++ hex c.toNat ++ ['\x7d']

/-- One character between quotes of a kind. -/
def quoteChar (quote : Char) (c : Char) : List Char :=
  if c = '\x00' then ['\\', '0']
  else if c = '\t' then ['\\', 't']
  else if c = '\r' then ['\\', 'r']
  else if c = '\n' then ['\\', 'n']
  else if c = '\\' || c = quote then ['\\', c]
  else if isHidden c then spellChar c
  else [c]

def quote (s : String) : String :=
  String.ofList ('"' :: s.toList.flatMap (quoteChar '"') ++ ['"'])

def quoteSingle (c : Char) : String :=
  String.ofList ('\x27' :: quoteChar '\x27' c ++ ['\x27'])

end DocStamp.Text
