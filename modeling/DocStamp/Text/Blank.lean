/-
Blank characters and trimming.

A blank is a character with the Unicode property White_Space.  Settings
files and version texts are trimmed of blanks on both sides, so the
property has to be the whole table and not its ASCII part.
-/

namespace DocStamp.Text

/-- The Unicode property White_Space. -/
def isBlank (c : Char) : Bool :=
  let n := c.toNat
  (9 ≤ n && n ≤ 13) || n == 0x20 || n == 0x85 || n == 0xA0 || n == 0x1680 ||
    (0x2000 ≤ n && n ≤ 0x200A) || n == 0x2028 || n == 0x2029 || n == 0x202F ||
    n == 0x205F || n == 0x3000

/-- Drops the blanks at both ends of a list of characters. -/
def trimBlanks (cs : List Char) : List Char :=
  ((cs.dropWhile isBlank).reverse.dropWhile isBlank).reverse

def trim (s : String) : String :=
  String.ofList (trimBlanks s.toList)

end DocStamp.Text
