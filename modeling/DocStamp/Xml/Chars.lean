/-
The character classes of XML.

`isLegal` is what may stand in a document at all; `isNameStart` and
`isNameChar` are what a name begins with and goes on with.
-/

namespace DocStamp.Xml

/-- White space in markup. -/
def isSpace (c : Char) : Bool := c == ' ' || c == '\t' || c == '\n' || c == '\r'

/-- May the character stand in a document? -/
def isLegal (c : Char) : Bool :=
  if c.toNat < 0x20 then c == '\t' || c == '\n' || c == '\r'
  else c.toNat != 0xFFFE && c.toNat != 0xFFFF

/-- May a name begin with the character? -/
def isNameStart (c : Char) : Bool :=
  let n := c.toNat
  let within (lo hi : Nat) : Bool := lo ≤ n && n ≤ hi
  if n < 0x80 then c.isAlpha || c == ':' || c == '_'
  else
    within 0xC0 0xD6 || within 0xD8 0xF6 || within 0xF8 0x2FF || within 0x370 0x37D ||
      within 0x37F 0x1FFF || within 0x200C 0x200D || within 0x2070 0x218F ||
      within 0x2C00 0x2FEF || within 0x3001 0xD7FF || within 0xF900 0xFDCF ||
      within 0xFDF0 0xFFFD || within 0x10000 0xEFFFF

/-- May a name go on with the character? -/
def isNameChar (c : Char) : Bool :=
  let n := c.toNat
  let within (lo hi : Nat) : Bool := lo ≤ n && n ≤ hi
  isNameStart c || c.isDigit || c == '-' || c == '.' || n == 0xB7 ||
    within 0x300 0x36F || within 0x203F 0x2040

/-- The first byte of a character in UTF-8, shown as a character of its own.
Messages name the byte and not the character that was found. -/
def firstByte (c : Char) : Char :=
  let n := c.toNat
  if n < 0x80 then c
  else if n < 0x800 then Char.ofNat (0xC0 + n / 0x40)
  else if n < 0x10000 then Char.ofNat (0xE0 + n / 0x1000)
  else Char.ofNat (0xF0 + n / 0x40000)

end DocStamp.Xml
