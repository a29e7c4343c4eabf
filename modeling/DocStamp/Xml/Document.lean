/-
Reading a whole XML document.

A document is an optional declaration, comments and instructions, one
element, and again comments and instructions.  A document type is
refused.  The first error in document order is the one that is reported.
-/
import DocStamp.Text.Replace
import DocStamp.Xml.Tag

namespace DocStamp.Xml

namespace Cursor

/-! ## Comments and instructions -/

def skipComment (k : Cursor) : Except Error Cursor := do
  let inside := k.advance 4
  let (text, k') ← readUntil (fun cs => "-->".toList.isPrefixOf cs) inside.rest inside.position
  let k' ← k'.expectString "-->"
  if Text.occursIn ['-', '-'] text || text.getLast? == some '-' then throw (.comment k.position)
  return k'

def skipInstruction (k : Cursor) : Except Error Cursor := do
  if k.startsWith "<?xml " then throw (.declaration k.position)
  let (_, k) ← (k.advance 2).readName
  let k := k.skipSpaces
  let (_, k) ← readUntil (fun cs => "?>".toList.isPrefixOf cs) k.rest k.position
  k.expectString "?>"

/-! ## The declaration -/

/-- White space between the parts of a declaration, which its end makes optional. -/
def declarationSpaces (k : Cursor) : Except Error Cursor :=
  match k.rest with
  | [] => .ok k
  | c :: _ =>
      if isSpace c then .ok k.skipSpaces
      else if k.startsWith "?>" then .ok k
      else .error (.blank (firstByte c) k.position)

def skipAttribute (k : Cursor) : Except Error Cursor := do
  return (← k.readAttribute).2

def skipDeclaration (k : Cursor) : Except Error Cursor := do
  let k ← (k.advance 5).declarationSpaces
  if !k.startsWith "version" then throw (.string "version" k.position)
  let k ← (← k.skipAttribute).declarationSpaces
  let k ← if k.startsWith "encoding" then do (← k.skipAttribute).declarationSpaces else pure k
  let k ← if k.startsWith "standalone" then k.skipAttribute else pure k
  k.skipSpaces.expectString "?>"

/-- Passes over at most `n` comments and instructions, and the white space between them. -/
def skipMisc : Nat → Cursor → Except Error Cursor
  | 0, k => .ok k
  | n + 1, k =>
      let k := k.skipSpaces
      if k.startsWith "<!--" then do skipMisc n (← k.skipComment)
      else if k.startsWith "<?" then do skipMisc n (← k.skipInstruction)
      else .ok k

/-! ## Content -/

/-- Reads character data up to the next markup. -/
def readText (k : Cursor) : Except Error (String × Cursor) := do
  let (text, k') ← readUntil (fun cs => cs.head? == some '<') k.rest k.position
  if Text.occursIn "]]>".toList text then throw (.sectionEnd k'.position)
  return (String.ofList (dataChars (← resolve text k.position)), k')

/-- Reads a section of character data in which no markup counts. -/
def readSection (k : Cursor) : Except Error (String × Cursor) := do
  let k := k.advance 9
  let (text, k) ← readUntil (fun cs => "]]>".toList.isPrefixOf cs) k.rest k.position
  let k ← k.expectString "]]>"
  return (String.ofList (dataChars (text.map .plain)), k)

/-- Reads an end tag, which has to name the element that is open. -/
def readEndTag (opened : TagName) (k : Cursor) : Except Error Cursor := do
  let (name, k') ← (k.advance 2).readTagName
  let k' ← k'.skipSpaces.expectChar '>'
  if name != opened then throw (.closeTag opened.text name.text k.position)
  return k'

mutual

/-- Reads an element.  There is none when the document ends inside its start tag.
The number bounds the nesting of the recursion. -/
def readElement : Nat → Scope → Cursor → Except Error (Option Node × Cursor)
  | 0, _, _ => .error .endOfStream
  | n + 1, around, k => do
      let k := k.advance 1
      let (name, k') ← k.readTagName
      if name.space == "xmlns" then throw (.elementXmlns k.position)
      let (body, ending, k') ← readTagBody (k'.rest.length + 1) .empty k'
      match ending with
      | .cut => return (none, k')
      | .closed =>
          let (full, _) ← body.close around name k.position
          return (some (.element full []), k')
      | .opened =>
          let (full, scope) ← body.close around name k.position
          let (children, k') ← readContent n scope name k'
          return (some (.element full children), k')

/-- Reads the content of an element and its end tag. -/
def readContent : Nat → Scope → TagName → Cursor → Except Error (List Node × Cursor)
  | 0, _, _, _ => .error .endOfStream
  | n + 1, scope, opened, k =>
      match k.rest with
      | [] => .error .unclosedRoot
      | ['<'] => .error (.unknownToken k.position)
      | '<' :: '/' :: _ => do return ([], ← k.readEndTag opened)
      | '<' :: '?' :: _ => do
          let (nodes, k) ← readContent n scope opened (← k.skipInstruction)
          return (.instruction :: nodes, k)
      | '<' :: '!' :: _ =>
          if k.startsWith "<!--" then do
            let (nodes, k) ← readContent n scope opened (← k.skipComment)
            return (.comment :: nodes, k)
          else if k.startsWith "<![CDATA[" then do
            let (s, k) ← k.readSection
            let (nodes, k) ← readContent n scope opened k
            return (Node.consText s nodes, k)
          else .error (.unknownToken k.position)
      | '<' :: _ => do
          let (node?, k) ← readElement n scope k
          let (nodes, k) ← readContent n scope opened k
          return (node?.toList ++ nodes, k)
      | _ => do
          let (s, k) ← k.readText
          let (nodes, k) ← readContent n scope opened k
          return (Node.consText s nodes, k)

end

/-! ## Documents -/

def skipByteOrderMark (k : Cursor) : Cursor :=
  match k.rest with
  | c :: _ => if c.toNat = 0xFEFF then k.advance 1 else k
  | [] => k

end Cursor

def parse (text : String) : Except Error Node := do
  let size := text.length
  let k := (Cursor.start text.toList).skipByteOrderMark
  let k ← if k.startsWith "<?xml " then k.skipDeclaration else pure k
  let k := (← k.skipMisc (size + 1)).skipSpaces
  if k.startsWith "<!DOCTYPE" then throw .documentType
  let (root?, k) ← if k.startsWith "<" then k.readElement (2 * size + 2) [] else pure (none, k)
  let k ← k.skipMisc (size + 1)
  if !k.rest.isEmpty then throw (.unknownToken k.position)
  match root? with
  | some root => return root
  | none => throw .noRoot

end DocStamp.Xml
