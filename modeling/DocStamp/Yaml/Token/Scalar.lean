/-
Scalars: in blocks, in quotes, and plain.

A gap in a quoted or plain scalar is a run of spaces, or of spaces and
line breaks.  A gap with one line break is folded into a space, one with
more keeps all breaks but the first.
-/
import DocStamp.Yaml.Token.Property

namespace DocStamp.Yaml

/-! ## Gaps -/

/-- A run of spaces and line breaks inside a scalar. -/
structure Gap where
  /-- The spaces before any line break. -/
  spaces : List Char
  /-- Has there been a line break? -/
  broken : Bool
  /-- The first line break, as the characters it stands for. -/
  first : List Char
  /-- The line breaks after the first. -/
  more : List Char
deriving Repr

namespace Gap

/-- A gap before anything of it is read; after an escaped line break it counts as broken. -/
def empty (broken : Bool) : Gap := ⟨[], broken, [], []⟩

/-- What a gap leaves of itself in the scalar. -/
def text (g : Gap) : List Char :=
  if g.broken then
    if charNext '\n' g.first then (if g.more.isEmpty then [' '] else g.more)
    else g.first ++ g.more
  else g.spaces

end Gap

namespace Cursor

/-- Reads a gap, at most `n` characters of it.  A tab left of the column `least`
on a line of its own is refused. -/
def readGap (context : Context) (from_ : Mark) (least : Nat) :
    Nat → Gap → Cursor → Except Error (Gap × Cursor)
  | 0, g, k => .ok (g, k)
  | n + 1, g, k =>
      match k.rest with
      | [] => .ok (g, k)
      | c :: _ =>
          if isGap c then
            if g.broken && k.mark.column < least && c = '\t' then k.fail .tabIndent context from_
            else
              let g := if g.broken then g else { g with spaces := g.spaces ++ [c] }
              readGap context from_ least n g k.skip
          else if isBreak c then
            let (br, k) := k.readBreak
            let g := if g.broken then { g with more := g.more ++ br }
              else { g with spaces := [], broken := true, first := br }
            readGap context from_ least n g k
          else .ok (g, k)

/-! ## Quoted scalars -/

/-- The character that an escape of one letter stands for. -/
def escapedChar? : Char → Option Char
  | '0' => some '\x00'
  | 'a' => some '\x07'
  | 'b' => some '\x08'
  | 't' => some '\t'
  | '\t' => some '\t'
  | 'n' => some '\n'
  | 'v' => some '\x0b'
  | 'f' => some '\x0c'
  | 'r' => some '\r'
  | 'e' => some '\x1b'
  | ' ' => some ' '
  | '"' => some '"'
  | '/' => some '/'
  | '\\' => some '\\'
  | 'N' => some (Char.ofNat 0x85)
  | '_' => some (Char.ofNat 0xA0)
  | 'L' => some (Char.ofNat 0x2028)
  | 'P' => some (Char.ofNat 0x2029)
  | _ => none

/-- The number of hexadecimal digits that an escape by number has. -/
def escapeWidth? : Char → Option Nat
  | 'x' => some 2
  | 'u' => some 4
  | 'U' => some 8
  | _ => none

/-- The number that `n` hexadecimal digits spell. -/
def hexNumber? (n : Nat) (cs : List Char) : Option Nat :=
  if cs.length < n then none
  else ((cs.take n).mapM hexValue?).map fun ds => ds.foldl (fun v d => 16 * v + d) 0

def readEscape (from_ : Mark) (k : Cursor) : Except Error (Char × Cursor) :=
  match k.rest with
  | _ :: c :: cs =>
      match escapedChar? c, escapeWidth? c with
      | some d, _ => .ok (d, k.skipN 2)
      | none, some width =>
          match hexNumber? width cs with
          | none => (k.skipN 2).fail .noHexDigit .quotedEscape from_
          | some n =>
              if n.isValidChar then .ok (Char.ofNat n, k.skipN (2 + width))
              else (k.skipN 2).fail .badCodePoint .quotedEscape from_
      | none, none => k.fail .unknownEscape .quotedEscape from_
  | _ => k.fail .unknownEscape .quotedEscape from_

/-- Reads characters of a quoted scalar up to a gap or the closing quote, at most
`n` of them.  The flag tells that an escaped line break came last. -/
def readQuotedRun (double : Bool) (from_ : Mark) :
    Nat → Cursor → Except Error (List Char × Bool × Cursor)
  | 0, k => .ok ([], false, k)
  | n + 1, k =>
      match k.rest with
      | [] => .ok ([], false, k)
      | c :: cs =>
          if isGap c || isBreak c then .ok ([], false, k)
          else if !double && c = '\x27' && charNext '\x27' cs then do
            let (more, broken, k) ← readQuotedRun double from_ n (k.skipN 2)
            return ('\x27' :: more, broken, k)
          else if c = (if double then '"' else '\x27') then .ok ([], false, k)
          else if double && c = '\\' && !cs.isEmpty && breakNext cs then
            .ok ([], true, k.skip.skipBreak)
          else do
            let (d, k) ← if double && c = '\\' then k.readEscape from_ else pure (c, k.skip)
            let (more, broken, k) ← readQuotedRun double from_ n k
            return (d :: more, broken, k)

/-- Reads a quoted scalar behind its opening quote, at most `n` runs of it. -/
def readQuotedRest (double : Bool) (from_ : Mark) :
    Nat → Cursor → Except Error (List Char × Cursor)
  | 0, k => k.fail .endOfStream .quotedScalar from_
  | n + 1, k => do
      if k.atDocumentMark then k.fail .documentIndicator .quotedScalar from_
      if k.rest.isEmpty then k.fail .endOfStream .quotedScalar from_
      let (run, broken, k) ← readQuotedRun double from_ k.rest.length k
      if charNext (if double then '"' else '\x27') k.rest then return (run, k.skip)
      let (gap, k) ← readGap .quotedScalar from_ 0 k.rest.length (.empty broken) k
      let (more, k) ← readQuotedRest double from_ n k
      return (run ++ gap.text ++ more, k)

def readQuoted (double : Bool) (k : Cursor) : Except Error (Token × Cursor) := do
  let from_ := k.mark
  let (text, k) ← readQuotedRest double from_ (k.rest.length + 1) k.skip
  let style := if double then Style.doubleQuoted else .singleQuoted
  return (⟨.scalar (String.ofList text) style, from_, k.mark⟩, k)

/-! ## Plain scalars -/

/-- Reads characters of a plain scalar up to a gap or what ends it. -/
def readPlainRun (inFlow : Bool) (from_ : Mark) :
    List Char → Mark → Except Error (List Char × Cursor)
  | [], m => .ok ([], ⟨[], m⟩)
  | c :: cs, m =>
      let here : Cursor := ⟨c :: cs, m⟩
      if isGap c || isBreak c then .ok ([], here)
      else if inFlow && c = ':' && cs.head?.any (",?[]\x7b\x7d".toList.contains ·) then
        here.fail .flowColon .plainScalar from_
      else if c = ':' && gapNext cs then .ok ([], here)
      else if inFlow && ",[]\x7b\x7d".toList.contains c then .ok ([], here)
      else do
        let (run, k) ← readPlainRun inFlow from_ cs (m.next c)
        return (c :: run, k)

/-- A plain scalar that was read. -/
structure Plain where
  text : List Char
  stop : Mark
  /-- Does a line break stand behind it? -/
  broken : Bool
  rest : Cursor

/-- Reads a plain scalar behind a gap, at most `n` runs of it.  `before` ends at `stop`;
`least` is the column that its lines must reach outside brackets. -/
def readPlainRest (inFlow : Bool) (least : Nat) (from_ : Mark) :
    Nat → List Char → Mark → Gap → Cursor → Except Error Plain
  | 0, before, stop, gap, k => .ok ⟨before, stop, gap.broken, k⟩
  | n + 1, before, stop, gap, k => do
      if k.atDocumentMark || charNext '#' k.rest then return ⟨before, stop, gap.broken, k⟩
      let (run, k) ← readPlainRun inFlow from_ k.rest k.mark
      let (text, stop, gap) := if run.isEmpty then (before, stop, gap)
        else (before ++ gap.text ++ run, k.mark, Gap.empty false)
      if k.rest.isEmpty || !gapNext k.rest then return ⟨text, stop, gap.broken, k⟩
      let (gap, k) ← readGap .plainScalar from_ least k.rest.length gap k
      if !inFlow && k.mark.column < least then return ⟨text, stop, gap.broken, k⟩
      readPlainRest inFlow least from_ n text stop gap k

/-- Reads a plain scalar; `indent` is the column of the block around it, or -1.
The flag tells whether a line break stands behind it. -/
def readPlain (inFlow : Bool) (indent : Int) (k : Cursor) : Except Error (Token × Bool × Cursor) := do
  let from_ := k.mark
  let plain ← readPlainRest inFlow (indent + 1).toNat from_ (k.rest.length + 1) [] from_ (.empty false) k
  return (⟨.scalar (String.ofList plain.text) .plain, from_, plain.stop⟩, plain.broken, plain.rest)

/-! ## Block scalars -/

/-- What is done with the line breaks at the end of a block scalar. -/
inductive Chomping where
  | strip
  | clip
  | keep
deriving DecidableEq, Repr

/-- The chomping that a sign asks for. -/
def chompingOf? (cs : List Char) : Option Chomping :=
  match cs with
  | '+' :: _ => some .keep
  | '-' :: _ => some .strip
  | _ => none

/-- Reads the digit of an explicit indentation, if there is one. -/
def readIndentDigit (from_ : Mark) (k : Cursor) : Except Error (Option Nat × Cursor) :=
  match k.rest with
  | c :: _ =>
      if c = '0' then k.fail .zeroIndent .blockScalar from_
      else if c.isDigit then .ok (some (c.toNat - '0'.toNat), k.skip)
      else .ok (none, k)
  | [] => .ok (none, k)

/-- Reads the chomping sign and the indentation digit, in either order. -/
def readBlockHeader (from_ : Mark) (k : Cursor) :
    Except Error (Chomping × Option Nat × Cursor) := do
  match chompingOf? k.rest with
  | some chomping =>
      let (digit, k) ← k.skip.readIndentDigit from_
      return (chomping, digit, k)
  | none =>
      let (digit, k) ← k.readIndentDigit from_
      match digit, chompingOf? k.rest with
      | some _, some chomping => return (chomping, digit, k.skip)
      | _, _ => return (.clip, digit, k)

/-- Reads spaces left of the column `indent`; without an indentation, all spaces. -/
def skipIndent (indent : Option Nat) (k : Cursor) : Cursor :=
  match indent with
  | none => (k.read (· == ' ')).2
  | some n => k.skipN ((k.rest.take (n - k.mark.column)).takeWhile (· == ' ')).length

/-- Reads empty lines, at most `n` of them, and the indentation of the line behind
them.  `widest` is the greatest column reached so far. -/
def readEmptyLines (indent : Option Nat) (from_ : Mark) :
    Nat → Nat → Cursor → Except Error (List Char × Nat × Cursor)
  | 0, widest, k => .ok ([], widest, k)
  | n + 1, widest, k => do
      let k := k.skipIndent indent
      let widest := max widest k.mark.column
      if indent.all (k.mark.column < ·) && charNext '\t' k.rest then
        k.fail .tabForIndent .blockScalar from_
      if k.rest.isEmpty || !breakNext k.rest then return ([], widest, k)
      let (br, k) := k.readBreak
      let (more, widest, k) ← readEmptyLines indent from_ n widest k
      return (br ++ more, widest, k)

def blankNext (cs : List Char) : Bool := cs.head?.any isGap

/-- What the breaks between two lines leave in a block scalar.  In a folded one,
lines that begin without a blank are joined. -/
def joinLines (folded : Bool) (first more : List Char) (blankBefore blankAfter : Bool) : List Char :=
  if folded && charNext '\n' first && !blankBefore && !blankAfter then
    if more.isEmpty then [' '] else more
  else first ++ more

/-- Reads the lines of a block scalar, at most `n` of them.  `first` and `more` are
the line breaks in front, `blank` tells whether the line before began with a blank. -/
def readBlockLines (folded : Bool) (chomping : Chomping) (indent : Nat) (from_ : Mark) :
    Nat → List Char → List Char → Bool → Cursor → Except Error (List Char × Cursor)
  | 0, _, _, _, k => .ok ([], k)
  | n + 1, first, more, blank, k =>
      if k.mark.column = indent && !k.rest.isEmpty then do
        let blankHere := blankNext k.rest
        let joint := joinLines folded first more blank blankHere
        let (line, k) := k.read fun c => !isBreak c
        let (br, k) := k.readBreak
        let (breaks, _, k) ← readEmptyLines (some indent) from_ (k.rest.length + 1) 0 k
        let (text, k) ← readBlockLines folded chomping indent from_ n br breaks blankHere k
        return (joint ++ line ++ text, k)
      else
        match chomping with
        | .strip => .ok ([], k)
        | .clip => .ok (first, k)
        | .keep => .ok (first ++ more, k)

/-- Reads a block scalar; `around` is the column of the block around it, or -1. -/
def readBlock (folded : Bool) (around : Int) (k : Cursor) : Except Error (Token × Cursor) := do
  let from_ := k.mark
  let (chomping, digit, k) ← k.skip.readBlockHeader from_
  let k := k.skipGaps.skipComment
  if !breakNext k.rest then k.fail .noCommentOrBreak .blockScalar from_
  let k := k.skipBreak
  let fixed := digit.map fun d => if 0 ≤ around then around.toNat + d else d
  let (breaks, widest, k) ← readEmptyLines fixed from_ (k.rest.length + 1) 0 k
  let indent := fixed.getD (max (max widest (around + 1).toNat) 1)
  let (text, k) ← readBlockLines folded chomping indent from_ (k.rest.length + 1) [] breaks false k
  let style := if folded then Style.folded else .literal
  return (⟨.scalar (String.ofList text) style, from_, k.mark⟩, k)

end Cursor

end DocStamp.Yaml
