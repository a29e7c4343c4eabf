/-
Cutting a YAML document into tokens.

Indentation turns into tokens that open and close blocks.  A key of one
line shows itself only by the colon behind it: until then its place is
remembered, and the tokens that announce the key are put in front of it
afterwards.  When the text breaks off with an error, the tokens behind
such an open place are not given out, since they might still have
changed.
-/
import DocStamp.Yaml.Token.Scalar

namespace DocStamp.Yaml

/-- A place where a key of one line may have begun. -/
structure OpenKey where
  /-- Must a key begin there, since a block demands one? -/
  required : Bool
  /-- The number of tokens in front of it. -/
  place : Nat
  mark : Mark
deriving DecidableEq, Repr

/-- How far a document has been cut. -/
structure Scanner where
  cursor : Cursor
  /-- The tokens so far, latest first. -/
  tokens : List Token
  /-- The number of tokens so far. -/
  count : Nat
  /-- The open key of each level of brackets, innermost first. -/
  keys : List (Option OpenKey)
  /-- May a key begin here? -/
  keyAllowed : Bool
  /-- The column of the innermost block, or -1. -/
  indent : Int
  /-- The columns of the blocks around it, innermost first. -/
  indents : List Int
deriving Repr

namespace Scanner

/-- The state at the start of a document, with the token that opens it. -/
def start (text : List Char) : Scanner where
  cursor := .start text
  tokens := [⟨.streamStart, ⟨0, 0, 0⟩, ⟨0, 0, 0⟩⟩]
  count := 1
  keys := [none]
  keyAllowed := true
  indent := -1
  indents := []

def inFlow (s : Scanner) : Bool := 1 < s.keys.length

def mark (s : Scanner) : Mark := s.cursor.mark

/-- An error here, without a construct around it. -/
def fail {α : Type} (s : Scanner) (problem : Problem) : Except Error α :=
  .error (.malformed problem s.mark none)

def push (s : Scanner) (t : Token) : Scanner :=
  { s with tokens := t :: s.tokens, count := s.count + 1 }

/-- Adds a token that has no extent. -/
def pushHere (s : Scanner) (kind : TokenKind) : Scanner := s.push ⟨kind, s.mark, s.mark⟩

/-- Adds a token in front of those that came after the first `place`. -/
def insert (s : Scanner) (place : Nat) (t : Token) : Scanner :=
  let after := s.count - place
  { s with tokens := s.tokens.take after ++ t :: s.tokens.drop after, count := s.count + 1 }

/-- Passes over `n` characters, which become a token. -/
def pushChars (s : Scanner) (n : Nat) (kind : TokenKind) : Scanner :=
  let k := s.cursor.skipN n
  { s.push ⟨kind, s.mark, k.mark⟩ with cursor := k }

/-- Adds a token that a reader has read. -/
def pushRead (s : Scanner) (r : Token × Cursor) : Scanner := { s.push r.1 with cursor := r.2 }

/-! ## Open keys -/

/-- Is an open key out of reach: on an earlier line, or more than 1024 bytes back? -/
def isStale (s : Scanner) (key : OpenKey) : Bool :=
  key.mark.line < s.mark.line || key.mark.index + 1024 < s.mark.index

/-- Closes an open key that turned out to be none. -/
def dropKey (s : Scanner) (key : OpenKey) : Except Error Unit :=
  if key.required then s.cursor.fail .noColon .simpleKey key.mark else .ok ()

/-- Closes the open keys that are out of reach, outermost first. -/
def closeStale (s : Scanner) : Except Error Scanner := do
  let keys ← s.keys.reverse.mapM fun key? =>
    match key? with
    | some key => if s.isStale key then do s.dropKey key; return none else return some key
    | none => return none
  return { s with keys := keys.reverse }

/-- Closes the open key of the current level. -/
def closeKey (s : Scanner) : Except Error Scanner := do
  match s.keys with
  | some key :: keys =>
      s.dropKey key
      return { s with keys := none :: keys }
  | _ => return s

/-- Opens a key here, if one may begin here. -/
def openKey (s : Scanner) : Except Error Scanner :=
  if s.keyAllowed then do
    let required := !s.inFlow && s.indent == (s.mark.column : Int)
    let key : OpenKey := ⟨required, s.count, s.mark⟩
    let s ← s.closeKey
    return { s with keys := some key :: s.keys.tail }
  else .ok s

/-! ## Indentation -/

/-- Opens a block at a column that lies deeper than the current one; `place` is where
its token goes. -/
def rollIndent (s : Scanner) (column : Nat) (place : Nat) (kind : TokenKind) (m : Mark) : Scanner :=
  if !s.inFlow && s.indent < column then
    { s.insert place ⟨kind, m, m⟩ with indent := column, indents := s.indent :: s.indents }
  else s

/-- Closes the blocks that lie deeper than a column; the list are the blocks around. -/
def unrollTo (column : Int) : List Int → Scanner → Scanner
  | [], s => s
  | outer :: indents, s =>
      if column < s.indent then
        unrollTo column indents { s.pushHere .blockEnd with indent := outer, indents := indents }
      else s

/-- Closes the blocks that lie deeper than a column. -/
def unrollIndent (s : Scanner) (column : Int) : Scanner :=
  if s.inFlow then s else unrollTo column s.indents s

/-! ## Tokens -/

def fetchEnd (s : Scanner) : Except Error Scanner := do
  let m := s.mark
  let m := if m.column = 0 then m else ⟨m.index, m.line + 1, 0⟩
  let s := { s with cursor := { s.cursor with mark := m } }
  let s ← (s.unrollIndent (-1)).closeKey
  return { s with keyAllowed := false }.pushHere .streamEnd

def fetchDirective (s : Scanner) : Except Error Scanner := do
  let s ← (s.unrollIndent (-1)).closeKey
  return { s with keyAllowed := false }.pushRead (← s.cursor.readDirective)

def fetchDocumentMark (s : Scanner) (kind : TokenKind) : Except Error Scanner := do
  let s ← (s.unrollIndent (-1)).closeKey
  return { s with keyAllowed := false }.pushChars 3 kind

def fetchFlowStart (s : Scanner) (kind : TokenKind) : Except Error Scanner := do
  let s ← s.openKey
  return { s with keys := none :: s.keys, keyAllowed := true }.pushChars 1 kind

def fetchFlowEnd (s : Scanner) (kind : TokenKind) : Except Error Scanner := do
  let s ← s.closeKey
  let keys := if s.inFlow then s.keys.tail else s.keys
  return { s with keys := keys, keyAllowed := false }.pushChars 1 kind

def fetchFlowEntry (s : Scanner) : Except Error Scanner := do
  let s ← s.closeKey
  return { s with keyAllowed := true }.pushChars 1 .flowEntry

def fetchBlockEntry (s : Scanner) : Except Error Scanner := do
  if !s.inFlow && !s.keyAllowed then s.fail .entryNotAllowed
  let s ← (s.rollIndent s.mark.column s.count .blockSequenceStart s.mark).closeKey
  return { s with keyAllowed := true }.pushChars 1 .blockEntry

def fetchKey (s : Scanner) : Except Error Scanner := do
  if !s.inFlow && !s.keyAllowed then s.fail .keyNotAllowed
  let s ← (s.rollIndent s.mark.column s.count .blockMappingStart s.mark).closeKey
  return { s with keyAllowed := !s.inFlow }.pushChars 1 .key

def fetchValue (s : Scanner) : Except Error Scanner := do
  match s.keys with
  | some key :: keys =>
      let s := s.insert key.place ⟨.key, key.mark, key.mark⟩
      let s := s.rollIndent key.mark.column key.place .blockMappingStart key.mark
      return { s with keys := none :: keys, keyAllowed := false }.pushChars 1 .value
  | _ =>
      if !s.inFlow && !s.keyAllowed then s.fail .valueNotAllowed
      let s := s.rollIndent s.mark.column s.count .blockMappingStart s.mark
      return { s with keyAllowed := !s.inFlow }.pushChars 1 .value

/-- A token that may be a key, by its reader. -/
def fetchKeyLike (s : Scanner) (read : Cursor → Except Error (Token × Cursor)) :
    Except Error Scanner := do
  let s ← s.openKey
  return { s with keyAllowed := false }.pushRead (← read s.cursor)

def fetchBlock (s : Scanner) (folded : Bool) : Except Error Scanner := do
  let s ← s.closeKey
  return { s with keyAllowed := true }.pushRead (← s.cursor.readBlock folded s.indent)

/-- A plain scalar.  A key may begin behind it, if it is followed by a line break. -/
def fetchPlain (s : Scanner) : Except Error Scanner := do
  let s ← s.openKey
  let (t, broken, k) ← s.cursor.readPlain s.inFlow s.indent
  return { s with keyAllowed := broken }.pushRead (t, k)

/-! ## Steps -/

/-- May a plain scalar begin with this text? -/
def beginsPlain (inFlow : Bool) : List Char → Bool
  | [] => false
  | c :: cs =>
      !(isGap c || isBreak c || "-?:,[]\x7b\x7d#&*!|>'\"%@`".toList.contains c) ||
        (c == '-' && !(cs.head?.any isGap)) ||
        (!inFlow && (c == '?' || c == ':') && !gapNext cs)

/-- Passes over spaces, comments and line breaks, at most `n` lines of them.  Outside
brackets, a tab counts as a space only where no key may begin.  A byte order mark may
open a line; what stands behind it begins in the second column. -/
def skipToToken : Nat → Scanner → Scanner
  | 0, s => s
  | n + 1, s =>
      let tabs := s.inFlow || !s.keyAllowed
      let k := s.cursor.skipByteOrderMark
      let k := (k.read fun c => c == ' ' || (tabs && c == '\t')).2.skipComment
      if !k.rest.isEmpty && breakNext k.rest then
        skipToToken n { s with cursor := k.skipBreak, keyAllowed := s.keyAllowed || !s.inFlow }
      else { s with cursor := k }

/-- The next token, by the characters that it begins with. -/
def fetchToken (s : Scanner) : Except Error Scanner :=
  let k := s.cursor
  match k.rest with
  | [] => s.fetchEnd
  | c :: cs =>
      if c = '%' && k.mark.column = 0 then s.fetchDirective
      else if k.atDocumentMark then
        s.fetchDocumentMark (if c = '-' then .documentStart else .documentEnd)
      else if c = '[' then s.fetchFlowStart .flowSequenceStart
      else if c = '\x7b' then s.fetchFlowStart .flowMappingStart
      else if c = ']' then s.fetchFlowEnd .flowSequenceEnd
      else if c = '\x7d' then s.fetchFlowEnd .flowMappingEnd
      else if c = ',' then s.fetchFlowEntry
      else if c = '-' && gapNext cs then s.fetchBlockEntry
      else if c = '?' && (s.inFlow || gapNext cs) then s.fetchKey
      else if c = ':' && (s.inFlow || gapNext cs) then s.fetchValue
      else if c = '*' then s.fetchKeyLike (Cursor.readAnchor true)
      else if c = '&' then s.fetchKeyLike (Cursor.readAnchor false)
      else if c = '!' then s.fetchKeyLike (Cursor.readTag s.inFlow)
      else if c = '|' && !s.inFlow then s.fetchBlock false
      else if c = '>' && !s.inFlow then s.fetchBlock true
      else if c = '\x27' then s.fetchKeyLike (Cursor.readQuoted false)
      else if c = '"' then s.fetchKeyLike (Cursor.readQuoted true)
      else if beginsPlain s.inFlow (c :: cs) then s.fetchPlain
      else k.fail .noToken .nextToken k.mark

/-- One step: everything up to the next token, and the token. -/
def step (s : Scanner) : Except Error Scanner := do
  let s ← (skipToToken (s.cursor.rest.length + 1) s).closeStale
  let s ← (s.unrollIndent s.mark.column).fetchToken
  s.closeStale

/-- The number of tokens that no later text can change. -/
def settled (s : Scanner) : Nat :=
  (s.keys.filterMap id).foldl (fun n key => min n key.place) s.count

def isDone (s : Scanner) : Bool :=
  match s.tokens with
  | t :: _ => t.kind == .streamEnd
  | [] => false

end Scanner

/-! ## Whole documents -/

/-- A document cut into tokens, up to its end or to an error. -/
structure Tokens where
  list : List Token
  error : Option Error
deriving Repr

namespace Tokens

/-- Goes on cutting, at most `n` steps. -/
def scanFrom : Nat → Scanner → Tokens
  | 0, s => ⟨s.tokens.reverse, none⟩
  | n + 1, s =>
      if s.isDone then ⟨s.tokens.reverse, none⟩
      else
        match s.step with
        | .ok s => scanFrom n s
        | .error e => ⟨s.tokens.reverse.take s.settled, some e⟩

def scan (text : String) : Tokens :=
  let cs := text.toList
  match controlOffset? 0 cs with
  | some n => ⟨[], some (.control n)⟩
  | none => scanFrom (2 * cs.length + 2) (.start cs)

end Tokens

end DocStamp.Yaml
