/-
Turning tokens into events.

The parser is a machine with one state per construct.  Each step reads
the tokens it needs and gives one event; the states still to come are
kept on a stack, and so are the marks where open collections began.
-/
import DocStamp.Yaml.Event
import DocStamp.Yaml.Token.Scan

namespace DocStamp.Yaml

/-! ## The state of the parser -/

/-- What the parser expects next. -/
inductive State where
  | streamStart
  | implicitDocument
  | document
  | documentContent
  | documentEnd
  | blockNode
  | blockSequenceFirst
  | blockSequence
  | indentlessSequence
  | blockMappingFirst
  | blockMappingKey
  | blockMappingValue
  | flowSequenceFirst
  | flowSequence
  | flowPairKey
  | flowPairValue
  | flowPairEnd
  | flowMappingFirst
  | flowMappingKey
  | flowMappingValue
  | flowMappingEmptyValue
  | done
deriving DecidableEq, Repr

/-- How far the tokens of a document have been read. -/
structure Parser where
  tokens : List Token
  /-- The error at which the tokens break off. -/
  error : Option Error
  state : State
  /-- The states to go back to, innermost first. -/
  states : List State
  /-- The marks of the open collections, innermost first. -/
  marks : List Mark
  /-- The declared tag handles. -/
  handles : List (String × String)
deriving Repr

namespace Parser

def start (ts : Tokens) : Parser := ⟨ts.list, ts.error, .streamStart, [], [], []⟩

/-- What a step gives: an event, and the parser behind it. -/
abbrev Step := Except Error (Event × Parser)

def peek (p : Parser) : Except Error Token :=
  match p.tokens with
  | t :: _ => .ok t
  | [] => .error (p.error.getD .missingValue)

def skip (p : Parser) : Parser := { p with tokens := p.tokens.tail }

def goto (p : Parser) (state : State) : Parser := { p with state := state }

/-- Remembers a state to go back to. -/
def push (p : Parser) (state : State) : Parser := { p with states := state :: p.states }

/-- Goes back to the state that was remembered last. -/
def pop (p : Parser) : Parser :=
  { p with state := p.states.headD .done, states := p.states.tail }

/-- Remembers the mark of a collection. -/
def pushMark (p : Parser) (m : Mark) : Parser := { p with marks := m :: p.marks }

def popMark (p : Parser) : Parser := { p with marks := p.marks.tail }

def emit (p : Parser) (kind : EventKind) (m : Mark) : Step := .ok (⟨kind, m⟩, p)

/-- Gives the empty scalar that stands where a value is missing. -/
def emitEmpty (p : Parser) (m : Mark) : Step := p.emit (.scalar ⟨none, none⟩ "" .plain) m

def fail {α : Type} (problem : Problem) (t : Token) : Except Error α :=
  .error (.malformed problem t.start none)

/-- An error at a token inside the innermost collection. -/
def failIn {α : Type} (p : Parser) (problem : Problem) (context : Context) (t : Token) :
    Except Error α :=
  .error (.malformed problem t.start (some (context, p.marks.headD ⟨0, 0, 0⟩)))

/-! ## Documents -/

/-- The handles that every document has. -/
def defaultHandles : List (String × String) := [("!", "!"), ("!!", "tag:yaml.org,2002:")]

/-- Reads directives; `version` tells whether one for the version was there. -/
def readDirectives (version : Bool) (handles : List (String × String)) :
    List Token → Except Error (List (String × String) × List Token)
  | t :: ts =>
      match t.kind with
      | .versionDirective major minor =>
          if version then fail .duplicateVersion t
          else if major ≠ 1 ∨ (minor ≠ 1 ∧ minor ≠ 2) then fail .incompatibleVersion t
          else readDirectives true handles ts
      | .tagDirective handle uri =>
          if handles.any (·.1 == handle) then fail .duplicateTag t
          else readDirectives version (handles ++ [(handle, uri)]) ts
      | _ => .ok (handles, t :: ts)
  | [] => .ok (handles, [])

/-- Reads directives and adds the handles that are not declared otherwise. -/
def withDirectives (p : Parser) : Except Error Parser := do
  let (handles, tokens) ← readDirectives false [] p.tokens
  let defaults := defaultHandles.filter fun d => !handles.any (·.1 == d.1)
  return { p with tokens := tokens, handles := handles ++ defaults }

def skipDocumentEnds : List Token → List Token
  | t :: ts => if t.kind = .documentEnd then skipDocumentEnds ts else t :: ts
  | [] => []

/-- Does the token open an explicit document or end the stream? -/
def opensDocument : TokenKind → Bool
  | .versionDirective _ _ | .tagDirective _ _ | .documentStart | .streamEnd => true
  | _ => false

/-- Starts a document, or ends the stream. -/
def documentStart (p : Parser) (implicit : Bool) : Step := do
  let p := if implicit then p else { p with tokens := skipDocumentEnds p.tokens }
  let t ← p.peek
  if implicit && !opensDocument t.kind then
    let p := { p with handles := defaultHandles }
    ((p.push .documentEnd).goto .blockNode).emit .documentStart t.start
  else if t.kind = .streamEnd then (p.skip.goto .done).emit .streamEnd t.start
  else
    let p ← p.withDirectives
    let mark ← p.peek
    if mark.kind ≠ .documentStart then fail .noDocumentStart mark
    ((p.push .documentEnd).goto .documentContent).skip.emit .documentStart t.start

def documentEnd (p : Parser) : Step := do
  let t ← p.peek
  let p := if t.kind = .documentEnd then p.skip else p
  ({ p with handles := [] }.goto .document).emit .documentEnd t.start

/-! ## Values -/

/-- The tag that a handle and its tail stand for. -/
def resolveTag (p : Parser) (handle tail : String) (start place : Mark) : Except Error String :=
  if handle == "" then .ok tail
  else
    match p.handles.find? (·.1 == handle) with
    | some d => .ok (d.2 ++ tail)
    | none => .error (.malformed .undefinedHandle place (some (.node, start)))

/-- The anchor and the tag in front of a value, as they are written. -/
structure RawProperties where
  anchor : Option String
  tag : Option (String × String × Mark)

/-- Reads an anchor and a tag, in either order. -/
def readProperties (p : Parser) : Except Error (RawProperties × Parser) := do
  let t ← p.peek
  match t.kind with
  | .anchor name =>
      let p := p.skip
      let u ← p.peek
      match u.kind with
      | .tag handle tail => return (⟨some name, some (handle, tail, u.start)⟩, p.skip)
      | _ => return (⟨some name, none⟩, p)
  | .tag handle tail =>
      let p := p.skip
      let u ← p.peek
      match u.kind with
      | .anchor name => return (⟨some name, some (handle, tail, t.start)⟩, p.skip)
      | _ => return (⟨none, some (handle, tail, t.start)⟩, p)
  | _ => return (⟨none, none⟩, p)

/-- A value that is no alias.  `block` allows blocks, `indentless` a sequence at the
column of the mapping around it. -/
def content (p : Parser) (block indentless : Bool) (props : Properties) (start : Mark) : Step := do
  let t ← p.peek
  match t.kind with
  | .scalar text style => p.pop.skip.emit (.scalar props text style) start
  | .flowSequenceStart => (p.goto .flowSequenceFirst).emit (.sequenceStart props) start
  | .flowMappingStart => (p.goto .flowMappingFirst).emit (.mappingStart props) start
  | kind =>
      if indentless && kind = .blockEntry then
        (p.goto .indentlessSequence).emit (.sequenceStart props) start
      else if block && kind = .blockSequenceStart then
        (p.goto .blockSequenceFirst).emit (.sequenceStart props) start
      else if block && kind = .blockMappingStart then
        (p.goto .blockMappingFirst).emit (.mappingStart props) start
      else if props.anchor.isSome || props.tag.isSome then
        p.pop.emit (.scalar props "" .plain) start
      else
        let context := if block then Context.blockNode else .flowNode
        .error (.malformed .noNodeContent t.start (some (context, start)))

def node (p : Parser) (block indentless : Bool) : Step := do
  let t ← p.peek
  match t.kind with
  | .alias name => p.pop.skip.emit (.alias name) t.start
  | _ =>
      let (raw, p) ← p.readProperties
      -- What follows the properties has to be there before the tag is looked up.
      let _ ← p.peek
      let tag ← match raw.tag with
        | some (handle, tail, place) => some <$> p.resolveTag handle tail t.start place
        | none => pure none
      p.content block indentless ⟨raw.anchor, tag⟩ t.start

/-- The content of an explicit document, which may be missing. -/
def documentContent (p : Parser) : Step := do
  let t ← p.peek
  if opensDocument t.kind || t.kind = .documentEnd then p.pop.emitEmpty t.start
  else p.node true false

/-! ## Blocks -/

/-- Opens a collection: remembers its mark and passes over its token. -/
def openCollection (p : Parser) : Except Error Parser := do
  let t ← p.peek
  return (p.pushMark t.start).skip

/-- A value behind the token `t`, unless the next token is one of those that show that
there is none; `back` is the state behind the value. -/
def valueOrEmpty (p : Parser) (t : Token) (ends : List TokenKind) (back : State)
    (indentless : Bool) : Step := do
  let p := p.skip
  let next ← p.peek
  if ends.contains next.kind then (p.goto back).emitEmpty t.stop
  else (p.push back).node true indentless

/-- An entry of a sequence in a block, or its end. -/
def blockSequence (p : Parser) : Step := do
  let t ← p.peek
  match t.kind with
  | .blockEntry => p.valueOrEmpty t [.blockEntry, .blockEnd] .blockSequence false
  | .blockEnd => p.pop.popMark.skip.emit .sequenceEnd t.start
  | _ => p.failIn .noDash .blockCollection t

/-- An entry of a sequence at the column of the mapping around it, or its end. -/
def indentlessSequence (p : Parser) : Step := do
  let t ← p.peek
  match t.kind with
  | .blockEntry =>
      p.valueOrEmpty t [.blockEntry, .key, .value, .blockEnd] .indentlessSequence false
  | _ => p.pop.emit .sequenceEnd t.start

/-- A key of a mapping in a block, or its end. -/
def blockMappingKey (p : Parser) : Step := do
  let t ← p.peek
  match t.kind with
  | .key => p.valueOrEmpty t [.key, .value, .blockEnd] .blockMappingValue true
  | .blockEnd => p.pop.popMark.skip.emit .mappingEnd t.start
  | _ => p.failIn .noKey .blockMapping t

def blockMappingValue (p : Parser) : Step := do
  let t ← p.peek
  match t.kind with
  | .value => p.valueOrEmpty t [.key, .value, .blockEnd] .blockMappingKey true
  | _ => (p.goto .blockMappingKey).emitEmpty t.start

/-! ## Brackets -/

/-- Passes over the comma in front of every entry but the first. -/
def skipComma (p : Parser) (first : Bool) (problem : Problem) (context : Context) :
    Except Error Parser := do
  let t ← p.peek
  if first then return p
  else if t.kind = .flowEntry then return p.skip
  else p.failIn problem context t

/-- An entry of a sequence in brackets, or its end. -/
def flowSequence (p : Parser) (first : Bool) : Step := do
  let t ← p.peek
  let p ← if t.kind = .flowSequenceEnd then pure p
    else p.skipComma first .noCommaOrBracket .flowSequence
  let t ← p.peek
  match t.kind with
  | .flowSequenceEnd => p.pop.popMark.skip.emit .sequenceEnd t.start
  | .key => (p.goto .flowPairKey).skip.emit (.mappingStart ⟨none, none⟩) t.start
  | _ => (p.push .flowSequence).node false false

/-- The key of a single pair in a sequence.  Where it is missing, the token that shows
so is passed over. -/
def flowPairKey (p : Parser) : Step := do
  let t ← p.peek
  if [TokenKind.value, .flowEntry, .flowSequenceEnd].contains t.kind then
    (p.goto .flowPairValue).skip.emitEmpty t.stop
  else (p.push .flowPairValue).node false false

/-- A value in brackets behind its colon, which may be missing with the value; `back` is
the state behind it and `close` the bracket. -/
def flowValue (p : Parser) (close : TokenKind) (back : State) : Step := do
  let t ← p.peek
  if t.kind = .value then
    let p := p.skip
    let t ← p.peek
    if t.kind = .flowEntry || t.kind = close then (p.goto back).emitEmpty t.start
    else (p.push back).node false false
  else (p.goto back).emitEmpty t.start

def flowPairEnd (p : Parser) : Step := do
  let t ← p.peek
  (p.goto .flowSequence).emit .mappingEnd t.start

/-- A key of a mapping in braces, or its end. -/
def flowMappingKey (p : Parser) (first : Bool) : Step := do
  let t ← p.peek
  let p ← if t.kind = .flowMappingEnd then pure p
    else p.skipComma first .noCommaOrBrace .flowMapping
  let t ← p.peek
  match t.kind with
  | .flowMappingEnd => p.pop.popMark.skip.emit .mappingEnd t.start
  | .key =>
      let p := p.skip
      let t ← p.peek
      if [TokenKind.value, .flowEntry, .flowMappingEnd].contains t.kind then
        (p.goto .flowMappingValue).emitEmpty t.start
      else (p.push .flowMappingValue).node false false
  | _ => (p.push .flowMappingEmptyValue).node false false

/-- The missing value of a key without a colon. -/
def flowMappingEmptyValue (p : Parser) : Step := do
  let t ← p.peek
  (p.goto .flowMappingKey).emitEmpty t.start

/-! ## The machine -/

/-- One step: the next event. -/
def step (p : Parser) : Step :=
  match p.state with
  | .streamStart => do
      let t ← p.peek
      (p.goto .implicitDocument).skip.emit .streamStart t.start
  | .implicitDocument => p.documentStart true
  | .document => p.documentStart false
  | .documentContent => p.documentContent
  | .documentEnd => p.documentEnd
  | .blockNode => p.node true false
  | .blockSequenceFirst => do (← p.openCollection).blockSequence
  | .blockSequence => p.blockSequence
  | .indentlessSequence => p.indentlessSequence
  | .blockMappingFirst => do (← p.openCollection).blockMappingKey
  | .blockMappingKey => p.blockMappingKey
  | .blockMappingValue => p.blockMappingValue
  | .flowSequenceFirst => do (← p.openCollection).flowSequence true
  | .flowSequence => p.flowSequence false
  | .flowPairKey => p.flowPairKey
  | .flowPairValue => p.flowValue .flowSequenceEnd .flowPairEnd
  | .flowPairEnd => p.flowPairEnd
  | .flowMappingFirst => do (← p.openCollection).flowMappingKey true
  | .flowMappingKey => p.flowMappingKey false
  | .flowMappingValue => p.flowValue .flowMappingEnd .flowMappingKey
  | .flowMappingEmptyValue => p.flowMappingEmptyValue
  | .done => .error .missingValue

end Parser

namespace Events

/-- Goes on reading events, at most `n` of them. -/
def parseFrom : Nat → Parser → Events
  | 0, _ => ⟨[], none⟩
  | n + 1, p =>
      if p.state = .done then ⟨[], none⟩
      else
        match p.step with
        | .ok (e, p) =>
            let more := parseFrom n p
            ⟨e :: more.list, more.error⟩
        | .error e => ⟨[], some e⟩

def parse (text : String) : Events :=
  let ts := Tokens.scan text
  parseFrom (4 * ts.list.length + 8) (.start ts)

end Events

end DocStamp.Yaml
