/-
# Between two tokens

`Ready` says what a scanner is about to read once it has passed over
blanks and line breaks, and which tokens it then has: a token that lies
further left closes blocks, so the tokens that close them are not there
before.  `Leads` says that a scanner comes to such a state, in steps
that each read at least one character, and which tokens it adds.
-/
import DocStamp.Proofs.Yaml.Cursor
import DocStamp.Yaml.Token.Scan

namespace DocStamp.Yaml

namespace Scanner

/-- A scanner outside brackets; `key` is the place where a key may have begun. -/
def flat (k : Cursor) (ts : List Token) (key : Option OpenKey) (allowed : Bool) (indent : Int)
    (indents : List Int) : Scanner :=
  ⟨k, ts, ts.length, [key], allowed, indent, indents⟩

/-- The tokens `ts'` are `ts` and more, of these kinds in this order.  Both lists have the latest
token first. -/
def Adds (kinds : List TokenKind) (ts ts' : List Token) : Prop :=
  ∃ new : List Token, ts' = new ++ ts ∧ new.reverse.map Token.kind = kinds

theorem Adds.refl (ts : List Token) : Adds [] ts ts := ⟨[], rfl, rfl⟩

theorem Adds.trans {a b : List TokenKind} {ts ts' ts'' : List Token} (h : Adds a ts ts')
    (h' : Adds b ts' ts'') : Adds (a ++ b) ts ts'' := by
  obtain ⟨new, rfl, rfl⟩ := h
  obtain ⟨new', rfl, rfl⟩ := h'
  refine ⟨new' ++ new, (List.append_assoc _ _ _).symm, ?_⟩
  rw [List.reverse_append, List.map_append]

theorem Adds.cons {kinds : List TokenKind} {ts ts' : List Token} (h : Adds kinds ts ts')
    (t : Token) : Adds (kinds ++ [t.kind]) ts (t :: ts') :=
  h.trans ⟨[t], rfl, rfl⟩

/-- Passes over blanks, line breaks and open keys that are out of reach. -/
def settle (s : Scanner) : Except Error Scanner :=
  (skipToToken (s.cursor.rest.length + 1) s).closeStale

theorem step_eq (s : Scanner) :
    s.step = s.settle >>= fun s => (s.unrollIndent s.mark.column).fetchToken >>= closeStale := rfl

/-- Characters that may be passed over within a line, or begin what is passed over. -/
def isPassed (c : Char) : Bool := isGap c || c == '#' || c.toNat == 0xFEFF

/-- Characters that no token begins with. -/
def isSkipped (c : Char) : Bool := isPassed c || isBreak c

/-- The next token lies at a column and begins with a text; when it has closed the blocks that lie
deeper, the tokens are `ts` and the block around it begins at `indent`, unless it lies left of
that. -/
structure Ready (s : Scanner) (allowed : Bool) (indent : Int) (indents : List Int)
    (ts : List Token) (col : Nat) (next : List Char) : Prop where
  notDone : s.isDone = false
  fits : next.length ≤ s.cursor.rest.length
  settles : ∃ t m, s.settle = .ok t ∧ t.cursor = ⟨next, m⟩ ∧ m.column = col ∧
    t.unrollIndent col = (flat ⟨next, m⟩ ts none allowed indent indents).unrollIndent col

section

variable {s : Scanner} {allowed : Bool} {indent : Int} {indents : List Int} {ts : List Token}
  {col : Nat} {next : List Char} {m : Mark}

theorem unrollIndent_flat (k : Cursor) (key : Option OpenKey) (hcol : indent ≤ col) :
    (flat k ts key allowed indent indents).unrollIndent col =
      flat k ts key allowed indent indents := by
  have hlt : ¬ (col : Int) < indent := by omega
  cases indents with
  | nil => rfl
  | cons o os => exact if_neg hlt

theorem Ready.step_eq (h : Ready s allowed indent indents ts col next) (hcol : indent ≤ col) :
    ∃ m, m.column = col ∧
      s.step = (flat ⟨next, m⟩ ts none allowed indent indents).fetchToken >>= closeStale := by
  obtain ⟨t, m, hsettle, hcursor, hm, hunroll⟩ := h.settles
  refine ⟨m, hm, ?_⟩
  have hcolumn : t.mark.column = col := by rw [mark, hcursor, hm]
  rw [Scanner.step_eq, hsettle, ok_bind, hcolumn, hunroll, unrollIndent_flat _ none hcol]

/-- A token that lies left of a block closes it. -/
theorem Ready.outer {o : Int} (h : Ready s allowed indent (o :: indents) ts col next)
    (hcol : (col : Int) < indent) :
    ∃ t : Token, t.kind = .blockEnd ∧ Ready s allowed o indents (t :: ts) col next := by
  obtain ⟨t, m, hsettle, hcursor, hm, hunroll⟩ := h.settles
  refine ⟨⟨.blockEnd, m, m⟩, rfl, h.notDone, h.fits, t, m, hsettle, hcursor, hm, ?_⟩
  rw [hunroll]
  exact if_pos hcol

/-! ## Between tokens -/

theorem isWhite_of_not_skipped {c : Char} (h : isSkipped c = false) : isWhite c = false := by
  obtain ⟨hpassed, hbreak⟩ := Bool.or_eq_false_iff.1 h
  exact Bool.or_eq_false_iff.2
    ⟨(Bool.or_eq_false_iff.1 (Bool.or_eq_false_iff.1 hpassed).1).1, hbreak⟩

/-- Spaces are passed over; a line break behind them leads to the next line, where a key may
begin. -/
theorem skipToToken_eq {j : Nat} (hs : s.cursor = ⟨spaces j ++ next, m⟩)
    (hnext : StopsAt isPassed next) (n : Nat) :
    skipToToken (n + 1) s =
      if !next.isEmpty && breakNext next then
        skipToToken n { s with cursor := Cursor.skipBreak ⟨next, m.after (spaces j)⟩,
                               keyAllowed := s.keyAllowed || !s.inFlow }
      else { s with cursor := ⟨next, m.after (spaces j)⟩ } := by
  have hmark : Cursor.skipByteOrderMark ⟨spaces j ++ next, m⟩ = ⟨spaces j ++ next, m⟩ :=
    Cursor.skipByteOrderMark_spaces (hnext.mono fun c hc => (Bool.or_eq_false_iff.1 hc).2) m
  have htest : StopsAt (fun c => c == ' ' || ((s.inFlow || !s.keyAllowed) && c == '\t')) next := by
    refine hnext.mono fun c hc => ?_
    obtain ⟨hspace, htab⟩ := Bool.or_eq_false_iff.1
      (Bool.or_eq_false_iff.1 (Bool.or_eq_false_iff.1 hc).1).1
    rw [hspace, htab, Bool.and_false]
    rfl
  have hcomment : charNext '#' next = false := charNext_of_stopsAt
    (hnext.mono fun c hc => (Bool.or_eq_false_iff.1 (Bool.or_eq_false_iff.1 hc).1).2)
  have hskip : (Cursor.read (fun c => c == ' ' || ((s.inFlow || !s.keyAllowed) && c == '\t'))
      ⟨spaces j ++ next, m⟩).2.skipComment = ⟨next, m.after (spaces j)⟩ := by
    rw [Cursor.read_spaces rfl j htest m, Cursor.skipComment, hcomment, if_neg Bool.false_ne_true]
  simp only [skipToToken, hs, hmark, hskip]

theorem skipToToken_spaces {j : Nat} (hs : s.cursor = ⟨spaces j ++ next, m⟩)
    (hnext : StopsAt isSkipped next) (n : Nat) :
    skipToToken (n + 1) s = { s with cursor := ⟨next, m.after (spaces j)⟩ } := by
  have hline : (!next.isEmpty && breakNext next) = false := by
    cases next with
    | nil => rfl
    | cons c cs => exact (Bool.or_eq_false_iff.1 (hnext c rfl)).2
  rw [skipToToken_eq hs (hnext.mono fun c hc => (Bool.or_eq_false_iff.1 hc).1), hline,
    if_neg Bool.false_ne_true]

theorem skipToToken_line (hnext : StopsAt isSkipped next) (n j : Nat) (key : Option OpenKey)
    (m : Mark) :
    skipToToken (n + 2) (flat ⟨'\n' :: (spaces j ++ next), m⟩ ts key allowed indent indents) =
      flat ⟨next, m.after ('\n' :: spaces j)⟩ ts key true indent indents := by
  have hcursor : (flat ⟨'\n' :: (spaces j ++ next), m⟩ ts key allowed indent indents).cursor =
      ⟨spaces 0 ++ '\n' :: (spaces j ++ next), m⟩ := rfl
  have hbehind : (flat ⟨spaces j ++ next, m.step '\n'⟩ ts key (allowed || true) indent
      indents).cursor = ⟨spaces j ++ next, m.step '\n'⟩ := rfl
  -- One round for the break and one for the spaces behind it.
  refine (skipToToken_eq hcursor (stopsAt_cons rfl _) (n + 1)).trans
    ((skipToToken_spaces hbehind hnext n).trans ?_)
  rw [Bool.or_true]
  rfl

/-- The key, if there is one, need not be one and begins no later than the mark. -/
def Idle (key : Option OpenKey) (m : Mark) : Prop :=
  ∀ k ∈ key, k.required = false ∧ k.mark.line ≤ m.line

theorem closeStale_none (k : Cursor) :
    (flat k ts none allowed indent indents).closeStale =
      .ok (flat k ts none allowed indent indents) := rfl

theorem mapM_eq_self {α : Type} {f : α → Except Error α} {l : List α} (h : ∀ a ∈ l, f a = .ok a) :
    l.mapM f = .ok l := by
  induction l with
  | nil => rfl
  | cons a l ih =>
      rw [List.mapM_cons, h a List.mem_cons_self, ok_bind,
        ih fun b hb => h b (List.mem_cons_of_mem a hb)]
      rfl

theorem closeStale_eq_self (h : ∀ k, some k ∈ s.keys → s.isStale k = false) :
    s.closeStale = .ok s := by
  rw [closeStale, mapM_eq_self, ok_bind, List.reverse_reverse]
  · rfl
  · intro key hmem
    cases key with
    | none => rfl
    | some k =>
        simp only [h k (List.mem_reverse.1 hmem)]
        rfl

theorem isStale_near {k : OpenKey} (hline : k.mark.line = s.mark.line)
    (hnear : s.mark.index ≤ k.mark.index + 1024) : s.isStale k = false := by
  rw [isStale, hline, decide_eq_false (Nat.lt_irrefl _), decide_eq_false (Nat.not_lt.2 hnear)]
  rfl

/-- A step from where the next token begins right away, and closes nothing. -/
theorem step_here (hs : s.cursor = ⟨next, m⟩) (hnext : StopsAt isSkipped next)
    (hkeys : ∀ k, some k ∈ s.keys → s.isStale k = false)
    (hunroll : s.unrollIndent m.column = s) :
    s.step = s.fetchToken >>= closeStale := by
  have hskip : skipToToken (s.cursor.rest.length + 1) s = s := by
    rw [skipToToken_spaces (j := 0) hs hnext]
    show { s with cursor := ⟨next, m⟩ } = s
    rw [← hs]
  have hsettle : s.settle = .ok s := by rw [settle, hskip, closeStale_eq_self hkeys]
  have hcolumn : s.mark.column = m.column := by rw [mark, hs]
  rw [step_eq, hsettle, ok_bind, hcolumn, hunroll]

theorem closeStale_some (k : Cursor) {key : OpenKey} (hkey : key.required = false) :
    (flat k ts (some key) allowed indent indents).closeStale =
      .ok (flat k ts (if key.mark.line < k.mark.line || key.mark.index + 1024 < k.mark.index then
        none else some key) allowed indent indents) := by
  have hstale : (flat k ts (some key) allowed indent indents).isStale key =
      (decide (key.mark.line < k.mark.line) || decide (key.mark.index + 1024 < k.mark.index)) := rfl
  have hkeys : (flat k ts (some key) allowed indent indents).keys.reverse = [some key] := rfl
  simp only [closeStale, hkeys, List.mapM_cons, List.mapM_nil, hstale, dropKey, hkey]
  split <;> rfl

theorem closeStale_idle {key : Option OpenKey} (hkey : Idle key m) :
    ∃ key', Idle key' m ∧ ∀ {b ts allowed indent indents},
      (flat ⟨b, m⟩ ts key allowed indent indents).closeStale =
        .ok (flat ⟨b, m⟩ ts key' allowed indent indents) := by
  cases key with
  | none => exact ⟨none, hkey, rfl⟩
  | some key =>
      refine ⟨if key.mark.line < m.line || key.mark.index + 1024 < m.index then none else some key,
        ?_, closeStale_some _ (hkey key rfl).1⟩
      split
      · intro k hk
        cases hk
      · exact hkey

theorem closeStale_later {key : Option OpenKey} {k : Cursor} {m : Mark} (hkey : Idle key m)
    (hline : m.line < k.mark.line) :
    (flat k ts key allowed indent indents).closeStale =
      .ok (flat k ts none allowed indent indents) := by
  cases key with
  | none => rfl
  | some key =>
      have hlater : key.mark.line < k.mark.line := Nat.lt_of_le_of_lt (hkey key rfl).2 hline
      rw [closeStale_some k (hkey key rfl).1, decide_eq_true hlater, Bool.true_or, if_pos rfl]

/-- At the end of a line the scanner is ready for what begins the next one. -/
theorem ready_of_line {t : Token} {key : Option OpenKey} (ht : (t.kind == .streamEnd) = false)
    (hkey : Idle key m) (hnext : StopsAt isSkipped next) :
    Ready (flat ⟨'\n' :: (spaces col ++ next), m⟩ (t :: ts) key allowed indent indents) true indent
      indents (t :: ts) col next where
  notDone := ht
  fits := by
    show next.length ≤ ('\n' :: (spaces col ++ next)).length
    rw [List.length_cons, List.length_append]
    omega
  settles := by
    have hline : m.line < (m.after ('\n' :: spaces col)).line :=
      Mark.line_lt_after_break rfl m [] (spaces col)
    refine ⟨_, m.after ('\n' :: spaces col), ?_, rfl, ?_, rfl⟩
    · have hskip : skipToToken ((spaces col ++ next).length + 2)
          (flat ⟨'\n' :: (spaces col ++ next), m⟩ (t :: ts) key allowed indent indents) = _ :=
        skipToToken_line hnext _ col key m
      exact (congrArg closeStale hskip).trans (closeStale_later hkey hline)
    · exact column_after_line rfl m [] col

theorem ready_of_spaces {t : Token} (ht : (t.kind == .streamEnd) = false) (j : Nat)
    (hnext : StopsAt isSkipped next) :
    Ready (flat ⟨spaces j ++ next, m⟩ (t :: ts) none allowed indent indents) allowed indent
      indents (t :: ts) (m.column + j) next where
  notDone := ht
  fits := by
    show next.length ≤ (spaces j ++ next).length
    rw [List.length_append]
    omega
  settles := by
    refine ⟨_, m.after (spaces j), ?_, rfl, column_after_spaces m j, rfl⟩
    exact (congrArg closeStale (skipToToken_spaces rfl hnext _)).trans (closeStale_none _)

theorem ready_here {t : Token} (ht : (t.kind == .streamEnd) = false) (hm : m.column = col)
    (hnext : StopsAt isSkipped next) :
    Ready (flat ⟨next, m⟩ (t :: ts) none allowed indent indents) allowed indent indents (t :: ts)
      col next := by
  subst hm
  exact ready_of_spaces ht 0 hnext

/-! ## Blocks -/

/-- The token that opens a block at a column, if the column lies deeper than the block around. -/
def openTokens (indent : Int) (col : Nat) (kind : TokenKind) (m : Mark) : List Token :=
  if indent < col then [⟨kind, m, m⟩] else []

def openKinds (indent : Int) (col : Nat) (kind : TokenKind) : List TokenKind :=
  if indent < col then [kind] else []

theorem adds_openTokens (kind : TokenKind) (m : Mark) (ts : List Token) :
    Adds (openKinds indent col kind) ts (openTokens indent col kind m ++ ts) := by
  refine ⟨openTokens indent col kind m, rfl, ?_⟩
  unfold openTokens openKinds
  split <;> rfl

/-- The blocks around a column where a block may begin. -/
def openIndents (indent : Int) (col : Nat) (indents : List Int) : List Int :=
  if indent < col then indent :: indents else indents

theorem insert_flat (k : Cursor) (front : List Token) (key : Option OpenKey) (t : Token) :
    (flat k (front ++ ts) key allowed indent indents).insert ts.length t =
      flat k (front ++ t :: ts) key allowed indent indents := by
  have hplace : (front ++ ts).length - ts.length = front.length := by
    rw [List.length_append, Nat.add_sub_cancel]
  have hcount : (front ++ ts).length + 1 = (front ++ t :: ts).length := by
    simp [Nat.add_assoc]
  simp only [insert, flat, hplace, hcount, List.take_left, List.drop_left]

theorem rollIndent_flat (k : Cursor) (front : List Token) (key : Option OpenKey)
    (hcol : indent ≤ col) (kind : TokenKind) (m : Mark) :
    (flat k (front ++ ts) key allowed indent indents).rollIndent col ts.length kind m =
      flat k (front ++ (openTokens indent col kind m ++ ts)) key allowed col
        (openIndents indent col indents) := by
  by_cases hlt : indent < col
  · have hopen : (!(flat k (front ++ ts) key allowed indent indents).inFlow &&
        decide ((flat k (front ++ ts) key allowed indent indents).indent < (col : Int))) = true :=
      decide_eq_true hlt
    rw [rollIndent, if_pos hopen, insert_flat, openTokens, if_pos hlt, openIndents, if_pos hlt]
    rfl
  · have hsame : ¬ (!(flat k (front ++ ts) key allowed indent indents).inFlow &&
        decide ((flat k (front ++ ts) key allowed indent indents).indent < (col : Int))) = true :=
      fun h => hlt (of_decide_eq_true h)
    rw [rollIndent, if_neg hsame, openTokens, if_neg hlt, openIndents, if_neg hlt,
      Int.le_antisymm hcol (Int.not_lt.1 hlt)]
    rfl

/-! ## Steps -/

/-- A scanner comes to another in steps that each read something. -/
inductive Reaches : Scanner → Scanner → Prop
  | refl (s : Scanner) : Reaches s s
  | step {s t u : Scanner} : s.isDone = false → s.step = .ok t →
      t.cursor.rest.length < s.cursor.rest.length → Reaches t u → Reaches s u

theorem Reaches.trans {t u : Scanner} (h : Reaches s t) (h' : Reaches t u) : Reaches s u := by
  induction h with
  | refl s => exact h'
  | step hdone hstep hless _ ih => exact .step hdone hstep hless (ih h')

/-- A scanner whose tokens are `ts` comes in steps to one that is ready; the tokens added on the way
are of these kinds. -/
def Leads (s : Scanner) (ts : List Token) (kinds : List TokenKind) (allowed : Bool) (indent : Int)
    (indents : List Int) (col : Nat) (next : List Char) : Prop :=
  ∃ u ts', Reaches s u ∧ Adds kinds ts ts' ∧ Ready u allowed indent indents ts' col next

theorem Leads.trans {kinds more : List TokenKind} {allowed' : Bool} {indent' : Int}
    {indents' : List Int} {col' : Nat} {next' : List Char}
    (h : Leads s ts kinds allowed indent indents col next)
    (h' : ∀ {u ts'}, Ready u allowed indent indents ts' col next →
      Leads u ts' more allowed' indent' indents' col' next') :
    Leads s ts (kinds ++ more) allowed' indent' indents' col' next' := by
  obtain ⟨u, ts', hreach, hadds, hready⟩ := h
  obtain ⟨u', ts'', hreach', hadds', hready'⟩ := h' hready
  exact ⟨u', ts'', hreach.trans hreach', hadds.trans hadds', hready'⟩

theorem leads_of_token {u : Scanner} {t : Token} (hreach : Reaches s u)
    (hready : Ready u allowed indent indents (t :: ts) col next) :
    Leads s ts [t.kind] allowed indent indents col next :=
  ⟨u, t :: ts, hreach, ⟨[t], rfl, rfl⟩, hready⟩

theorem Leads.outer {kinds : List TokenKind} {o : Int}
    (h : Leads s ts kinds allowed indent (o :: indents) col next) (hcol : (col : Int) < indent) :
    Leads s ts (kinds ++ [.blockEnd]) allowed o indents col next := by
  refine h.trans fun hready => ?_
  obtain ⟨t, ht, houter⟩ := hready.outer hcol
  exact ⟨_, _, .refl _, ⟨[t], rfl, congrArg (· :: []) ht⟩, houter⟩

theorem Ready.reaches (h : Ready s allowed indent indents ts col next) (hcol : indent ≤ col) :
    ∃ m, m.column = col ∧ ∀ {t u : Scanner},
      (flat ⟨next, m⟩ ts none allowed indent indents).fetchToken = .ok t → t.closeStale = .ok u →
        u.cursor.rest.length < next.length → Reaches s u := by
  obtain ⟨m, hm, hstep⟩ := h.step_eq hcol
  refine ⟨m, hm, fun ht hu hless => ?_⟩
  rw [ht, ok_bind, hu] at hstep
  exact .step h.notDone hstep (Nat.lt_of_lt_of_le hless h.fits) (.refl _)

end

end Scanner

end DocStamp.Yaml
