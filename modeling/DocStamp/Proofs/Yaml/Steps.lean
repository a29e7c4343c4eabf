/-
# From one token to the next

Each kind of token in a written document leads from one state in which
the scanner is ready to another: the dash of a list, a text in any of
its layouts, an empty pair of brackets, and a key with its colon.
-/
import DocStamp.Proofs.Yaml.Literal
import DocStamp.Proofs.Yaml.Scanner
import DocStamp.Proofs.Yaml.Written

namespace DocStamp.Yaml

namespace Scanner

section

variable {s : Scanner} {allowed : Bool} {indent : Int} {indents : List Int} {ts : List Token}
  {col : Nat} {next : List Char} {m : Mark}

theorem Ready.dash (h : Ready s true indent indents ts col ('-' :: ' ' :: next))
    (hcol : indent ≤ col) (hnext : StopsAt isSkipped next) :
    Leads s ts (openKinds indent col .blockSequenceStart ++ [.blockEntry]) true col
      (openIndents indent col indents) (col + 2) next := by
  obtain ⟨m, rfl, hreach⟩ := h.reaches hcol
  have hmark : Cursor.atDocumentMark ⟨'-' :: ' ' :: next, m⟩ = false := by
    simp [Cursor.atDocumentMark, List.isPrefixOf]
  have hdispatch : (flat ⟨'-' :: ' ' :: next, m⟩ ts none true indent indents).fetchToken =
      (flat ⟨'-' :: ' ' :: next, m⟩ ts none true indent indents).fetchBlockEntry := by
    simp only [fetchToken, flat, hmark]
    rfl
  have hroll : (flat ⟨'-' :: ' ' :: next, m⟩ ts none true indent indents).rollIndent m.column
      ts.length .blockSequenceStart m = _ := rollIndent_flat _ [] none hcol _ m
  have hfetch : (flat ⟨'-' :: ' ' :: next, m⟩ ts none true indent indents).fetchBlockEntry =
      .ok (flat ⟨' ' :: next, m.step '-'⟩ (⟨.blockEntry, m, m.step '-'⟩ ::
        (openTokens indent m.column .blockSequenceStart m ++ ts)) none true m.column
        (openIndents indent m.column indents)) := by
    have heq : (flat ⟨'-' :: ' ' :: next, m⟩ ts none true indent indents).fetchBlockEntry =
        ((flat ⟨'-' :: ' ' :: next, m⟩ ts none true indent indents).rollIndent m.column ts.length
          .blockSequenceStart m).closeKey >>= fun s =>
            .ok ({ s with keyAllowed := true }.pushChars 1 .blockEntry) := rfl
    rw [heq, hroll]
    rfl
  refine ⟨_, _, hreach (hdispatch.trans hfetch) (closeStale_none _) (Nat.lt_succ_self _),
    (adds_openTokens _ m ts).cons ⟨.blockEntry, m, m.step '-'⟩, ?_⟩
  exact ready_of_spaces rfl 1 hnext

/-! ## Scalars -/

/-- The key that is opened by a token that may be one. -/
def opened (m : Mark) (ts : List Token) (allowed : Bool) (indent : Int) : Option OpenKey :=
  if allowed then some ⟨indent == (m.column : Int), ts.length, m⟩ else none

theorem openKey_flat (k : Cursor) : (flat k ts none allowed indent indents).openKey =
    .ok (flat k ts (opened k.mark ts allowed indent) allowed indent indents) := by
  cases allowed <;> rfl

theorem idle_opened {m' : Mark} (hcol : indent < m.column) (hline : m.line ≤ m'.line) :
    Idle (opened m ts allowed indent) m' := by
  intro key hkey
  cases allowed with
  | false => cases hkey
  | true =>
      cases hkey
      exact ⟨beq_false_of_ne (Int.ne_of_lt hcol), hline⟩

theorem isStale_opened {u : Scanner} {k : OpenKey} (hline : m.line = u.mark.line)
    (hnear : u.mark.index ≤ m.index + 1024) (hk : some k = opened m ts allowed indent) :
    u.isStale k = false := by
  cases allowed with
  | false => cases hk
  | true =>
      cases hk
      exact isStale_near hline hnear

theorem fetchKeyLike_flat {read : Cursor → Except Error (Token × Cursor)} {k k' : Cursor}
    {t : Token} (hread : read k = .ok (t, k')) :
    (flat k ts none allowed indent indents).fetchKeyLike read =
      .ok (flat k' (t :: ts) (opened k.mark ts allowed indent) false indent indents) := by
  rw [fetchKeyLike, openKey_flat, ok_bind]
  simp only [flat, hread]
  rfl

theorem fetchPlain_flat {k k' : Cursor} {t : Token} {broken : Bool}
    (hread : k.readPlain false indent = .ok (t, broken, k')) :
    (flat k ts none allowed indent indents).fetchPlain =
      .ok (flat k' (t :: ts) (opened k.mark ts allowed indent) broken indent indents) := by
  rw [fetchPlain, openKey_flat, ok_bind]
  have hflow : (flat k ts (opened k.mark ts allowed indent) allowed indent indents).inFlow =
      false := rfl
  simp only [hflow]
  simp only [flat, hread]
  rfl

theorem fetchBlock_flat {k k' : Cursor} {t : Token} {folded : Bool}
    (hread : k.readBlock folded indent = .ok (t, k')) :
    (flat k ts none allowed indent indents).fetchBlock folded =
      .ok (flat k' (t :: ts) none true indent indents) := by
  have hclose : (flat k ts none allowed indent indents).closeKey =
    .ok (flat k ts none allowed indent indents) := rfl
  rw [fetchBlock, hclose, ok_bind]
  simp only [flat, hread]
  rfl

section

variable {c : Char} {cs : List Char}

theorem ne_of_not_opening (hopen : isOpeningMark c = false) {d : Char}
    (hd : isOpeningMark d = true) : c ≠ d := by
  rintro rfl
  rw [hopen] at hd
  cases hd

/-- A plain text may begin with `-`, `:` or `?`, unless a gap follows. -/
theorem beginsPlain_of_not_opening (hopen : isOpeningMark c = false) (hwhite : isWhite c = false)
    (hgap : ((c == '?' || c == ':' || c == '-') && gapNext cs) = false) :
    beginsPlain false (c :: cs) = true := by
  obtain ⟨hblank, hbreak⟩ := Bool.or_eq_false_iff.1 hwhite
  by_cases hc : (c == '?' || c == ':' || c == '-') = true
  · rw [hc, Bool.true_and] at hgap
    have hhead : cs.head?.any isGap = false := by
      cases cs with
      | nil => rfl
      | cons d ds => exact (Bool.or_eq_false_iff.1 hgap).1
    simp only [Bool.or_eq_true, beq_iff_eq] at hc
    rcases hc with (rfl | rfl) | rfl <;> simp [beginsPlain, hgap, hhead]
  · have hchars : "-?:,[]\x7b\x7d#&*!|>'\"%@`".toList.contains c =
        ((c == '?' || c == ':' || c == '-') || isOpeningMark c) := by
      have hlist : "-?:,[]\x7b\x7d#&*!|>'\"%@`".toList = ['-', '?', ':', ',', '[', ']', '\x7b',
        '\x7d', '#', '&', '*', '!', '|', '>', '\x27', '"', '%', '@', '\x60'] := rfl
      rw [hlist]
      refine Bool.eq_iff_iff.2 ?_
      simp only [isOpeningMark, List.contains_cons, List.contains_nil, Bool.or_false,
        Bool.or_eq_true, beq_iff_eq]
      grind
    rw [beginsPlain, hchars, hopen, hblank, hbreak, Bool.eq_false_iff.2 hc]
    rfl

theorem fetchToken_plain (hopen : isOpeningMark c = false) (hwhite : isWhite c = false)
    (hgap : ((c == '?' || c == ':' || c == '-') && gapNext cs) = false)
    (hmark : Cursor.atDocumentMark ⟨c :: cs, m⟩ = false) (key : Option OpenKey) :
    (flat ⟨c :: cs, m⟩ ts key allowed indent indents).fetchToken =
      (flat ⟨c :: cs, m⟩ ts key allowed indent indents).fetchPlain := by
  have hne : ∀ d, isOpeningMark d = true → c ≠ d := fun d => ne_of_not_opening hopen
  have hgaps : ∀ d, (d == '?' || d == ':' || d == '-') = true →
      (decide (c = d) && gapNext cs) = false := by
    intro d hd
    by_cases hc : c = d
    · rwa [hc, hd, Bool.true_and, ← Bool.true_and (gapNext cs), ← decide_eq_true hc] at hgap
    · rw [decide_eq_false hc, Bool.false_and]
  have hflow : (flat ⟨c :: cs, m⟩ ts key allowed indent indents).inFlow = false := rfl
  simp only [fetchToken, hflow]
  simp only [flat, hmark, hne '%' rfl, hne '[' rfl, hne ']' rfl, hne '\x7b' rfl, hne '\x7d' rfl,
    hne ',' rfl, hne '*' rfl, hne '&' rfl, hne '!' rfl, hne '|' rfl, hne '>' rfl, hne '\x27' rfl,
    hne '"' rfl, hgaps '-' rfl, hgaps '?' rfl, hgaps ':' rfl,
    beginsPlain_of_not_opening hopen hwhite hgap, Bool.false_or, decide_false, Bool.false_and,
    Bool.false_eq_true, if_false, if_true]

end

section

variable {col' : Nat} {next' : List Char}

theorem Ready.quoted {double : Bool} {w : List Char} {kind : TokenKind}
    (h : Ready s allowed indent indents ts col (w ++ '\n' :: (spaces col' ++ next')))
    (hcol : indent < col) (hnext : StopsAt isSkipped next')
    (hw : w.head? = some (quoteMark double)) (hkind : (kind == .streamEnd) = false)
    (hread : ∀ m, Cursor.readQuoted double ⟨w ++ '\n' :: (spaces col' ++ next'), m⟩ =
      .ok (⟨kind, m, m.after w⟩, ⟨'\n' :: (spaces col' ++ next'), m.after w⟩)) :
    Leads s ts [kind] true indent indents col' next' := by
  obtain ⟨m, rfl, hreach⟩ := h.reaches (Int.le_of_lt hcol)
  have hdispatch : (flat ⟨w ++ '\n' :: (spaces col' ++ next'), m⟩ ts none allowed indent
      indents).fetchToken = (flat ⟨w ++ '\n' :: (spaces col' ++ next'), m⟩ ts none allowed indent
      indents).fetchKeyLike (Cursor.readQuoted double) := by
    cases w with
    | nil => cases hw
    | cons c cs =>
        cases hw
        have hmark : Cursor.atDocumentMark
            ⟨quoteMark double :: cs ++ '\n' :: (spaces col' ++ next'), m⟩ = false := by
          cases double <;> exact Cursor.atDocumentMark_of_first (by decide) (by decide) _ m
        simp only [fetchToken, flat, hmark]
        cases double <;> rfl
  have hidle : Idle (opened m ts allowed indent) (m.after w) :=
    idle_opened hcol (Mark.line_le_after m w)
  obtain ⟨key, hkey, hclose⟩ := closeStale_idle hidle
  refine leads_of_token (t := ⟨kind, m, m.after w⟩)
    (hreach (hdispatch.trans (fetchKeyLike_flat (hread m))) hclose ?_)
    (ready_of_line hkind hkey hnext)
  cases w with
  | nil => cases hw
  | cons c cs =>
      show ('\n' :: (spaces col' ++ next')).length <
        (c :: cs ++ '\n' :: (spaces col' ++ next')).length
      simp only [List.length_append, List.length_cons]
      omega

theorem begins_of_canBePlain {c : Char} {cs : List Char} (h : canBePlain (c :: cs) = true) :
    isOpeningMark c = false ∧ isWhite c = false ∧
      ((c == '?' || c == ':' || c == '-') && gapNext cs) = false := by
  have hplain := Cursor.isPlain_of_canBePlain (List.cons_ne_nil c cs) h
  obtain ⟨hprint, hbreak⟩ := hplain.inLine c List.mem_cons_self
  simp only [canBePlain, Bool.not_eq_true', Bool.or_eq_false_iff, hasOpeningMark] at h
  obtain ⟨⟨⟨⟨⟨⟨⟨hopen, hgap⟩, -⟩, -⟩, -⟩, -⟩, -⟩, -⟩ := h
  exact ⟨hopen, Cursor.isWhite_of_inLine hprint hbreak (hplain.begins c rfl), hgap⟩

theorem Ready.plain {i : Nat} {cs : List Char}
    (h : Ready s allowed i indents ts col (cs ++ '\n' :: (spaces col' ++ next')))
    (hi : i < col) (hcol : col' ≤ i) (hnext : StopsAt isSkipped next') (hne : cs ≠ [])
    (hcan : canBePlain cs = true) :
    Leads s ts [.scalar (String.ofList cs) .plain] true i indents col' next' := by
  obtain ⟨m, rfl, hreach⟩ := h.reaches (Int.ofNat_le.2 (Nat.le_of_lt hi))
  have hread := Cursor.readPlain_text hne hcan hcol (hnext.mono fun _ => isWhite_of_not_skipped) hi
  obtain ⟨c, ds, rfl⟩ := List.exists_cons_of_ne_nil hne
  obtain ⟨hopen, hwhite, hgap⟩ := begins_of_canBePlain hcan
  rw [← Cursor.gapNext_append_newline ds (spaces col' ++ next')] at hgap
  have hmark : Cursor.atDocumentMark ⟨c :: (ds ++ '\n' :: (spaces col' ++ next')), m⟩ = false :=
    Cursor.atDocumentMark_of_column (Nat.ne_zero_of_lt hi)
  have hline : m.line < (m.after (c :: ds ++ '\n' :: spaces col')).line :=
    Mark.line_lt_after_break rfl m _ _
  refine leads_of_token (t := ⟨.scalar (String.ofList (c :: ds)) .plain, m, m.after (c :: ds)⟩)
    (hreach ((fetchToken_plain hopen hwhite hgap hmark none).trans (fetchPlain_flat hread))
      (closeStale_later (idle_opened (Int.ofNat_lt.2 hi) (Nat.le_refl _)) hline) ?_)
    (ready_here rfl (column_after_line rfl m _ col') hnext)
  show next'.length < (c :: ds ++ '\n' :: (spaces col' ++ next')).length
  simp only [List.length_append, List.length_cons]
  omega

theorem Ready.literal {i : Nat} {cs : List Char}
    (h : Ready s allowed i indents ts col (writeLiteral (i + 2) cs ++ (spaces col' ++ next')))
    (hi : i < col) (hcol : col' ≤ i) (hnext : StopsAt isSkipped next') (hne : cs ≠ [])
    (hprint : ∀ c ∈ cs, isPrintable c = true) :
    Leads s ts [.scalar (String.ofList cs) .literal] true i indents col' next' := by
  obtain ⟨m, rfl, hreach⟩ := h.reaches (Int.ofNat_le.2 (Nat.le_of_lt hi))
  have hread := Cursor.readBlock_literal hne hprint hcol
    (hnext.mono fun _ => isWhite_of_not_skipped) m
  have hmark : Cursor.atDocumentMark ⟨writeLiteral (i + 2) cs ++ (spaces col' ++ next'), m⟩ =
      false := Cursor.atDocumentMark_of_column (Nat.ne_zero_of_lt hi)
  have hdispatch : (flat ⟨writeLiteral (i + 2) cs ++ (spaces col' ++ next'), m⟩ ts none allowed i
      indents).fetchToken = (flat ⟨writeLiteral (i + 2) cs ++ (spaces col' ++ next'), m⟩ ts none
      allowed i indents).fetchBlock false := by
    simp only [fetchToken, flat, hmark]
    rfl
  refine leads_of_token (t := ⟨.scalar (String.ofList cs) .literal, m, _⟩)
    (hreach (hdispatch.trans (fetchBlock_flat hread)) (closeStale_none _) ?_)
    (ready_here rfl (Cursor.column_after_literal (i + 2) cs m col') hnext)
  show next'.length < (writeLiteral (i + 2) cs ++ (spaces col' ++ next')).length
  simp only [writeLiteral, List.length_append, List.length_cons]
  omega

/-- A text, in the layout that it is written in. -/
theorem Ready.text {i : Nat} {str : String}
    (h : Ready s allowed i indents ts col (writeText i str ++ (spaces col' ++ next')))
    (hi : i < col) (hcol : col' ≤ i) (hnext : StopsAt isSkipped next') :
    Leads s ts [.scalar str (layoutOf str).style] true i indents col' next' := by
  have hquote : StopsAt (· == '\x27') ('\n' :: (spaces col' ++ next')) := stopsAt_cons rfl _
  have hstr : String.ofList str.toList = str := String.ofList_toList
  cases hlayout : layoutOf str with
  | plain =>
      obtain ⟨hmistake, hcan⟩ := plain_of_layoutOf hlayout
      simp only [writeText, hlayout, List.append_assoc] at h
      have hleads := h.plain hi hcol hnext (toList_ne_nil_of_not_mistakable hmistake) hcan
      rwa [hstr] at hleads
  | single =>
      obtain ⟨hcan, hline⟩ := single_of_layoutOf hlayout
      simp only [writeText, hlayout, List.append_assoc] at h
      have hread := Cursor.readQuoted_single (Nat.succ_ne_zero (i + 1)) hquote hcan hline
      rw [hstr] at hread
      exact h.quoted (Int.ofNat_lt.2 hi) hnext rfl rfl hread
  | double =>
      simp only [writeText, hlayout, List.append_assoc] at h
      have hread := Cursor.readQuoted_double str.toList hquote
      rw [hstr] at hread
      exact h.quoted (Int.ofNat_lt.2 hi) hnext rfl rfl hread
  | literal =>
      obtain ⟨hcan, hline⟩ := literal_of_layoutOf hlayout
      simp only [writeText, hlayout] at h
      simp only [canBeLiteral, Bool.and_eq_true, List.all_eq_true] at hcan
      have hleads := h.literal hi hcol hnext (List.ne_nil_of_mem hline) hcan.1.1
      rwa [hstr] at hleads

/-! ## Empty brackets -/

/-- A scanner inside a pair of brackets, where no key has begun. -/
def inBrackets (k : Cursor) (ts : List Token) (key : Option OpenKey) (indent : Int)
    (indents : List Int) : Scanner :=
  ⟨k, ts, ts.length, [none, key], true, indent, indents⟩

theorem fetchFlowStart_flat {c : Char} (hc : isBreak c = false) (b : List Char) (m : Mark)
    (kind : TokenKind) :
    (flat ⟨c :: b, m⟩ ts none allowed indent indents).fetchFlowStart kind =
      .ok (inBrackets ⟨b, m.step c⟩ (⟨kind, m, m.step c⟩ :: ts) (opened m ts allowed indent) indent
        indents) := by
  have hskip : Cursor.skipN 1 ⟨c :: b, m⟩ = ⟨b, m.step c⟩ := Cursor.skip_cons hc b m
  rw [fetchFlowStart, openKey_flat, ok_bind]
  simp only [flat, pushChars, hskip]
  rfl

theorem fetchFlowEnd_inBrackets {c : Char} (hc : isBreak c = false) (b : List Char) (m : Mark)
    (key : Option OpenKey) (kind : TokenKind) :
    (inBrackets ⟨c :: b, m⟩ ts key indent indents).fetchFlowEnd kind =
      .ok (flat ⟨b, m.step c⟩ (⟨kind, m, m.step c⟩ :: ts) key false indent indents) := by
  have hskip : Cursor.skipN 1 ⟨c :: b, m⟩ = ⟨b, m.step c⟩ := Cursor.skip_cons hc b m
  have hnone : (inBrackets ⟨c :: b, m⟩ ts key indent indents).closeKey =
    .ok (inBrackets ⟨c :: b, m⟩ ts key indent indents) := rfl
  rw [fetchFlowEnd, hnone, ok_bind]
  simp only [inBrackets, pushChars, hskip]
  rfl

theorem Ready.brackets {c d : Char} {start stop : TokenKind}
    (h : Ready s allowed indent indents ts col (c :: d :: '\n' :: (spaces col' ++ next')))
    (hcol : indent < col) (hnext : StopsAt isSkipped next') (hc : isBreak c = false)
    (hd : isSkipped d = false) (hstart : (start == .streamEnd) = false)
    (hstop : (stop == .streamEnd) = false)
    (hopen : ∀ m, (flat ⟨c :: d :: '\n' :: (spaces col' ++ next'), m⟩ ts none allowed indent
      indents).fetchToken = (flat ⟨c :: d :: '\n' :: (spaces col' ++ next'), m⟩ ts none allowed
      indent indents).fetchFlowStart start)
    (hclose : ∀ m ts key, (inBrackets ⟨d :: '\n' :: (spaces col' ++ next'), m⟩ ts key indent
      indents).fetchToken = (inBrackets ⟨d :: '\n' :: (spaces col' ++ next'), m⟩ ts key indent
      indents).fetchFlowEnd stop) :
    Leads s ts [start, stop] true indent indents col' next' := by
  obtain ⟨m, rfl, hreach⟩ := h.reaches (Int.le_of_lt hcol)
  -- Between the brackets the place where a key may have begun is still open.
  have hkeys : ∀ k, some k ∈ [none, opened m ts allowed indent] →
      (inBrackets ⟨d :: '\n' :: (spaces col' ++ next'), m.step c⟩ (⟨start, m, m.step c⟩ :: ts)
        (opened m ts allowed indent) indent indents).isStale k = false := by
    intro k hk
    have hopened : some k = opened m ts allowed indent := by simpa using hk
    have hstep : m.step c = m.next c := Mark.step_of_not_break hc m
    refine isStale_opened ?_ ?_ hopened
    · show m.line = (m.step c).line
      rw [hstep]
      rfl
    · show (m.step c).index ≤ m.index + 1024
      have hsize := Char.utf8Size_le_four c
      rw [hstep]
      show m.index + c.utf8Size ≤ m.index + 1024
      omega
  have hfirst := hreach ((hopen m).trans (fetchFlowStart_flat hc _ m start))
    (closeStale_eq_self hkeys) (Nat.lt_succ_self _)
  have hidle : Idle (opened m ts allowed indent) ((m.step c).step d) :=
    idle_opened hcol (Mark.line_le_after m [c, d])
  obtain ⟨key, hkey, hstale⟩ := closeStale_idle hidle
  have hlast : isBreak d = false := (Bool.or_eq_false_iff.1 hd).2
  have hstep : (inBrackets ⟨d :: '\n' :: (spaces col' ++ next'), m.step c⟩
      (⟨start, m, m.step c⟩ :: ts) (opened m ts allowed indent) indent indents).step = _ :=
    step_here rfl (stopsAt_cons hd _) hkeys rfl
  rw [hclose, fetchFlowEnd_inBrackets hlast, ok_bind, hstale] at hstep
  exact ⟨_, _, hfirst.trans (.step hstart hstep (Nat.lt_succ_self _) (.refl _)),
    ⟨[⟨stop, _, _⟩, ⟨start, _, _⟩], rfl, rfl⟩, ready_of_line hstop hkey hnext⟩

theorem Ready.emptyList (h : Ready s allowed indent indents ts col
      ('[' :: ']' :: '\n' :: (spaces col' ++ next')))
    (hcol : indent < col) (hnext : StopsAt isSkipped next') :
    Leads s ts [.flowSequenceStart, .flowSequenceEnd] true indent indents col' next' := by
  refine h.brackets hcol hnext rfl rfl rfl rfl ?_ ?_
  · intro m
    simp only [fetchToken, flat, Cursor.atDocumentMark_of_first (c := '[') (by decide) (by decide)]
    rfl
  · intro m ts key
    simp only [fetchToken, inBrackets,
      Cursor.atDocumentMark_of_first (c := ']') (by decide) (by decide)]
    rfl

theorem Ready.emptyMap (h : Ready s allowed indent indents ts col
      ('\x7b' :: '\x7d' :: '\n' :: (spaces col' ++ next')))
    (hcol : indent < col) (hnext : StopsAt isSkipped next') :
    Leads s ts [.flowMappingStart, .flowMappingEnd] true indent indents col' next' := by
  refine h.brackets hcol hnext rfl rfl rfl rfl ?_ ?_
  · intro m
    simp only [fetchToken, flat,
      Cursor.atDocumentMark_of_first (c := '\x7b') (by decide) (by decide)]
    rfl
  · intro m ts key
    simp only [fetchToken, inBrackets,
      Cursor.atDocumentMark_of_first (c := '\x7d') (by decide) (by decide)]
    rfl

end

/-! ## Keys -/

theorem isOpeningMark_of_isAlpha {c : Char} (hc : c.isAlpha = true) : isOpeningMark c = false := by
  refine Bool.eq_false_iff.2 fun hopen => ?_
  have hnone : ['#', ',', '[', ']', '\x7b', '\x7d', '&', '*', '!', '|', '>', '\x27', '"', '%', '@',
    '\x60'].all (fun d => !d.isAlpha) = true := by decide
  have hmem := List.all_eq_true.1 hnone c (List.contains_iff_mem.1 hopen)
  rw [hc] at hmem
  cases hmem

/-- A colon behind a key puts the tokens that announce the key in front of it. -/
theorem fetchValue_flat (b : List Char) (m : Mark) {m' : Mark} {required : Bool} {t : Token}
    (hcol : indent ≤ m.column) :
    (flat ⟨':' :: b, m'⟩ (t :: ts) (some ⟨required, ts.length, m⟩) false indent
      indents).fetchValue =
      .ok (flat ⟨b, m'.step ':'⟩ (⟨.value, m', m'.step ':'⟩ :: t :: ⟨.key, m, m⟩ ::
        (openTokens indent m.column .blockMappingStart m ++ ts)) none false m.column
        (openIndents indent m.column indents)) := by
  have heq : (flat ⟨':' :: b, m'⟩ (t :: ts) (some ⟨required, ts.length, m⟩) false indent
      indents).fetchValue = .ok (pushChars { rollIndent ((flat ⟨':' :: b, m'⟩ ([t] ++ ts)
        (some ⟨required, ts.length, m⟩) false indent indents).insert ts.length ⟨.key, m, m⟩)
        m.column ts.length .blockMappingStart m with keys := [none], keyAllowed := false } 1
          .value) := rfl
  have hroll : (flat ⟨':' :: b, m'⟩ ([t] ++ ⟨.key, m, m⟩ :: ts) (some ⟨required, ts.length, m⟩)
      false indent indents).rollIndent m.column ts.length .blockMappingStart m = _ :=
    rollIndent_flat _ [t, ⟨.key, m, m⟩] _ hcol _ m
  rw [heq, insert_flat, hroll]
  rfl

theorem reaches_value {m' : Mark} {required : Bool} {b : List Char} {t : Token}
    (ht : (t.kind == .streamEnd) = false)
    (hkeys : ∀ k, some k ∈ [some ⟨required, ts.length, m⟩] →
      (flat ⟨':' :: b, m'⟩ (t :: ts) (some ⟨required, ts.length, m⟩) false indent
        indents).isStale k = false)
    (hcol : indent ≤ m.column) (hcol' : indent ≤ m'.column) (hb : gapNext b = true) :
    Reaches (flat ⟨':' :: b, m'⟩ (t :: ts) (some ⟨required, ts.length, m⟩) false indent indents)
      (flat ⟨b, m'.step ':'⟩ (⟨.value, m', m'.step ':'⟩ :: t :: ⟨.key, m, m⟩ ::
        (openTokens indent m.column .blockMappingStart m ++ ts)) none false m.column
        (openIndents indent m.column indents)) := by
  have hmark : Cursor.atDocumentMark ⟨':' :: b, m'⟩ = false :=
    Cursor.atDocumentMark_of_first (by decide) (by decide) b m'
  have hdispatch : (flat ⟨':' :: b, m'⟩ (t :: ts) (some ⟨required, ts.length, m⟩) false indent
      indents).fetchToken = (flat ⟨':' :: b, m'⟩ (t :: ts) (some ⟨required, ts.length, m⟩) false
      indent indents).fetchValue := by
    simp only [fetchToken, flat, hmark, hb]
    rfl
  have hstep := step_here rfl (stopsAt_cons rfl b) hkeys (unrollIndent_flat _ _ hcol')
  refine .step ht (hstep.trans ?_) (Nat.lt_succ_self _) (.refl _)
  rw [hdispatch, fetchValue_flat b m hcol]
  rfl

theorem Ready.key {key b : List Char} (h : Ready s true indent indents ts col (key ++ ':' :: b))
    (hcol : indent ≤ col) (hkey : IsKey key) (hb : gapNext b = true) :
    ∃ m t ts', (t.kind == .streamEnd) = false ∧ col < m.column ∧
      Reaches s (flat ⟨b, m⟩ (t :: ts') none false col (openIndents indent col indents)) ∧
      Adds (openKinds indent col .blockMappingStart ++
        [.key, .scalar (String.ofList key) .plain, .value]) ts (t :: ts') := by
  obtain ⟨m, rfl, hreach⟩ := h.reaches hcol
  -- The key is read as a text first; the colon then finds it on the same line and near enough.
  have hread := Cursor.readPlain_key hkey hb indent m
  have hafter := Mark.after_of_no_break
    (fun c hc => isBreak_of_not_white (isWhite_of_isWordChar (hkey.word c hc))) m
  have hnear : (m.after key).index ≤ m.index + 1024 := by
    rw [hafter]
    exact Nat.add_le_add_left hkey.short _
  have hline : m.line = (m.after key).line := by rw [hafter]
  have hle : m.column ≤ (m.after key).column := by
    rw [hafter]
    exact Nat.le_add_right _ _
  have hlater : m.column < ((m.after key).step ':').column := Nat.lt_succ_of_le hle
  obtain ⟨c, cs, rfl, hc⟩ := hkey.exists_cons
  have hmark : Cursor.atDocumentMark ⟨c :: (cs ++ ':' :: b), m⟩ = false :=
    Cursor.atDocumentMark_of_first (ne_of_isAlpha hc rfl) (ne_of_isAlpha hc rfl) _ m
  have hgap : ((c == '?' || c == ':' || c == '-') && gapNext (cs ++ ':' :: b)) = false := by
    rw [beq_false_of_ne (ne_of_isAlpha hc rfl), beq_false_of_ne (ne_of_isAlpha hc rfl),
      beq_false_of_ne (ne_of_isAlpha hc rfl)]
    rfl
  have hwhite : isWhite c = false := isWhite_of_isWordChar (hkey.word c List.mem_cons_self)
  have hfetch : (flat ⟨c :: cs ++ ':' :: b, m⟩ ts none true indent indents).fetchToken = _ :=
    (fetchToken_plain (isOpeningMark_of_isAlpha hc) hwhite hgap hmark none).trans
      (fetchPlain_flat hread)
  have hkeys : ∀ k, some k ∈ [opened m ts true indent] →
      (flat ⟨':' :: b, m.after (c :: cs)⟩
        (⟨.scalar (String.ofList (c :: cs)) .plain, m, m.after (c :: cs)⟩ :: ts)
        (opened m ts true indent) false indent indents).isStale k = false := by
    intro k hk
    exact isStale_opened hline hnear (List.mem_singleton.1 hk)
  have hfirst := hreach hfetch (closeStale_eq_self hkeys) (by
    show (':' :: b).length < (c :: cs ++ ':' :: b).length
    simp only [List.length_append, List.length_cons]
    omega)
  refine ⟨_, _, _, rfl, hlater,
    hfirst.trans (reaches_value rfl hkeys hcol (Int.le_trans hcol (Int.ofNat_le.2 hle)) hb), ?_⟩
  exact (adds_openTokens _ m ts).trans ⟨[⟨.value, _, _⟩, _, ⟨.key, m, m⟩], rfl, rfl⟩

theorem Ready.keyBeside {key : List Char}
    (h : Ready s true indent indents ts col (key ++ ':' :: ' ' :: next)) (hcol : indent ≤ col)
    (hkey : IsKey key) (hnext : StopsAt isSkipped next) :
    ∃ col', col < col' ∧ Leads s ts (openKinds indent col .blockMappingStart ++
      [.key, .scalar (String.ofList key) .plain, .value]) false col (openIndents indent col indents)
      col' next := by
  obtain ⟨m, t, ts', ht, hm, hreach, hadds⟩ := h.key hcol hkey rfl
  exact ⟨m.column + 1, Nat.lt_succ_of_lt hm, _, _, hreach, hadds, ready_of_spaces ht 1 hnext⟩

theorem Ready.keyAbove {key : List Char} {col' : Nat}
    (h : Ready s true indent indents ts col (key ++ ':' :: '\n' :: (spaces col' ++ next)))
    (hcol : indent ≤ col) (hkey : IsKey key) (hnext : StopsAt isSkipped next) :
    Leads s ts (openKinds indent col .blockMappingStart ++
      [.key, .scalar (String.ofList key) .plain, .value]) true col (openIndents indent col indents)
      col' next := by
  obtain ⟨m, t, ts', ht, hm, hreach, hadds⟩ := h.key hcol hkey rfl
  refine ⟨_, _, hreach, hadds, ready_of_line ht (fun k hk => ?_) hnext⟩
  cases hk

end

end Scanner

end DocStamp.Yaml
