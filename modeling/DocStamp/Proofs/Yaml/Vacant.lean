/-
# Texts without content

A line without content holds spaces, and behind them perhaps a comment.
Such lines are passed over one by one (`skipToToken_vacantLine`), so a
text that is made of them has no tokens but its start and its end
(`scan_vacant`), and whoever reads it is given what is meant by no
document at all (`decode_vacant`).

A comment may hold every printable character, and tabs.  Other control
characters are refused, unless they end a line, and so end the comment;
the line separators U+2028 and U+2029 do the same.
-/
import DocStamp.Proofs.Yaml.Scanner
import DocStamp.Yaml.Decode

namespace DocStamp.Yaml

/-- May the character stand in a comment?  Every one may but the control characters other than the
tab, the two line separators, and U+FFFE and U+FFFF, which stand for no character. -/
def isCommentChar (c : Char) : Bool :=
  let n := c.toNat
  n == 0x09 || (0x20 ≤ n && n ≤ 0x7E) ||
    (0xA0 ≤ n && n != 0x2028 && n != 0x2029 && n != 0xFFFE && n != 0xFFFF)

/-- A line without content: spaces, and behind them perhaps a comment. -/
structure VacantLine where
  indent : Nat
  /-- What stands behind the `#`. -/
  comment : Option String
  fits : comment.all (fun t => t.toList.all isCommentChar) = true

def VacantLine.chars (line : VacantLine) : List Char :=
  spaces line.indent ++ line.comment.elim [] fun t => '#' :: t.toList

inductive LineEnd where
  | lineFeed
  /-- A carriage return and a line feed. -/
  | both
deriving DecidableEq, Repr

def LineEnd.chars : LineEnd → List Char
  | .lineFeed => ['\n']
  | .both => ['\r', '\n']

/-- Lines without content, the last of which has no end and may be empty. -/
def vacantText : List (VacantLine × LineEnd) → VacantLine → List Char
  | [], last => last.chars
  | (line, ending) :: lines, last => line.chars ++ (ending.chars ++ vacantText lines last)

/-! ## The characters of such a text -/

theorem isAllowed_of_isCommentChar {c : Char} (h : isCommentChar c = true) :
    isAllowed c = true := by
  simp only [isCommentChar, isAllowed, Bool.or_eq_true, Bool.and_eq_true, beq_iff_eq,
    decide_eq_true_eq, bne_iff_ne] at h ⊢
  omega

theorem isBreak_of_isCommentChar {c : Char} (h : isCommentChar c = true) : isBreak c = false := by
  rw [Bool.eq_false_iff]
  intro hbreak
  simp only [isCommentChar, Bool.or_eq_true, Bool.and_eq_true, beq_iff_eq, decide_eq_true_eq,
    bne_iff_ne] at h
  simp only [isBreak, Bool.or_eq_true, beq_iff_eq] at hbreak
  rcases hbreak with (((rfl | rfl) | hbreak) | hbreak) | hbreak
  · exact absurd h (by decide)
  · exact absurd h (by decide)
  · omega
  · omega
  · omega

theorem VacantLine.fits_comment {line : VacantLine} {t : String} (h : line.comment = some t) :
    ∀ c ∈ t.toList, isCommentChar c = true := by
  have hfits := line.fits
  rw [h] at hfits
  exact List.all_eq_true.1 hfits

theorem VacantLine.isAllowed_of_mem {line : VacantLine} {c : Char} (h : c ∈ line.chars) :
    isAllowed c = true := by
  rcases List.mem_append.1 h with h | h
  · rw [mem_spaces h]
    rfl
  · cases hcomment : line.comment with
    | none =>
        rw [hcomment] at h
        cases h
    | some t =>
        rw [hcomment] at h
        rcases List.mem_cons.1 h with rfl | h
        · rfl
        · exact isAllowed_of_isCommentChar (fits_comment hcomment c h)

theorem LineEnd.isAllowed_of_mem {ending : LineEnd} {c : Char} (h : c ∈ ending.chars) :
    isAllowed c = true := by
  cases ending with
  | lineFeed =>
      rw [List.mem_singleton.1 h]
      rfl
  | both =>
      rcases List.mem_cons.1 h with rfl | h
      · rfl
      · rw [List.mem_singleton.1 h]
        rfl

theorem isAllowed_of_mem_vacantText (lines : List (VacantLine × LineEnd)) (last : VacantLine) :
    ∀ c ∈ vacantText lines last, isAllowed c = true := by
  induction lines with
  | nil =>
      intro c hc
      exact VacantLine.isAllowed_of_mem hc
  | cons head lines ih =>
      intro c hc
      obtain ⟨line, ending⟩ := head
      rcases List.mem_append.1 hc with hc | hc
      · exact VacantLine.isAllowed_of_mem hc
      · rcases List.mem_append.1 hc with hc | hc
        · exact LineEnd.isAllowed_of_mem hc
        · exact ih c hc

theorem length_le_vacantText (lines : List (VacantLine × LineEnd)) (last : VacantLine) :
    lines.length ≤ (vacantText lines last).length := by
  induction lines with
  | nil => exact Nat.zero_le _
  | cons head lines ih =>
      obtain ⟨line, ending⟩ := head
      have hend : 0 < ending.chars.length := by cases ending <;> decide
      rw [vacantText, List.length_append, List.length_append, List.length_cons]
      omega

/-! ## Passing over lines -/

theorem LineEnd.stopsAt {test : Char → Bool} (hfeed : test '\n' = false) (hreturn : test '\r' = false)
    (ending : LineEnd) (rest : List Char) : StopsAt test (ending.chars ++ rest) := by
  cases ending with
  | lineFeed => exact stopsAt_cons hfeed rest
  | both => exact stopsAt_cons hreturn ('\n' :: rest)

theorem Cursor.skipBreak_ending (ending : LineEnd) (rest : List Char) (m : Mark) :
    ∃ m', skipBreak ⟨ending.chars ++ rest, m⟩ = ⟨rest, m'⟩ := by
  cases ending with
  | lineFeed => exact ⟨m.nextLine 1, rfl⟩
  | both => exact ⟨m.nextLine 2, rfl⟩

theorem Cursor.skipComment_comment {cs next : List Char} (hcs : ∀ c ∈ cs, isBreak c = false)
    (hnext : StopsAt (fun c => !isBreak c) next) (m : Mark) :
    skipComment ⟨'#' :: (cs ++ next), m⟩ = ⟨next, m.after ('#' :: cs)⟩ := by
  have hread : read (fun c => !isBreak c) ⟨('#' :: cs) ++ next, m⟩ =
      ('#' :: cs, ⟨next, m.after ('#' :: cs)⟩) := by
    refine read_append ?_ hnext
    intro c hc
    rcases List.mem_cons.1 hc with rfl | hc
    · exact ⟨rfl, rfl⟩
    · rw [hcs c hc]
      exact ⟨rfl, rfl⟩
  have hhash : charNext '#' ('#' :: (cs ++ next)) = true := rfl
  rw [skipComment, if_pos hhash]
  exact congrArg Prod.snd hread

namespace Scanner

variable {s : Scanner} {m : Mark} {next : List Char}

/-- Spaces and a comment behind them are passed over; a line break behind them leads to the next
line, where a key may begin. -/
theorem skipToToken_comment {cs : List Char} {j : Nat} (hcs : ∀ c ∈ cs, isBreak c = false)
    (hs : s.cursor = ⟨spaces j ++ '#' :: (cs ++ next), m⟩)
    (hnext : StopsAt (fun c => !isBreak c) next) (n : Nat) :
    skipToToken (n + 1) s =
      if !next.isEmpty && breakNext next then
        skipToToken n { s with cursor := Cursor.skipBreak ⟨next, m.after (spaces j ++ '#' :: cs)⟩,
                               keyAllowed := s.keyAllowed || !s.inFlow }
      else { s with cursor := ⟨next, m.after (spaces j ++ '#' :: cs)⟩ } := by
  have hmark : Cursor.skipByteOrderMark ⟨spaces j ++ '#' :: (cs ++ next), m⟩ =
      ⟨spaces j ++ '#' :: (cs ++ next), m⟩ :=
    Cursor.skipByteOrderMark_spaces (stopsAt_cons rfl _) m
  have hstops : StopsAt (fun c => c == ' ' || ((s.inFlow || !s.keyAllowed) && c == '\t'))
      ('#' :: (cs ++ next)) :=
    stopsAt_cons (Bool.and_false _) _
  have hpass : (Cursor.read (fun c => c == ' ' || ((s.inFlow || !s.keyAllowed) && c == '\t'))
      ⟨spaces j ++ '#' :: (cs ++ next), m⟩).2.skipComment =
        ⟨next, m.after (spaces j ++ '#' :: cs)⟩ := by
    rw [Cursor.read_spaces rfl j hstops m, Cursor.skipComment_comment hcs hnext, Mark.after_append]
  simp only [skipToToken, hs, hmark, hpass]

theorem skipToToken_vacantLine (line : VacantLine) (hs : s.cursor = ⟨line.chars ++ next, m⟩)
    (hpassed : StopsAt isPassed next) (hbreak : StopsAt (fun c => !isBreak c) next) (n : Nat) :
    skipToToken (n + 1) s =
      if !next.isEmpty && breakNext next then
        skipToToken n { s with cursor := Cursor.skipBreak ⟨next, m.after line.chars⟩,
                               keyAllowed := s.keyAllowed || !s.inFlow }
      else { s with cursor := ⟨next, m.after line.chars⟩ } := by
  cases hcomment : line.comment with
  | none =>
      have hchars : line.chars = spaces line.indent := by
        rw [VacantLine.chars, hcomment]
        exact List.append_nil _
      rw [hchars] at hs ⊢
      exact skipToToken_eq hs hpassed n
  | some t =>
      have hchars : line.chars = spaces line.indent ++ '#' :: t.toList := by
        rw [VacantLine.chars, hcomment]
        rfl
      rw [hchars, List.append_assoc] at hs
      rw [hchars]
      refine skipToToken_comment ?_ hs hbreak n
      intro c hc
      exact isBreak_of_isCommentChar (VacantLine.fits_comment hcomment c hc)

/-- Where a key may begin, a text without content is passed over to its end. -/
theorem skipToToken_vacantText {lines : List (VacantLine × LineEnd)} {last : VacantLine} {n : Nat}
    (hn : lines.length < n) (hs : s.cursor = ⟨vacantText lines last, m⟩)
    (hkey : s.keyAllowed = true) :
    ∃ m', skipToToken n s = { s with cursor := ⟨[], m'⟩ } := by
  induction lines generalizing n s m with
  | nil =>
      obtain ⟨n, rfl⟩ := Nat.exists_eq_add_one_of_ne_zero (Nat.ne_zero_of_lt hn)
      rw [vacantText, ← List.append_nil last.chars] at hs
      exact ⟨_, skipToToken_vacantLine last hs (stopsAt_nil _) (stopsAt_nil _) n⟩
  | cons head lines ih =>
      obtain ⟨line, ending⟩ := head
      obtain ⟨n, rfl⟩ := Nat.exists_eq_add_one_of_ne_zero (Nat.ne_zero_of_lt hn)
      rw [List.length_cons] at hn
      have hline := skipToToken_vacantLine line hs
        (ending.stopsAt rfl rfl (vacantText lines last))
        (ending.stopsAt rfl rfl (vacantText lines last)) n
      have hends : (!(ending.chars ++ vacantText lines last).isEmpty &&
          breakNext (ending.chars ++ vacantText lines last)) = true := by
        cases ending <;> rfl
      obtain ⟨m', hbreak⟩ := Cursor.skipBreak_ending ending (vacantText lines last)
        (m.after line.chars)
      -- A key may begin on the next line as on this one.
      have hsame : (s.keyAllowed || !s.inFlow) = s.keyAllowed := by
        rw [hkey]
        rfl
      rw [hends, if_pos rfl, hbreak, hsame] at hline
      obtain ⟨m'', hrest⟩ := ih (s := { s with cursor := ⟨vacantText lines last, m'⟩ })
        (Nat.lt_of_succ_lt_succ hn) rfl hkey
      exact ⟨m'', hline.trans hrest⟩

/-! ## From the characters to the document -/

theorem ready_vacantText (lines : List (VacantLine × LineEnd)) (last : VacantLine) :
    ∃ col, Ready (.start (vacantText lines last)) true (-1) []
      (start (vacantText lines last)).tokens col [] := by
  obtain ⟨m, hskip⟩ := skipToToken_vacantText (s := .start (vacantText lines last))
    (Nat.lt_succ_of_le (length_le_vacantText lines last)) rfl rfl
  refine ⟨m.column, rfl, Nat.zero_le _, _, m, ?_, rfl, rfl, rfl⟩
  exact (congrArg closeStale hskip).trans (closeStale_none _)

end Scanner

open Scanner in
theorem scan_vacant (lines : List (VacantLine × LineEnd)) (last : VacantLine) :
    ∃ m, Tokens.scan (String.ofList (vacantText lines last)) =
      ⟨[⟨.streamStart, ⟨0, 0, 0⟩, ⟨0, 0, 0⟩⟩, ⟨.streamEnd, m, m⟩], none⟩ := by
  obtain ⟨col, hready⟩ := ready_vacantText lines last
  obtain ⟨m, -, hstep⟩ := hready.step_eq (by omega)
  have hnone := controlOffset?_of_allowed (isAllowed_of_mem_vacantText lines last) 0
  refine ⟨if m.column = 0 then m else ⟨m.index, m.line + 1, 0⟩, ?_⟩
  simp only [Tokens.scan, String.toList_ofList, hnone]
  rw [Tokens.scanFrom, hready.notDone, if_neg Bool.false_ne_true, hstep]
  rfl

/-- Whoever reads a text without content is given what no document stands for. -/
theorem decode_vacant {α : Type} (a : α) (read : Reader α) (lines : List (VacantLine × LineEnd))
    (last : VacantLine) :
    decode (.ok a) read (String.ofList (vacantText lines last)) = .ok a := by
  obtain ⟨m, hscan⟩ := scan_vacant lines last
  have hparse : Events.parse (String.ofList (vacantText lines last)) =
      ⟨[⟨.streamStart, ⟨0, 0, 0⟩⟩, ⟨.streamEnd, m⟩], none⟩ := by
    rw [Events.parse, hscan]
    rfl
  simp only [decode, hparse]
  rfl

end DocStamp.Yaml
