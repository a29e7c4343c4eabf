/-
# Quoted scalars

A quoted text is read in runs and gaps.  A run is read character by
character, each from its own spelling; a gap of spaces stands for
itself, and in single quotes a gap of line breaks stands for the breaks
without the indentation behind them.
-/
import DocStamp.Proofs.Yaml.Cursor

namespace DocStamp.Yaml

def quoteMark (double : Bool) : Char := if double then '"' else '\x27'

namespace Cursor

variable {double : Bool} {from_ : Mark} {m : Mark} {n : Nat} {b : List Char}

/-! ## Runs -/

/-- A run may begin with this text, which stands for the character. -/
structure Spells (double : Bool) (w : List Char) (c : Char) : Prop where
  ne_nil : w ≠ []
  notWhite : StopsAt isWhite w
  read : ∀ from_ n b m, readQuotedRun double from_ (n + 1) ⟨w ++ b, m⟩ =
    (readQuotedRun double from_ n ⟨b, m.after w⟩).map fun r => (c :: r.1, r.2)

theorem bind_eq_map (x : Except Error (List Char × Bool × Cursor)) (c : Char) :
    (do let r ← x; return (c :: r.1, r.2.1, r.2.2)) = x.map fun r => (c :: r.1, r.2) := by
  cases x <;> rfl

/-- What ends a run: a gap, or the closing mark. -/
def EndsRun (double : Bool) : List Char → Prop
  | [] => False
  | c :: cs => isWhite c = true ∨ c = quoteMark double ∧ StopsAt (· == '\x27') cs

theorem readQuotedRun_end (h : EndsRun double b) (n : Nat) (m : Mark) :
    readQuotedRun double from_ n ⟨b, m⟩ = .ok ([], false, ⟨b, m⟩) := by
  cases n with
  | zero => rfl
  | succ n =>
      cases b with
      | nil => exact absurd h id
      | cons c cs =>
          by_cases hwhite : isWhite c = true
          · have hgap : (isGap c || isBreak c) = true := hwhite
            simp only [readQuotedRun, hgap, if_true]
          · obtain ⟨rfl, hstop⟩ := h.resolve_left hwhite
            cases double with
            | true => rfl
            | false =>
                have hnext : charNext '\x27' cs = false := by
                  cases cs with
                  | nil => rfl
                  | cons d ds => simpa [charNext] using hstop d rfl
                have hgap : (isGap '\x27' || isBreak '\x27') = false := rfl
                simp only [quoteMark, readQuotedRun, hgap, hnext, Bool.and_false,
                  Bool.false_eq_true, if_false, if_true]

theorem readQuotedRun_append {spell : Char → List Char} {run : List Char}
    (hrun : ∀ c ∈ run, Spells double (spell c) c) (hb : EndsRun double b) (hn : run.length ≤ n)
    (m : Mark) : readQuotedRun double from_ n ⟨run.flatMap spell ++ b, m⟩ =
      .ok (run, false, ⟨b, m.after (run.flatMap spell)⟩) := by
  induction run generalizing n m with
  | nil => exact readQuotedRun_end hb n m
  | cons c cs ih =>
      rw [List.length_cons] at hn
      obtain ⟨n, rfl⟩ := Nat.exists_eq_add_one_of_ne_zero (Nat.ne_zero_of_lt hn)
      rw [List.flatMap_cons, List.append_assoc, (hrun c List.mem_cons_self).read,
        ih (fun d hd => hrun d (List.mem_cons_of_mem c hd)) (Nat.le_of_succ_le_succ hn),
        Mark.after_append]
      rfl

theorem spells_self {c : Char} (hwhite : isWhite c = false) (hquote : c ≠ quoteMark double)
    (hslash : (double && decide (c = '\\')) = false) : Spells double [c] c := by
  refine ⟨List.cons_ne_nil c [], stopsAt_cons hwhite [], ?_⟩
  intro from_ n b m
  have hgap : (isGap c || isBreak c) = false := hwhite
  have hbreak : isBreak c = false := (Bool.or_eq_false_iff.1 hwhite).2
  have hpair : (!double && decide (c = '\x27')) = false := by
    cases double with
    | true => rfl
    | false => exact decide_eq_false hquote
  have hclose : (c = if double = true then '"' else '\x27') = False := eq_false hquote
  simp only [List.singleton_append, readQuotedRun, hgap, hpair, hclose, hslash, Bool.false_and,
    Bool.false_eq_true, if_false, pure_bind, skip_cons hbreak]
  exact bind_eq_map _ _

/-! ## Spellings in single quotes -/

/-- A character of a run in single quotes. -/
def singleChar (c : Char) : List Char := if c == '\x27' then ['\x27', '\x27'] else [c]

theorem spells_single {c : Char} (hc : isWhite c = false) : Spells false (singleChar c) c := by
  by_cases hquote : c = '\x27'
  · subst hquote
    refine ⟨List.cons_ne_nil _ _, stopsAt_cons rfl _, ?_⟩
    intro from_ n b m
    have hgap : (isGap '\x27' || isBreak '\x27') = false := rfl
    simp only [singleChar, beq_self_eq_true, if_true, readQuotedRun, List.cons_append, hgap,
      List.nil_append]
    exact bind_eq_map _ _
  · rw [singleChar, if_neg (by simpa using hquote)]
    exact spells_self hc hquote rfl

/-! ## Spellings in double quotes -/

theorem hexValue?_hexDigit : ∀ d < 16, hexValue? (hexDigit d) = some d := by decide

theorem length_hexDigits (n width : Nat) : (hexDigits n width).length = width := by
  induction width generalizing n with
  | zero => rfl
  | succ width ih => rw [hexDigits, List.length_append, ih, List.length_singleton]

/-- The number has no more than so many hexadecimal digits. -/
def HasDigits (n : Nat) : Nat → Prop
  | 0 => n = 0
  | width + 1 => HasDigits (n / 16) width

theorem mapM_hexDigits {n width : Nat} (h : HasDigits n width) :
    ∃ ds, (hexDigits n width).mapM hexValue? = some ds ∧
      ds.foldl (fun v d => 16 * v + d) 0 = n := by
  induction width generalizing n with
  | zero => exact ⟨[], rfl, h.symm⟩
  | succ width ih =>
      obtain ⟨ds, hds, hvalue⟩ := ih h
      refine ⟨ds ++ [n % 16], ?_, ?_⟩
      · rw [hexDigits, List.mapM_append, hds]
        simp [hexValue?_hexDigit _ (Nat.mod_lt n (by decide))]
      · rw [List.foldl_append, hvalue, List.foldl_cons, List.foldl_nil]
        exact Nat.div_add_mod n 16

theorem hexNumber?_hexDigits {n width : Nat} (h : HasDigits n width) (b : List Char) :
    hexNumber? width (hexDigits n width ++ b) = some n := by
  obtain ⟨ds, hds, hvalue⟩ := mapM_hexDigits h
  have htake : (hexDigits n width ++ b).take width = hexDigits n width := by
    have hleft : (hexDigits n width ++ b).take (hexDigits n width).length = hexDigits n width :=
      List.take_left
    rwa [length_hexDigits] at hleft
  have hlong : ¬ (hexDigits n width ++ b).length < width := by
    rw [List.length_append, length_hexDigits]
    omega
  rw [hexNumber?, if_neg hlong, htake, hds, Option.map_some, hvalue]

theorem isBreak_hexDigit : ∀ d < 16, isBreak (hexDigit d) = false := by decide

theorem mem_hexDigits {n width : Nat} {c : Char} (h : c ∈ hexDigits n width) :
    ∃ d < 16, c = hexDigit d := by
  induction width generalizing n with
  | zero => cases h
  | succ width ih =>
      rcases List.mem_append.1 h with hc | hc
      · exact ih hc
      · exact ⟨n % 16, Nat.mod_lt n (by decide), List.mem_singleton.1 hc⟩

theorem isBreak_of_mem_hexDigits {n width : Nat} : ∀ c ∈ hexDigits n width, isBreak c = false := by
  intro c hc
  obtain ⟨d, hd, rfl⟩ := mem_hexDigits hc
  exact isBreak_hexDigit d hd

/-- The text behind a backslash is read as the character. -/
structure IsEscape (w : List Char) (c : Char) : Prop where
  ne_nil : w ≠ []
  noBreak : ∀ d ∈ w, isBreak d = false
  read : ∀ from_ b m, readEscape from_ ⟨'\\' :: (w ++ b), m⟩ =
    .ok (c, ⟨b, m.after ('\\' :: w)⟩)

theorem isEscape_letter {l c : Char} (h : escapedChar? l = some c) (hl : isBreak l = false) :
    IsEscape [l] c where
  ne_nil := List.cons_ne_nil l []
  noBreak := List.forall_mem_singleton.2 hl
  read := by
    intro from_ b m
    have hskip := skipN_append (a := ['\\', l])
      (List.forall_mem_cons.2 ⟨rfl, List.forall_mem_singleton.2 hl⟩) b m
    simp only [readEscape, List.singleton_append, h]
    exact congrArg (fun k => Except.ok (c, k)) hskip

theorem isEscape_number {x : Char} {width : Nat} (hx : escapedChar? x = none)
    (hwidth : escapeWidth? x = some width) (hbreak : isBreak x = false) {c : Char}
    (hc : HasDigits c.toNat width) : IsEscape (x :: hexDigits c.toNat width) c := by
  have hnoBreak : ∀ d ∈ x :: hexDigits c.toNat width, isBreak d = false :=
    List.forall_mem_cons.2 ⟨hbreak, isBreak_of_mem_hexDigits⟩
  refine ⟨List.cons_ne_nil x _, hnoBreak, ?_⟩
  intro from_ b m
  have hskip := skipN_append (a := '\\' :: x :: hexDigits c.toNat width)
    (List.forall_mem_cons.2 ⟨rfl, hnoBreak⟩) b m
  rw [List.length_cons, List.length_cons, length_hexDigits, Nat.add_assoc, Nat.add_comm width]
    at hskip
  have hvalid : c.toNat.isValidChar := c.valid
  simp only [readEscape, List.cons_append, hx, hwidth, hexNumber?_hexDigits hc, hvalid, if_true,
    Char.ofNat_toNat]
  exact congrArg (fun k => Except.ok (c, k)) hskip

theorem escapedChar?_escapeLetter? {l c : Char} (h : escapeLetter? c = some l) :
    escapedChar? l = some c ∧ isBreak l = false := by
  have hval : ∀ n, c.toNat = n → c = Char.ofNat n := by
    intro n hn
    rw [← hn, Char.ofNat_toNat]
  unfold escapeLetter? at h
  split at h <;> cases h <;> rename_i hn <;> rw [hval _ hn] <;> exact ⟨rfl, rfl⟩

theorem isEscape_spellNumber (c : Char) : IsEscape (spellNumber c.toNat) c := by
  have hlt : c.toNat < 4294967296 := c.val.toNat_lt
  unfold spellNumber
  split
  · refine isEscape_number rfl rfl rfl ?_
    simp only [HasDigits]
    omega
  · split
    · refine isEscape_number rfl rfl rfl ?_
      simp only [HasDigits]
      omega
    · refine isEscape_number rfl rfl rfl ?_
      simp only [HasDigits]
      omega

theorem IsEscape.spells {w : List Char} {c : Char} (h : IsEscape w c) :
    Spells true ('\\' :: w) c := by
  refine ⟨List.cons_ne_nil _ _, stopsAt_cons rfl _, ?_⟩
  intro from_ n b m
  obtain ⟨d, ds, rfl⟩ := List.exists_cons_of_ne_nil h.ne_nil
  have hbreak : breakNext (d :: (ds ++ b)) = false := h.noBreak d List.mem_cons_self
  have hread := h.read from_ b m
  have hwhite : (isGap '\\' || isBreak '\\') = false := rfl
  have hquote : ('\\' = '"') = False := by decide
  rw [List.cons_append] at hread
  simp only [List.cons_append, readQuotedRun, hwhite, hquote, hbreak, hread, Bool.not_true,
    Bool.false_and, Bool.and_false, Bool.false_eq_true, if_false, if_true, decide_true,
    Bool.and_self]
  exact bind_eq_map _ _

/-- Every character but the space is read back from its spelling in double quotes. -/
theorem spells_double {c : Char} (hc : isSpace c = false) : Spells true (doubleChar c) c := by
  unfold doubleChar
  split
  · split
    · next l hl =>
        obtain ⟨hread, hbreak⟩ := escapedChar?_escapeLetter? hl
        exact (isEscape_letter hread hbreak).spells
    · exact (isEscape_spellNumber c).spells
  · next h =>
      simp only [Bool.or_eq_true, Bool.not_eq_true', beq_iff_eq, not_or, Bool.not_eq_true,
        Bool.not_eq_false] at h
      obtain ⟨⟨⟨hprint, hbreak⟩, hquote⟩, hslash⟩ := h
      have hgap : isGap c = false := by
        refine Bool.eq_false_iff.2 fun hgap => ?_
        rw [eq_space_of_isGap hgap hprint] at hc
        cases hc
      exact spells_self (Bool.or_eq_false_iff.2 ⟨hgap, hbreak⟩) hquote (decide_eq_false hslash)

/-! ## Whole scalars -/

theorem atDocumentMark_of_first {c : Char} (hdash : c ≠ '-') (hdot : c ≠ '.') (cs : List Char)
    (m : Mark) : atDocumentMark ⟨c :: cs, m⟩ = false := by
  simp only [atDocumentMark, List.isPrefixOf, beq_false_of_ne hdash.symm, beq_false_of_ne hdot.symm,
    Bool.false_and, Bool.or_self, Bool.and_false]

theorem atDocumentMark_of_column {k : Cursor} (h : k.mark.column ≠ 0) :
    k.atDocumentMark = false := by
  rw [atDocumentMark, beq_false_of_ne h, Bool.false_and, Bool.false_and]

section

variable {spell : Char → List Char} {run : List Char}

theorem length_le_flatMap (hrun : ∀ c ∈ run, spell c ≠ []) :
    run.length ≤ (run.flatMap spell).length := by
  induction run with
  | nil => exact Nat.zero_le _
  | cons c cs ih =>
      have hc := List.length_pos_iff.2 (hrun c List.mem_cons_self)
      have hcs := ih fun d hd => hrun d (List.mem_cons_of_mem c hd)
      rw [List.flatMap_cons, List.length_append, List.length_cons]
      omega

theorem readQuotedRun_whole (hrun : ∀ c ∈ run, Spells double (spell c) c) (hb : EndsRun double b)
    (from_ m : Mark) :
    readQuotedRun double from_ (run.flatMap spell ++ b).length ⟨run.flatMap spell ++ b, m⟩ =
      .ok (run, false, ⟨b, m.after (run.flatMap spell)⟩) := by
  refine readQuotedRun_append hrun hb ?_ m
  rw [List.length_append]
  exact Nat.le_add_right_of_le (length_le_flatMap fun c hc => (hrun c hc).ne_nil)

theorem readQuotedRest_last (hrun : ∀ c ∈ run, Spells double (spell c) c)
    (hb : StopsAt (· == '\x27') b) (hm : m.column ≠ 0) (n : Nat) :
    readQuotedRest double from_ (n + 1) ⟨run.flatMap spell ++ quoteMark double :: b, m⟩ =
      .ok (run, ⟨b, m.after (run.flatMap spell ++ [quoteMark double])⟩) := by
  have hends : EndsRun double (quoteMark double :: b) := .inr ⟨rfl, hb⟩
  have hread := readQuotedRun_whole hrun hends from_ m
  have hmark := atDocumentMark_of_column
    (k := ⟨run.flatMap spell ++ quoteMark double :: b, m⟩) hm
  have hsome : (run.flatMap spell ++ quoteMark double :: b).isEmpty = false := by simp
  have hclose : charNext (if double = true then '"' else '\x27') (quoteMark double :: b) =
      true := by
    cases double <;> rfl
  have hbreak : isBreak (quoteMark double) = false := by cases double <;> rfl
  simp only [readQuotedRest, hmark, hsome, hread, hclose, Bool.false_eq_true, if_false, if_true,
    ok_bind, skip_cons hbreak, Mark.after_append]
  rfl

theorem readQuotedRest_gap (hrun : ∀ c ∈ run, Spells double (spell c) c) {g : Gap} {w t : List Char}
    {k : Cursor} (hne : w ≠ []) (hwhite : StopsAt (fun c => !isWhite c) w)
    (hgap : ∀ n m, w.length ≤ n →
      readGap .quotedScalar from_ 0 n (.empty false) ⟨w ++ b, m⟩ = .ok (g, ⟨b, m.after w⟩))
    (hm : m.column ≠ 0)
    (hrest : readQuotedRest double from_ n ⟨b, m.after (run.flatMap spell ++ w)⟩ = .ok (t, k)) :
    readQuotedRest double from_ (n + 1) ⟨run.flatMap spell ++ (w ++ b), m⟩ =
      .ok (run ++ (g.text ++ t), k) := by
  obtain ⟨c, cs, rfl⟩ := List.exists_cons_of_ne_nil hne
  have hc : isWhite c = true := by simpa using hwhite c rfl
  have hends : EndsRun double (c :: (cs ++ b)) := .inl hc
  have hread := readQuotedRun_whole hrun hends from_ m
  have hmark := atDocumentMark_of_column (k := ⟨run.flatMap spell ++ c :: (cs ++ b), m⟩) hm
  have hsome : (run.flatMap spell ++ c :: (cs ++ b)).isEmpty = false := by simp
  have hclose : charNext (if double = true then '"' else '\x27') (c :: (cs ++ b)) = false := by
    have hother : c ≠ if double = true then '"' else '\x27' := by
      rintro rfl
      cases double <;> cases hc
    exact beq_false_of_ne fun h => hother (Option.some.inj h)
  have hpass := hgap (c :: (cs ++ b)).length (m.after (run.flatMap spell)) (by
    rw [List.length_cons, List.length_cons, List.length_append]
    omega)
  rw [Mark.after_append] at hrest
  rw [List.cons_append] at hpass
  simp only [List.cons_append, readQuotedRest, hmark, hsome, hread, hclose, hpass, hrest,
    Bool.false_eq_true, if_false, ok_bind, List.append_assoc]
  rfl

end

theorem eq_spaces {cs : List Char} (h : ∀ c ∈ cs, isSpace c = true) : cs = spaces cs.length :=
  List.eq_replicate_iff.2 ⟨rfl, fun c hc => beq_iff_eq.1 (h c hc)⟩

theorem stopsAt_flatMap {spell : Char → List Char} {cs : List Char} {test : Char → Bool}
    (hcs : StopsAt test cs) (hspell : ∀ c, test c = false → Spells double (spell c) c)
    (b : List Char) : StopsAt isWhite (cs.flatMap spell ++ quoteMark double :: b) := by
  have hquote : isWhite (quoteMark double) = false := by cases double <;> rfl
  cases cs with
  | nil => exact stopsAt_cons hquote b
  | cons c cs =>
      have hc := hspell c (hcs c rfl)
      rw [List.flatMap_cons, List.append_assoc]
      exact hc.notWhite.append hc.ne_nil _

theorem flatMap_doubleChar_spaces (n : Nat) : (spaces n).flatMap doubleChar = spaces n := by
  induction n with
  | zero => rfl
  | succ n ih =>
      rw [spaces_succ, List.flatMap_cons, ih]
      rfl

theorem readQuotedRest_double (cs : List Char) (hb : StopsAt (· == '\x27') b) :
    ∀ n m, cs.length < n → m.column ≠ 0 →
      readQuotedRest true from_ n ⟨cs.flatMap doubleChar ++ quoteMark true :: b, m⟩ =
        .ok (cs, ⟨b, m.after (cs.flatMap doubleChar ++ [quoteMark true])⟩) := by
  induction cs using runs_induction isSpace with
  | last run hrun =>
      intro n m hn hm
      obtain ⟨n, rfl⟩ := Nat.exists_eq_add_one_of_ne_zero (Nat.ne_zero_of_lt hn)
      exact readQuotedRest_last (fun c hc => spells_double (hrun c hc)) hb hm n
  | gap run gap rest hrun hne hgap hrest ih =>
      intro n m hn hm
      obtain ⟨n, rfl⟩ := Nat.exists_eq_add_one_of_ne_zero (Nat.ne_zero_of_lt hn)
      obtain ⟨k, hk⟩ := Nat.exists_eq_add_one_of_ne_zero (mt List.length_eq_zero_iff.1 hne)
      have hspaces : gap = spaces (k + 1) := hk ▸ eq_spaces hgap
      subst hspaces
      have hwhite := stopsAt_flatMap hrest (fun c => spells_double) b
      have hbehind : (m.after (run.flatMap doubleChar ++ spaces (k + 1))).column ≠ 0 := by
        rw [Mark.after_append, column_after_spaces]
        exact Nat.succ_ne_zero _
      have hlen : rest.length < n := by
        rw [List.length_append, List.length_append, length_spaces] at hn
        omega
      have hread := readQuotedRest_gap (fun c hc => spells_double (hrun c hc))
        (List.cons_ne_nil ' ' (spaces k)) (stopsAt_cons rfl (spaces k))
        (fun n m hn => readGap_spaces [] (length_spaces (k + 1) ▸ hn) hwhite m) hm
        (ih n _ hlen hbehind)
      rw [← Mark.after_append] at hread
      rw [List.flatMap_append, List.flatMap_append, flatMap_doubleChar_spaces, List.append_assoc,
        List.append_assoc, List.append_assoc, List.append_assoc]
      rw [List.append_assoc] at hread
      exact hread

/-! ## Gaps in single quotes -/

section

variable (indent : Nat) {fresh : Bool}

theorem singleChars_run {run : List Char} (hrun : ∀ c ∈ run, isWhite c = false) (cs : List Char) :
    singleChars indent false (run ++ cs) =
      run.flatMap singleChar ++ singleChars indent false cs := by
  induction run with
  | nil => rfl
  | cons c run ih =>
      obtain ⟨hgap, hbreak⟩ := Bool.or_eq_false_iff.1 (hrun c List.mem_cons_self)
      have hspace : isSpace c = false := (Bool.or_eq_false_iff.1 hgap).1
      rw [List.cons_append, singleChars, hspace, hbreak,
        ih fun d hd => hrun d (List.mem_cons_of_mem c hd), List.flatMap_cons,
        List.append_assoc (singleChar c)]
      rfl

theorem singleChars_spaces (n : Nat) (cs : List Char) :
    singleChars indent fresh (spaces n ++ cs) = spaces n ++ singleChars indent fresh cs := by
  induction n with
  | zero => rfl
  | succ n ih =>
      rw [spaces_succ, List.cons_append, List.cons_append, ← ih]
      rfl

theorem isSpace_of_isBreak {c : Char} (h : isBreak c = true) : isSpace c = false := by
  refine beq_false_of_ne ?_
  rintro rfl
  cases h

theorem singleChars_breaks {bs : List Char} (hne : bs ≠ []) (hbs : ∀ c ∈ bs, isBreak c = true)
    (cs : List Char) : singleChars indent fresh (bs ++ cs) = bs ++ singleChars indent true cs := by
  induction bs generalizing fresh with
  | nil => exact absurd rfl hne
  | cons c bs ih =>
      have hc := hbs c List.mem_cons_self
      rw [List.cons_append, singleChars, isSpace_of_isBreak hc, hc]
      cases bs with
      | nil => rfl
      | cons d bs =>
          have hmore : singleChars indent true (d :: bs ++ cs) = _ := ih (List.cons_ne_nil d bs)
            fun e he => hbs e (List.mem_cons_of_mem c he)
          exact congrArg (c :: ·) hmore

theorem singleChars_fresh {cs : List Char} (hcs : StopsAt isWhite cs) :
    singleChars indent true cs = spaces indent ++ singleChars indent false cs := by
  cases cs with
  | nil => exact (List.append_nil _).symm
  | cons c cs =>
      obtain ⟨hgap, hbreak⟩ := Bool.or_eq_false_iff.1 (hcs c rfl)
      have hspace : isSpace c = false := (Bool.or_eq_false_iff.1 hgap).1
      rw [singleChars, singleChars, hspace, hbreak]
      simp

end

theorem hasPair_cons {p q : Char → Bool} {c d : Char} {cs : List Char}
    (h : hasPair p q (c :: d :: cs) = false) :
    (p c && q d) = false ∧ hasPair p q (d :: cs) = false := by
  rwa [hasPair, Bool.or_eq_false_iff] at h

theorem hasPair_append {p q : Char → Bool} {a b : List Char} (h : hasPair p q (a ++ b) = false) :
    hasPair p q a = false ∧ hasPair p q b = false := by
  induction a with
  | nil => exact ⟨rfl, h⟩
  | cons c a ih =>
      cases a with
      | nil =>
          cases b with
          | nil => exact ⟨rfl, rfl⟩
          | cons d b => exact ⟨rfl, (hasPair_cons h).2⟩
      | cons d a =>
          obtain ⟨hpair, hmore⟩ : (p c && q d) = false ∧ hasPair p q (d :: a ++ b) = false :=
            hasPair_cons h
          obtain ⟨hleft, hright⟩ := ih hmore
          refine ⟨?_, hright⟩
          rw [hasPair, hpair, hleft]
          rfl

/-- A gap without neighbours of both kinds is made of one of them. -/
theorem gap_cases {gap : List Char} (hwhite : ∀ c ∈ gap, isWhite c = true)
    (hprint : ∀ c ∈ gap, isPrintable c = true) (hleft : hasPair isSpace isBreak gap = false)
    (hright : hasPair isBreak isSpace gap = false) :
    (∀ c ∈ gap, isSpace c = true) ∨ ∀ c ∈ gap, isBreak c = true := by
  induction gap with
  | nil => exact .inl (List.forall_mem_nil _)
  | cons c gap ih =>
      have hc : isSpace c = true ∨ isBreak c = true := by
        rcases Bool.or_eq_true_iff.1 (hwhite c List.mem_cons_self) with hgap | hbreak
        · rw [eq_space_of_isGap hgap (hprint c List.mem_cons_self)]
          exact .inl rfl
        · exact .inr hbreak
      cases gap with
      | nil => exact hc.imp List.forall_mem_singleton.2 List.forall_mem_singleton.2
      | cons d gap =>
          obtain ⟨hsb, hleft⟩ := hasPair_cons hleft
          obtain ⟨hbs, hright⟩ := hasPair_cons hright
          have hmore := ih (fun e he => hwhite e (List.mem_cons_of_mem c he))
            (fun e he => hprint e (List.mem_cons_of_mem c he)) hleft hright
          rcases hmore with hspaces | hbreaks
          · refine .inl (List.forall_mem_cons.2 ⟨hc.resolve_right fun hbreak => ?_, hspaces⟩)
            rw [hbreak, hspaces d List.mem_cons_self] at hbs
            cases hbs
          · refine .inr (List.forall_mem_cons.2 ⟨hc.resolve_left fun hspace => ?_, hbreaks⟩)
            rw [hspace, hbreaks d List.mem_cons_self] at hsb
            cases hsb

theorem stopsAt_singleChars (indent : Nat) {cs : List Char} (hcs : StopsAt isWhite cs)
    (b : List Char) : StopsAt isWhite (singleChars indent false cs ++ quoteMark false :: b) := by
  cases cs with
  | nil => exact stopsAt_cons rfl b
  | cons c cs =>
      have hc := spells_single (hcs c rfl)
      have hshape := singleChars_run indent (List.forall_mem_singleton.2 (hcs c rfl)) cs
      rw [List.flatMap_singleton, List.singleton_append] at hshape
      rw [hshape, List.append_assoc]
      exact hc.notWhite.append hc.ne_nil _

/-- How a gap in single quotes is written, and what is read. -/
theorem exists_singleGap {indent : Nat} (hindent : indent ≠ 0) {gap rest : List Char}
    (hne : gap ≠ []) (hwhite : ∀ c ∈ gap, isWhite c = true)
    (hprint : ∀ c ∈ gap, isPrintable c = true) (hleft : hasPair isSpace isBreak gap = false)
    (hright : hasPair isBreak isSpace gap = false) (hline : '\n' ∉ gap)
    (hrest : StopsAt isWhite rest) :
    ∃ w g, singleChars indent false (gap ++ rest) = w ++ singleChars indent false rest ∧
      w ≠ [] ∧ StopsAt (fun c => !isWhite c) w ∧ g.text = gap ∧
      (∀ m : Mark, (m.after w).column ≠ 0) ∧
      ∀ b n m, StopsAt isWhite b → w.length ≤ n →
        readGap .quotedScalar from_ 0 n (.empty false) ⟨w ++ b, m⟩ = .ok (g, ⟨b, m.after w⟩) := by
  obtain ⟨c, cs, rfl⟩ := List.exists_cons_of_ne_nil hne
  rcases gap_cases hwhite hprint hleft hright with hspaces | hbreaks
  · have hgap : c :: cs = spaces (cs.length + 1) := eq_spaces hspaces
    refine ⟨spaces (cs.length + 1), ⟨spaces (cs.length + 1), false, [], []⟩, ?_, ?_, ?_, ?_, ?_, ?_⟩
    · rw [hgap, singleChars_spaces]
    · exact List.cons_ne_nil _ _
    · exact stopsAt_cons rfl _
    · exact hgap.symm
    · intro m
      rw [column_after_spaces]
      exact Nat.succ_ne_zero _
    · intro b n m hb hn
      exact readGap_spaces [] (length_spaces (cs.length + 1) ▸ hn) hb m
  · have hboth : ∀ d ∈ c :: cs, isBreak d = true ∧ isPrintable d = true :=
      fun d hd => ⟨hbreaks d hd, hprint d hd⟩
    -- The indentation behind the breaks is read with them and dropped.
    refine ⟨c :: cs ++ spaces indent, ⟨[], true, [c], cs⟩, ?_, ?_, ?_, ?_, ?_, ?_⟩
    · rw [singleChars_breaks indent hne hbreaks, singleChars_fresh indent hrest, List.append_assoc]
    · exact List.cons_ne_nil _ _
    · refine stopsAt_cons ?_ _
      rw [hwhite c List.mem_cons_self]
      rfl
    · -- Only a line feed would be folded into a space.
      have hc : charNext '\n' [c] = false :=
        beq_false_of_ne fun h => hline (Option.some.inj h ▸ List.mem_cons_self)
      rw [Gap.text, if_pos rfl, hc, if_neg Bool.false_ne_true]
      rfl
    · intro m
      rw [Mark.after_append, column_after_spaces]
      omega
    · intro b n m hb hn
      rw [List.length_append, length_spaces, List.length_cons] at hn
      rw [List.append_assoc]
      exact readGap_breaks (hboth c List.mem_cons_self)
        (fun d hd => hboth d (List.mem_cons_of_mem c hd)) (by omega) hb m

/-- A text in single quotes is read back, if it has no gaps of both kinds and no line feed. -/
theorem readQuotedRest_single {indent : Nat} (hindent : indent ≠ 0) (cs : List Char)
    (hb : StopsAt (· == '\x27') b) (hprint : ∀ c ∈ cs, isPrintable c = true)
    (hleft : hasPair isSpace isBreak cs = false) (hright : hasPair isBreak isSpace cs = false)
    (hline : '\n' ∉ cs) :
    ∀ n m, cs.length < n → m.column ≠ 0 →
      readQuotedRest false from_ n ⟨singleChars indent false cs ++ quoteMark false :: b, m⟩ =
        .ok (cs, ⟨b, m.after (singleChars indent false cs ++ [quoteMark false])⟩) := by
  induction cs using runs_induction isWhite with
  | last run hrun =>
      intro n m hn hm
      obtain ⟨n, rfl⟩ := Nat.exists_eq_add_one_of_ne_zero (Nat.ne_zero_of_lt hn)
      have hshape := singleChars_run indent hrun []
      rw [List.append_nil, singleChars, if_neg Bool.false_ne_true, List.append_nil] at hshape
      rw [hshape]
      exact readQuotedRest_last (fun c hc => spells_single (hrun c hc)) hb hm n
  | gap run gap rest hrun hne hgap hrest ih =>
      intro n m hn hm
      obtain ⟨n, rfl⟩ := Nat.exists_eq_add_one_of_ne_zero (Nat.ne_zero_of_lt hn)
      have hmem : ∀ c ∈ gap ++ rest, c ∈ run ++ (gap ++ rest) := fun c => List.mem_append_right run
      obtain ⟨hleftGap, hleftRest⟩ := hasPair_append (hasPair_append hleft).2
      obtain ⟨hrightGap, hrightRest⟩ := hasPair_append (hasPair_append hright).2
      obtain ⟨w, g, hshape, hw, hwhite, htext, hcolumn, hread⟩ := exists_singleGap hindent hne hgap
        (fun c hc => hprint c (hmem c (List.mem_append_left rest hc))) hleftGap hrightGap
        (fun h => hline (hmem _ (List.mem_append_left rest h))) hrest
      have hlen : rest.length < n := by
        have := List.length_pos_iff.2 hne
        rw [List.length_append, List.length_append] at hn
        omega
      have hbehind : (m.after (run.flatMap singleChar ++ w)).column ≠ 0 := by
        rw [Mark.after_append]
        exact hcolumn _
      have hmore := ih (fun c hc => hprint c (hmem c (List.mem_append_right gap hc))) hleftRest
        hrightRest (fun h => hline (hmem _ (List.mem_append_right gap h))) n _ hlen hbehind
      have hall := readQuotedRest_gap (fun c hc => spells_single (hrun c hc)) hw hwhite
        (fun n m hn => hread _ n m (stopsAt_singleChars indent hrest b) hn) hm hmore
      rw [htext, ← Mark.after_append] at hall
      rw [singleChars_run indent hrun, hshape, List.append_assoc, List.append_assoc,
        List.append_assoc, List.append_assoc]
      rw [List.append_assoc] at hall
      exact hall

/-! ## Scalars with their marks -/

theorem doubleChar_ne_nil (c : Char) : doubleChar c ≠ [] := by
  unfold doubleChar
  split
  · exact List.cons_ne_nil _ _
  · exact List.cons_ne_nil _ _

theorem length_le_singleChars (indent : Nat) (fresh : Bool) (cs : List Char) :
    cs.length ≤ (singleChars indent fresh cs).length := by
  induction cs generalizing fresh with
  | nil => exact Nat.zero_le _
  | cons c cs ih =>
      unfold singleChars
      split
      · exact Nat.succ_le_succ (ih fresh)
      · split
        · exact Nat.succ_le_succ (ih true)
        · have hone : 1 ≤ (if c == '\x27' then ['\x27', '\x27'] else [c]).length := by
            split <;> simp
          have := ih false
          rw [List.length_append, List.length_append, List.length_cons]
          omega

theorem readQuoted_of_rest {style : Style} {w cs : List Char}
    (hstyle : style = if double then Style.doubleQuoted else .singleQuoted)
    (hlen : cs.length ≤ w.length)
    (hread : ∀ n m', cs.length < n → m'.column ≠ 0 →
      readQuotedRest double m n ⟨w ++ quoteMark double :: b, m'⟩ =
        .ok (cs, ⟨b, m'.after (w ++ [quoteMark double])⟩)) :
    readQuoted double ⟨quoteMark double :: (w ++ quoteMark double :: b), m⟩ =
      .ok (⟨.scalar (String.ofList cs) style, m,
          m.after (quoteMark double :: (w ++ [quoteMark double]))⟩,
        ⟨b, m.after (quoteMark double :: (w ++ [quoteMark double]))⟩) := by
  have hbreak : isBreak (quoteMark double) = false := by cases double <;> rfl
  have hcolumn : (m.step (quoteMark double)).column ≠ 0 := by
    rw [Mark.step_of_not_break hbreak]
    exact Nat.succ_ne_zero _
  have hrest := hread ((quoteMark double :: (w ++ quoteMark double :: b)).length + 1) _ (by
    rw [List.length_cons, List.length_append]
    omega) hcolumn
  simp only [readQuoted, skip_cons hbreak, hrest, ok_bind]
  rw [hstyle]
  rfl

theorem readQuoted_double (cs : List Char) (hb : StopsAt (· == '\x27') b) (m : Mark) :
    readQuoted true ⟨writeDouble cs ++ b, m⟩ =
      .ok (⟨.scalar (String.ofList cs) .doubleQuoted, m, m.after (writeDouble cs)⟩,
        ⟨b, m.after (writeDouble cs)⟩) := by
  have hshape : writeDouble cs ++ b = '"' :: (cs.flatMap doubleChar ++ '"' :: b) := by
    rw [writeDouble, List.cons_append, List.cons_append, List.append_assoc]
    rfl
  rw [hshape]
  exact readQuoted_of_rest rfl (length_le_flatMap fun c _ => doubleChar_ne_nil c)
    (readQuotedRest_double cs hb)

theorem readQuoted_single {indent : Nat} (hindent : indent ≠ 0) {cs : List Char}
    (hb : StopsAt (· == '\x27') b) (hcan : canBeSingle cs = true) (hline : '\n' ∉ cs) (m : Mark) :
    readQuoted false ⟨writeSingle indent cs ++ b, m⟩ =
      .ok (⟨.scalar (String.ofList cs) .singleQuoted, m, m.after (writeSingle indent cs)⟩,
        ⟨b, m.after (writeSingle indent cs)⟩) := by
  have hshape : writeSingle indent cs ++ b =
      '\x27' :: (singleChars indent false cs ++ '\x27' :: b) := by
    rw [writeSingle, List.cons_append, List.cons_append, List.append_assoc]
    rfl
  simp only [canBeSingle, Bool.and_eq_true, Bool.not_eq_true', List.all_eq_true] at hcan
  obtain ⟨⟨hprint, hleft⟩, hright⟩ := hcan
  rw [hshape]
  exact readQuoted_of_rest rfl (length_le_singleChars indent false cs)
    (readQuotedRest_single hindent cs hb hprint hleft hright hline)

end Cursor

end DocStamp.Yaml
