/-
# Plain scalars

A plain text is read in runs with gaps of spaces between them, up to
the end of its line.  The line break and the indentation of the next
line are read with it, since the text could go on there; it does not,
because that line does not lie deeper than the block around the text.
A key is a plain text of one run, in front of a colon.
-/
import DocStamp.Proofs.Yaml.Quoted

namespace DocStamp.Yaml

/-- What can be a key without quotes: a word that begins with a letter and is short enough to be
found as a key. -/
structure IsKey (cs : List Char) : Prop where
  begins : cs.head?.any Char.isAlpha = true
  word : ∀ c ∈ cs, isWordChar c = true
  short : byteSize cs ≤ 1024

instance (cs : List Char) : Decidable (IsKey cs) :=
  decidable_of_iff (cs.head?.any Char.isAlpha = true ∧ cs.all isWordChar = true ∧
    byteSize cs ≤ 1024)
    ⟨fun h => ⟨h.1, List.all_eq_true.1 h.2.1, h.2.2⟩,
      fun h => ⟨h.begins, List.all_eq_true.2 h.word, h.short⟩⟩

theorem IsKey.exists_cons {cs : List Char} (h : IsKey cs) :
    ∃ d ds, cs = d :: ds ∧ d.isAlpha = true := by
  cases cs with
  | nil => cases h.begins
  | cons d ds => exact ⟨d, ds, rfl, h.begins⟩

theorem ne_of_isAlpha {c d : Char} (hc : c.isAlpha = true) (hd : d.isAlpha = false) : c ≠ d := by
  rintro rfl
  rw [hc] at hd
  cases hd

theorem isWhite_of_isWordChar {c : Char} (h : isWordChar c = true) : isWhite c = false := by
  have hval : ∀ n, c.toNat = n → c = Char.ofNat n := by
    intro n hn
    rw [← hn, Char.ofNat_toNat]
  refine Bool.eq_false_iff.2 fun hwhite => ?_
  simp only [isWhite, isGap, isBreak, Bool.or_eq_true, beq_iff_eq] at hwhite
  rcases hwhite with (rfl | rfl) | (((rfl | rfl) | hn) | hn) | hn
  · cases h
  · cases h
  · cases h
  · cases h
  all_goals
    rw [hval _ hn] at h
    cases h

namespace Cursor

variable {from_ m : Mark} {b : List Char}

/-! ## Runs -/

/-- What ends a run of a plain text: a gap, or a colon in front of one. -/
def EndsPlain : List Char → Prop
  | [] => True
  | c :: cs => isWhite c = true ∨ c = ':' ∧ gapNext cs = true

theorem readPlainRun_append {run : List Char} (hrun : ∀ c ∈ run, isWhite c = false)
    (hcolon : ∀ x y, run = x ++ ':' :: y → gapNext (y ++ b) = false) (hb : EndsPlain b) (m : Mark) :
    readPlainRun false from_ (run ++ b) m = .ok (run, ⟨b, m.after run⟩) := by
  induction run generalizing m with
  | nil =>
      cases b with
      | nil => rfl
      | cons c cs =>
          rcases hb with hwhite | ⟨rfl, hgap⟩
          · have hgap : (isGap c || isBreak c) = true := hwhite
            simp only [List.nil_append, readPlainRun, hgap, if_true, Mark.after_nil]
          · have hwhite : (isGap ':' || isBreak ':') = false := rfl
            simp only [List.nil_append, readPlainRun, hwhite, hgap, Bool.false_and,
              Bool.false_eq_true, if_false, decide_true, Bool.and_self, if_true, Mark.after_nil]
  | cons c cs ih =>
      have hwhite : (isGap c || isBreak c) = false := hrun c List.mem_cons_self
      have hbreak : isBreak c = false := (Bool.or_eq_false_iff.1 hwhite).2
      have hinner : (decide (c = ':') && gapNext (cs ++ b)) = false := by
        by_cases hc : c = ':'
        · rw [hcolon [] cs (by rw [hc]; rfl), Bool.and_false]
        · rw [decide_eq_false hc, Bool.false_and]
      have hmore := ih (fun d hd => hrun d (List.mem_cons_of_mem c hd))
        (fun x y h => hcolon (c :: x) y (by rw [h]; rfl)) (m.next c)
      simp only [List.cons_append, readPlainRun, hwhite, hinner, hmore, Bool.false_and,
        Bool.false_eq_true, if_false, ok_bind, Mark.after_cons, Mark.step_of_not_break hbreak]
      rfl

/-- A run is added to the text before it; what follows decides how the text goes on. -/
theorem readPlainRest_run {run before : List Char} {stop : Mark} {gap : Gap} {least n : Nat}
    (hne : run ≠ []) (hmark : atDocumentMark ⟨run ++ b, m⟩ = false)
    (hhash : charNext '#' (run ++ b) = false)
    (hread : readPlainRun false from_ (run ++ b) m = .ok (run, ⟨b, m.after run⟩)) :
    readPlainRest false least from_ (n + 1) before stop gap ⟨run ++ b, m⟩ =
      if b.isEmpty || !gapNext b then
        .ok ⟨before ++ gap.text ++ run, m.after run, false, ⟨b, m.after run⟩⟩
      else
        readGap .plainScalar from_ least b.length (.empty false) ⟨b, m.after run⟩ >>= fun r =>
          if r.2.mark.column < least then
            .ok ⟨before ++ gap.text ++ run, m.after run, r.1.broken, r.2⟩
          else
            readPlainRest false least from_ n (before ++ gap.text ++ run) (m.after run) r.1
              r.2 := by
  have hempty : run.isEmpty = false := List.isEmpty_eq_false_iff.2 hne
  simp only [readPlainRest, hmark, hhash, hread, hempty, ok_bind, Bool.or_self, Bool.false_eq_true,
    if_false, Bool.not_false, Bool.true_and, decide_eq_true_eq]
  rfl

theorem readPlain_key {key : List Char} (hkey : IsKey key) (hb : gapNext b = true) (indent : Int)
    (m : Mark) : readPlain false indent ⟨key ++ ':' :: b, m⟩ =
      .ok (⟨.scalar (String.ofList key) .plain, m, m.after key⟩, false,
        ⟨':' :: b, m.after key⟩) := by
  have hends : EndsPlain (':' :: b) := .inr ⟨rfl, hb⟩
  have hread : readPlainRun false m (key ++ ':' :: b) m = _ := readPlainRun_append
    (fun c hc => isWhite_of_isWordChar (hkey.word c hc))
    (fun x y h =>
      absurd (hkey.word ':' (h ▸ List.mem_append_right x List.mem_cons_self)) (by decide))
    hends m
  obtain ⟨c, cs, rfl, hc⟩ := hkey.exists_cons
  have hmark : atDocumentMark ⟨c :: cs ++ ':' :: b, m⟩ = false :=
    atDocumentMark_of_first (ne_of_isAlpha hc rfl) (ne_of_isAlpha hc rfl) _ m
  have hhash : charNext '#' (c :: cs ++ ':' :: b) = false :=
    beq_false_of_ne fun h => ne_of_isAlpha hc rfl (Option.some.inj h)
  have hcolon : gapNext (':' :: b) = false := rfl
  rw [readPlain, readPlainRest_run (List.cons_ne_nil c cs) hmark hhash hread, hcolon]
  rfl

/-! ## Texts -/

theorem gapNext_append_newline (cs b : List Char) : gapNext (cs ++ '\n' :: b) = gapNext cs := by
  cases cs <;> rfl

/-- No colon inside a text stands in front of a gap. -/
theorem gapNext_of_hasInnerMark {gap : Bool} {cs : List Char} (h : hasInnerMark gap cs = false) :
    ∀ x y, cs = x ++ ':' :: y → gapNext y = false := by
  induction cs generalizing gap with
  | nil =>
      intro x y hxy
      simp at hxy
  | cons c cs ih =>
      intro x y hxy
      simp only [hasInnerMark, Bool.or_eq_false_iff] at h
      cases x with
      | nil =>
          obtain ⟨rfl, rfl⟩ := List.cons.inj hxy
          exact h.1.1
      | cons d x =>
          obtain ⟨rfl, hcs⟩ := List.cons.inj hxy
          exact ih h.2 x y hcs

theorem hasInnerMark_behind_space {gap : Bool} {x y : List Char}
    (h : hasInnerMark gap (x ++ ' ' :: y) = false) : hasInnerMark true y = false := by
  induction x generalizing gap with
  | nil =>
      simp only [List.nil_append, hasInnerMark, Bool.or_eq_false_iff] at h
      exact h.2
  | cons c x ih =>
      simp only [List.cons_append, hasInnerMark, Bool.or_eq_false_iff] at h
      exact ih h.2

/-- A text that can be read plain, or the rest of one behind a gap. -/
structure IsPlain (cs : List Char) : Prop where
  ne_nil : cs ≠ []
  begins : StopsAt isSpace cs
  ends : cs.getLast? ≠ some ' '
  noHash : StopsAt (· == '#') cs
  inLine : ∀ c ∈ cs, isPrintable c = true ∧ isBreak c = false
  noMark : ∃ gap, hasInnerMark gap cs = false

theorem isPlain_of_canBePlain {cs : List Char} (hne : cs ≠ []) (h : canBePlain cs = true) :
    IsPlain cs := by
  obtain ⟨c, cs, rfl⟩ := List.exists_cons_of_ne_nil hne
  simp only [canBePlain, Bool.not_eq_true', Bool.or_eq_false_iff, Bool.not_eq_false',
    List.any_eq_false, List.all_eq_true, atEdge, hasOpeningMark] at h
  obtain ⟨⟨⟨⟨⟨⟨⟨hopen, hfirst⟩, -⟩, -⟩, hinner⟩, hleft, hright⟩, hbreak⟩, hprint⟩ := h
  refine ⟨hne, stopsAt_cons hleft cs, ?_, stopsAt_cons ?_ cs, ?_, false, ?_⟩
  · intro hlast
    rw [hlast] at hright
    cases hright
  · refine beq_false_of_ne ?_
    rintro rfl
    exact absurd hopen (by decide)
  · intro d hd
    exact ⟨hprint d hd, Bool.eq_false_iff.2 (hbreak d hd)⟩
  · have hcolon : (c == ':' && gapNext cs) = false := by
      cases hgap : gapNext cs with
      | false => rw [Bool.and_false]
      | true =>
          rw [hgap, Bool.and_true, Bool.or_eq_false_iff, Bool.or_eq_false_iff] at hfirst
          rw [hfirst.1.2, Bool.false_and]
    rw [hasInnerMark, hcolon, Bool.and_false]
    exact hinner

theorem IsPlain.behind_gap {run rest : List Char} {k : Nat}
    (h : IsPlain (run ++ (spaces (k + 1) ++ rest))) (hrest : StopsAt isSpace rest) :
    IsPlain rest := by
  have hshape : run ++ (spaces (k + 1) ++ rest) = run ++ spaces k ++ ' ' :: rest := by
    rw [spaces, List.replicate_succ', List.append_assoc, List.append_assoc]
    rfl
  rw [hshape] at h
  have hne : rest ≠ [] := by
    rintro rfl
    exact h.ends List.getLast?_concat
  obtain ⟨gap, hmark⟩ := h.noMark
  have hinner := hasInnerMark_behind_space hmark
  obtain ⟨c, cs, rfl⟩ := List.exists_cons_of_ne_nil hne
  refine ⟨hne, hrest, ?_, stopsAt_cons ?_ cs, ?_, true, hinner⟩
  · intro hlast
    refine h.ends ?_
    rw [List.getLast?_append, List.getLast?_cons_cons, hlast]
    rfl
  · rw [hasInnerMark, Bool.or_eq_false_iff, Bool.or_eq_false_iff, Bool.and_true] at hinner
    exact hinner.1.2
  · intro d hd
    exact h.inLine d (List.mem_append_right _ (List.mem_cons_of_mem ' ' hd))

theorem isWhite_of_inLine {c : Char} (hprint : isPrintable c = true) (hbreak : isBreak c = false)
    (hspace : isSpace c = false) : isWhite c = false := by
  refine Bool.or_eq_false_iff.2 ⟨Bool.eq_false_iff.2 fun hgap => ?_, hbreak⟩
  rw [eq_space_of_isGap hgap hprint] at hspace
  cases hspace

section

variable {least col n : Nat} {next run rest before : List Char} {stop : Mark} {gap : Gap}

theorem IsPlain.readPlainRest (hplain : IsPlain (run ++ rest)) (hne : run ≠ [])
    (hrun : ∀ c ∈ run, isSpace c = false) (hrest : StopsAt (fun c => !isSpace c) rest)
    (hm : m.column ≠ 0) :
    readPlainRest false least from_ (n + 1) before stop gap
        ⟨run ++ (rest ++ '\n' :: (spaces col ++ next)), m⟩ =
      readGap .plainScalar from_ least (rest ++ '\n' :: (spaces col ++ next)).length (.empty false)
          ⟨rest ++ '\n' :: (spaces col ++ next), m.after run⟩ >>= fun r =>
        if r.2.mark.column < least then
          .ok ⟨before ++ gap.text ++ run, m.after run, r.1.broken, r.2⟩
        else
          Cursor.readPlainRest false least from_ n (before ++ gap.text ++ run) (m.after run)
            r.1 r.2 := by
  obtain ⟨g, hmark⟩ := hplain.noMark
  have hwhite : ∀ c ∈ run, isWhite c = false := by
    intro c hc
    obtain ⟨hprint, hbreak⟩ := hplain.inLine c (List.mem_append_left rest hc)
    exact isWhite_of_inLine hprint hbreak (hrun c hc)
  have hcolon : ∀ x y, run = x ++ ':' :: y →
      gapNext (y ++ (rest ++ '\n' :: (spaces col ++ next))) = false := by
    intro x y hxy
    rw [← List.append_assoc, gapNext_append_newline]
    refine gapNext_of_hasInnerMark hmark x (y ++ rest) ?_
    rw [hxy, List.append_assoc, List.cons_append]
  have hgap : gapNext (rest ++ '\n' :: (spaces col ++ next)) = true := by
    cases rest with
    | nil => rfl
    | cons c cs =>
        have hc : isSpace c = true := by simpa using hrest c rfl
        rw [beq_iff_eq.1 hc]
        rfl
  have hends : EndsPlain (rest ++ '\n' :: (spaces col ++ next)) := by
    cases rest with
    | nil => exact .inl rfl
    | cons c cs => exact .inl hgap
  have hhash : charNext '#' (run ++ (rest ++ '\n' :: (spaces col ++ next))) = false := by
    rw [← List.append_assoc]
    exact charNext_of_stopsAt (hplain.noHash.append hplain.ne_nil _)
  have hsome : (rest ++ '\n' :: (spaces col ++ next)).isEmpty = false := by simp
  rw [readPlainRest_run hne (atDocumentMark_of_column hm) hhash
    (readPlainRun_append hwhite hcolon hends m), hgap, hsome]
  rfl

theorem IsPlain.readGap {k : Nat} (h : IsPlain (run ++ (spaces (k + 1) ++ rest)))
    (hrest : StopsAt isSpace rest) (m : Mark) :
    readGap .plainScalar from_ least
        (spaces (k + 1) ++ rest ++ '\n' :: (spaces col ++ next)).length (.empty false)
        ⟨spaces (k + 1) ++ rest ++ '\n' :: (spaces col ++ next), m⟩ =
      .ok (⟨spaces (k + 1), false, [], []⟩,
        ⟨rest ++ '\n' :: (spaces col ++ next), m.after (spaces (k + 1))⟩) := by
  have hmore := h.behind_gap hrest
  have hnotWhite : StopsAt isWhite (rest ++ '\n' :: (spaces col ++ next)) := by
    refine StopsAt.append ?_ hmore.ne_nil _
    intro c hc
    obtain ⟨hprint, hbreak⟩ := hmore.inLine c (List.mem_of_mem_head? hc)
    exact isWhite_of_inLine hprint hbreak (hrest c hc)
  rw [List.append_assoc]
  refine readGap_spaces [] ?_ hnotWhite m
  rw [List.length_append, length_spaces]
  exact Nat.le_add_right (k + 1) _

/-- A plain text is read to the end of its line, and no further. -/
theorem readPlainRest_text (from_ : Mark) (cs : List Char) (hcol : col < least)
    (hnext : StopsAt isWhite next) (hplain : IsPlain cs) :
    ∀ n m before stop sp, cs.length < n → least ≤ m.column →
      Cursor.readPlainRest false least from_ n before stop ⟨sp, false, [], []⟩
          ⟨cs ++ '\n' :: (spaces col ++ next), m⟩ =
        .ok ⟨before ++ sp ++ cs, m.after cs, true, ⟨next, m.after (cs ++ '\n' :: spaces col)⟩⟩ := by
  induction cs using runs_induction isSpace with
  | last run hrun =>
      intro n m before stop sp hn hleast
      have hm : m.column ≠ 0 := by omega
      obtain ⟨n, rfl⟩ := Nat.exists_eq_add_one_of_ne_zero (Nat.ne_zero_of_lt hn)
      have hwhole : IsPlain (run ++ []) := (List.append_nil run).symm ▸ hplain
      have hread : readGap .plainScalar from_ least ('\n' :: (spaces col ++ next)).length
          (.empty false) ⟨'\n' :: (spaces col ++ next), m.after run⟩ = _ :=
        readGap_breaks ⟨rfl, rfl⟩ (List.forall_mem_nil _) (by
          rw [List.length_cons, List.length_append, length_spaces, List.length_nil]
          omega) hnext (m.after run)
      -- The next line begins too far left to belong to the text.
      have hcolumn : (m.after (run ++ '\n' :: spaces col)).column < least := by
        rwa [Mark.column_after_break rfl isBreak_of_mem_spaces, length_spaces]
      rw [Mark.after_append] at hcolumn ⊢
      refine (hwhole.readPlainRest hplain.ne_nil hrun (stopsAt_nil _) hm).trans ?_
      rw [List.nil_append, hread, ok_bind]
      exact if_pos hcolumn
  | gap run gap rest hrun hne hgap hrest ih =>
      intro n m before stop sp hn hleast
      have hm : m.column ≠ 0 := by omega
      obtain ⟨n, rfl⟩ := Nat.exists_eq_add_one_of_ne_zero (Nat.ne_zero_of_lt hn)
      obtain ⟨k, hk⟩ := Nat.exists_eq_add_one_of_ne_zero (mt List.length_eq_zero_iff.1 hne)
      have hspaces : gap = spaces (k + 1) := hk ▸ eq_spaces hgap
      subst hspaces
      have hrun' : run ≠ [] := by
        rintro rfl
        cases hplain.begins ' ' rfl
      have hmore := hplain.behind_gap hrest
      have hcolumn : ((m.after run).after (spaces (k + 1))).column =
          m.column + run.length + (k + 1) := by
        rw [column_after_spaces, Mark.after_of_no_break fun c hc =>
          (hplain.inLine c (List.mem_append_left _ hc)).2]
      have hlen : rest.length < n := by
        rw [List.length_append, List.length_append, length_spaces] at hn
        omega
      rw [List.append_assoc]
      refine (hplain.readPlainRest hrun' hrun (stopsAt_cons rfl _) hm).trans ?_
      rw [hplain.readGap hrest, ok_bind]
      -- Spaces lead further right, so the text goes on.
      refine (if_neg (by rw [hcolumn]; omega)).trans ?_
      refine (ih hmore n _ _ _ _ hlen (by rw [hcolumn]; omega)).trans ?_
      rw [Gap.text]
      simp only [List.append_assoc, Mark.after_append]
      rfl

theorem readPlain_text {indent : Nat} {cs : List Char} (hne : cs ≠ [])
    (hcan : canBePlain cs = true) (hcol : col ≤ indent) (hnext : StopsAt isWhite next)
    (hm : indent < m.column) :
    readPlain false indent ⟨cs ++ '\n' :: (spaces col ++ next), m⟩ =
      .ok (⟨.scalar (String.ofList cs) .plain, m, m.after cs⟩, true,
        ⟨next, m.after (cs ++ '\n' :: spaces col)⟩) := by
  have hleast : ((indent : Int) + 1).toNat = indent + 1 := by omega
  have hlen : cs.length < (cs ++ '\n' :: (spaces col ++ next)).length + 1 := by
    rw [List.length_append]
    omega
  have hread := readPlainRest_text m cs (Nat.lt_succ_of_le hcol) hnext
    (isPlain_of_canBePlain hne hcan) _ m [] m [] hlen hm
  simp only [readPlain, hleast, hread, ok_bind, List.nil_append, Gap.empty]
  rfl

end

end Cursor

end DocStamp.Yaml
