/-
# Marks, and what the small readers of a YAML document read

As for other readers, each lemma is about a text `a ++ b`: the reader
takes `a` and leaves `b`, at the mark behind `a`.  In the texts of this
development every line break is one character, so the mark behind a text
is found character by character.
-/
import DocStamp.Yaml.Token.Scalar
import DocStamp.Yaml.Write

namespace DocStamp.Yaml

/-! ## Marks -/

/-- The mark behind a character; a line break is a character of its own. -/
def Mark.step (m : Mark) (c : Char) : Mark := if isBreak c then m.nextLine c.utf8Size else m.next c

def Mark.after (m : Mark) (cs : List Char) : Mark := cs.foldl Mark.step m

def byteSize : List Char → Nat
  | [] => 0
  | c :: cs => c.utf8Size + byteSize cs

namespace Mark

variable {m : Mark} {c : Char} {a b : List Char}

@[simp] theorem after_nil (m : Mark) : m.after [] = m := rfl

@[simp] theorem after_cons (m : Mark) (c : Char) (cs : List Char) :
    m.after (c :: cs) = (m.step c).after cs := rfl

theorem after_append (m : Mark) (a b : List Char) : m.after (a ++ b) = (m.after a).after b :=
  List.foldl_append

theorem step_of_not_break (h : isBreak c = false) (m : Mark) : m.step c = m.next c := by
  rw [step, h]
  rfl

theorem step_of_break (h : isBreak c = true) (m : Mark) :
    m.step c = m.nextLine c.utf8Size := by
  rw [step, h]
  rfl

theorem line_le_step (m : Mark) (c : Char) : m.line ≤ (m.step c).line := by
  unfold step
  split
  · exact Nat.le_succ m.line
  · exact Nat.le_refl m.line

theorem line_le_after (m : Mark) (cs : List Char) : m.line ≤ (m.after cs).line := by
  induction cs generalizing m with
  | nil => exact Nat.le_refl m.line
  | cons c cs ih => exact Nat.le_trans (line_le_step m c) (ih (m.step c))

theorem line_lt_after_break (h : isBreak c = true) (m : Mark) (a b : List Char) :
    m.line < (m.after (a ++ c :: b)).line := by
  rw [after_append, after_cons, step_of_break h]
  exact Nat.lt_of_lt_of_le (Nat.lt_succ_of_le (line_le_after m a))
    (line_le_after ((m.after a).nextLine c.utf8Size) b)

/-- Within a line the mark behind a text is found by counting. -/
theorem after_of_no_break (h : ∀ c ∈ a, isBreak c = false) (m : Mark) :
    m.after a = ⟨m.index + byteSize a, m.line, m.column + a.length⟩ := by
  induction a generalizing m with
  | nil => rfl
  | cons c cs ih =>
      have hcs : ∀ d ∈ cs, isBreak d = false := fun d hd => h d (List.mem_cons_of_mem c hd)
      rw [after_cons, step_of_not_break (h c List.mem_cons_self), ih hcs, next, byteSize,
        List.length_cons, Nat.add_assoc, Nat.add_assoc, Nat.add_comm 1]

theorem column_after_break (hc : isBreak c = true) (hb : ∀ d ∈ b, isBreak d = false) (m : Mark)
    (a : List Char) : (m.after (a ++ c :: b)).column = b.length := by
  rw [after_append, after_cons, step_of_break hc, after_of_no_break hb, nextLine, Nat.zero_add]

theorem column_after_breaks (hne : a ≠ []) (ha : ∀ d ∈ a, isBreak d = true)
    (hb : ∀ d ∈ b, isBreak d = false) (m : Mark) : (m.after (a ++ b)).column = b.length := by
  rw [← List.dropLast_concat_getLast hne, List.append_assoc]
  exact column_after_break (ha _ (List.getLast_mem hne)) hb m a.dropLast

end Mark

/-! ## Classes of characters -/

/-- No character of the test comes first in the text. -/
def StopsAt (test : Char → Bool) (b : List Char) : Prop := ∀ c ∈ b.head?, test c = false

theorem stopsAt_nil (test : Char → Bool) : StopsAt test [] := by
  intro c hc
  cases hc

theorem stopsAt_cons {test : Char → Bool} {c : Char} (h : test c = false) (cs : List Char) :
    StopsAt test (c :: cs) := by
  intro d hd
  cases hd
  exact h

theorem StopsAt.append {test : Char → Bool} {a : List Char} (ha : StopsAt test a) (hne : a ≠ [])
    (b : List Char) : StopsAt test (a ++ b) := by
  obtain ⟨c, cs, rfl⟩ := List.exists_cons_of_ne_nil hne
  exact ha

theorem charNext_of_stopsAt {c : Char} {cs : List Char} (h : StopsAt (· == c) cs) :
    charNext c cs = false := by
  cases cs with
  | nil => rfl
  | cons d ds =>
      exact beq_false_of_ne fun heq => beq_eq_false_iff_ne.1 (h d rfl) (Option.some.inj heq)

theorem StopsAt.mono {p q : Char → Bool} {cs : List Char} (h : StopsAt q cs)
    (hpq : ∀ c, q c = false → p c = false) : StopsAt p cs :=
  fun c hc => hpq c (h c hc)

/-- A space, a tab or a line break. -/
def isWhite (c : Char) : Bool := isGap c || isBreak c

theorem isBreak_of_not_white {c : Char} (h : isWhite c = false) : isBreak c = false :=
  (Bool.or_eq_false_iff.1 h).2

theorem isSpace_of_not_white {c : Char} (h : isWhite c = false) : isSpace c = false :=
  (Bool.or_eq_false_iff.1 (Bool.or_eq_false_iff.1 h).1).1

theorem not_tab_of_not_white {c : Char} (h : isWhite c = false) : (c == '\t') = false :=
  (Bool.or_eq_false_iff.1 (Bool.or_eq_false_iff.1 h).1).2

theorem isGap_space : isGap ' ' = true := rfl

theorem isBreak_space : isBreak ' ' = false := rfl

theorem break_cases {c : Char} (hbreak : isBreak c = true) (hprint : isPrintable c = true) :
    c = '\n' ∨ c = Char.ofNat 0x2028 ∨ c = Char.ofNat 0x2029 := by
  have hval : ∀ n, c.toNat = n → c = Char.ofNat n := by
    intro n hn
    rw [← hn, Char.ofNat_toNat]
  simp only [isBreak, Bool.or_eq_true, beq_iff_eq] at hbreak
  rcases hbreak with (((rfl | rfl) | h) | h) | h
  · exact .inl rfl
  · exact absurd hprint (by decide)
  · rw [isPrintable, h] at hprint
    exact absurd hprint (by decide)
  · exact .inr (.inl (hval _ h))
  · exact .inr (.inr (hval _ h))

theorem eq_space_of_isGap {c : Char} (hgap : isGap c = true) (hprint : isPrintable c = true) :
    c = ' ' := by
  simp only [isGap, Bool.or_eq_true, beq_iff_eq] at hgap
  rcases hgap with rfl | rfl
  · rfl
  · exact absurd hprint (by decide)

theorem isAllowed_of_isPrintable {c : Char} (h : isPrintable c = true) : isAllowed c = true := by
  simp only [isPrintable, isAllowed, Bool.or_eq_true, Bool.and_eq_true, beq_iff_eq,
    decide_eq_true_eq, bne_iff_ne] at h ⊢
  omega

theorem controlOffset?_of_allowed {cs : List Char} (h : ∀ c ∈ cs, isAllowed c = true)
    (offset : Nat) : controlOffset? offset cs = none := by
  induction cs generalizing offset with
  | nil => rfl
  | cons c cs ih =>
      obtain ⟨hc, hcs⟩ := List.forall_mem_cons.1 h
      rw [controlOffset?, if_pos hc, ih hcs]

/-! ## Texts by runs -/

/-- A text is a run of characters outside a class, or such a run, then a gap of characters of the
class, then a text that begins outside it. -/
theorem runs_induction (test : Char → Bool) {P : List Char → Prop}
    (last : ∀ run, (∀ c ∈ run, test c = false) → P run)
    (gap : ∀ run gap rest, (∀ c ∈ run, test c = false) → gap ≠ [] → (∀ c ∈ gap, test c = true) →
      StopsAt test rest → P rest → P (run ++ (gap ++ rest))) (cs : List Char) : P cs := by
  have hrun : ∀ c ∈ cs.takeWhile fun c => !test c, test c = false := by
    intro c hc
    have hall := List.all_eq_true.1 List.all_takeWhile c hc
    simpa using hall
  have hsplit : cs.takeWhile (fun c => !test c) ++ cs.dropWhile (fun c => !test c) = cs :=
    List.takeWhile_append_dropWhile
  cases hbehind : cs.dropWhile fun c => !test c with
  | nil =>
      rw [hbehind, List.append_nil] at hsplit
      rw [hsplit] at hrun
      exact last cs hrun
  | cons d ds =>
      have hd : test d = true := by
        have hhead := List.head?_dropWhile_not (fun c => !test c) cs
        rw [hbehind] at hhead
        simpa using hhead
      have hcut : (d :: ds).takeWhile test ++ (d :: ds).dropWhile test = d :: ds :=
        List.takeWhile_append_dropWhile
      have hlen : ((d :: ds).dropWhile test).length < cs.length := by
        rw [List.dropWhile_cons_of_pos hd, ← hsplit, hbehind, List.length_append, List.length_cons]
        have := (List.dropWhile_sublist test (l := ds)).length_le
        omega
      have hrest : StopsAt test ((d :: ds).dropWhile test) := by
        intro c hc
        have hhead := List.head?_dropWhile_not test (d :: ds)
        rw [Option.mem_def.1 hc] at hhead
        exact hhead
      rw [← hsplit, hbehind, ← hcut]
      refine gap _ _ _ hrun ?_ ?_ hrest (runs_induction test last gap _)
      · rw [List.takeWhile_cons_of_pos hd]
        exact List.cons_ne_nil d _
      · intro c hc
        exact List.all_eq_true.1 List.all_takeWhile c hc
termination_by cs.length

/-! ## Readers -/

theorem ok_bind {α β : Type} (a : α) (f : α → Except Error β) : (Except.ok a >>= f) = f a := rfl

theorem mem_spaces {n : Nat} {c : Char} (h : c ∈ spaces n) : c = ' ' := List.eq_of_mem_replicate h

theorem isBreak_of_mem_spaces {n : Nat} : ∀ c ∈ spaces n, isBreak c = false := by
  intro c hc
  rw [mem_spaces hc]
  rfl

theorem length_spaces (n : Nat) : (spaces n).length = n := List.length_replicate

theorem column_after_spaces (m : Mark) (n : Nat) :
    (m.after (spaces n)).column = m.column + n := by
  rw [Mark.after_of_no_break isBreak_of_mem_spaces, length_spaces]

theorem column_after_line {c : Char} (hc : isBreak c = true) (m : Mark) (w : List Char) (n : Nat) :
    (m.after (w ++ c :: spaces n)).column = n := by
  rw [Mark.column_after_break hc isBreak_of_mem_spaces, length_spaces]

theorem spaces_succ (n : Nat) : spaces (n + 1) = ' ' :: spaces n := rfl

namespace Cursor

variable {a b : List Char} {m : Mark}

theorem skip_cons {c : Char} (h : isBreak c = false) (b : List Char) (m : Mark) :
    skip ⟨c :: b, m⟩ = ⟨b, m.step c⟩ := by
  rw [Mark.step_of_not_break h]
  rfl

theorem skipN_append (ha : ∀ c ∈ a, isBreak c = false) (b : List Char) (m : Mark) :
    skipN a.length ⟨a ++ b, m⟩ = ⟨b, m.after a⟩ := by
  induction a generalizing m with
  | nil => rfl
  | cons c cs ih =>
      rw [List.length_cons, skipN, List.cons_append, skip_cons (ha c List.mem_cons_self)]
      exact ih (fun d hd => ha d (List.mem_cons_of_mem c hd)) (m.step c)

theorem takeWhile_append {test : Char → Bool}
    (ha : ∀ c ∈ a, test c = true ∧ isBreak c = false) (hb : StopsAt test b) :
    takeWhile test (a ++ b) m = (a, ⟨b, m.after a⟩) := by
  induction a generalizing m with
  | nil =>
      cases b with
      | nil => rfl
      | cons c cs =>
          rw [List.nil_append, takeWhile, hb c rfl]
          rfl
  | cons c cs ih =>
      obtain ⟨htest, hbreak⟩ := ha c List.mem_cons_self
      have hcs := ih (m := m.next c) fun d hd => ha d (List.mem_cons_of_mem c hd)
      rw [List.cons_append, takeWhile, htest, hcs, Mark.after_cons, Mark.step_of_not_break hbreak]
      rfl

theorem read_append {test : Char → Bool} (ha : ∀ c ∈ a, test c = true ∧ isBreak c = false)
    (hb : StopsAt test b) : read test ⟨a ++ b, m⟩ = (a, ⟨b, m.after a⟩) :=
  takeWhile_append ha hb

theorem read_spaces {test : Char → Bool} (htest : test ' ' = true) (n : Nat) (hb : StopsAt test b)
    (m : Mark) : read test ⟨spaces n ++ b, m⟩ = (spaces n, ⟨b, m.after (spaces n)⟩) := by
  refine read_append (fun c hc => ?_) hb
  rw [mem_spaces hc]
  exact ⟨htest, isBreak_space⟩

theorem skipByteOrderMark_spaces {n : Nat} (hb : StopsAt (fun c => c.toNat == 0xFEFF) b)
    (m : Mark) : skipByteOrderMark ⟨spaces n ++ b, m⟩ = ⟨spaces n ++ b, m⟩ := by
  have hhead : ((spaces n ++ b).head?.any fun c => c.toNat == 0xFEFF) = false := by
    cases n with
    | succ n => rfl
    | zero =>
        cases b with
        | nil => rfl
        | cons c cs => exact hb c rfl
  rw [skipByteOrderMark, hhead, Bool.and_false, if_neg Bool.false_ne_true]

theorem readBreak_cons {c : Char} (hbreak : isBreak c = true) (hprint : isPrintable c = true)
    (b : List Char) (m : Mark) : readBreak ⟨c :: b, m⟩ = ([c], ⟨b, m.step c⟩) := by
  rcases break_cases hbreak hprint with rfl | rfl | rfl <;> rfl

theorem skipBreak_newline (b : List Char) (m : Mark) :
    skipBreak ⟨'\n' :: b, m⟩ = ⟨b, m.step '\n'⟩ := rfl

/-! ## Gaps -/

section

variable {context : Context} {from_ : Mark} {least n fuel : Nat}

theorem readGap_stop (hb : StopsAt isWhite b) (g : Gap) (m : Mark) :
    readGap context from_ least fuel g ⟨b, m⟩ = .ok (g, ⟨b, m⟩) := by
  cases fuel with
  | zero => rfl
  | succ fuel =>
      cases b with
      | nil => rfl
      | cons c cs =>
          have hc := Bool.or_eq_false_iff.1 (hb c rfl)
          simp only [readGap, hc.1, hc.2, Bool.false_eq_true, if_false]

theorem readGap_space (g : Gap) (b : List Char) (m : Mark) :
    readGap context from_ least (fuel + 1) g ⟨' ' :: b, m⟩ =
      readGap context from_ least fuel
        (if g.broken then g else { g with spaces := g.spaces ++ [' '] }) ⟨b, m.step ' '⟩ := by
  have htab : decide (' ' = '\t') = false := by decide
  simp only [readGap, isGap_space, htab, Bool.and_false, Bool.false_eq_true, if_true, if_false,
    skip_cons isBreak_space]

theorem readGap_break {c : Char} (hbreak : isBreak c = true) (hprint : isPrintable c = true)
    (g : Gap) (b : List Char) (m : Mark) :
    readGap context from_ least (fuel + 1) g ⟨c :: b, m⟩ =
      readGap context from_ least fuel
        (if g.broken then { g with more := g.more ++ [c] }
          else { g with spaces := [], broken := true, first := [c] }) ⟨b, m.step c⟩ := by
  have hgap : isGap c = false := by
    rcases break_cases hbreak hprint with rfl | rfl | rfl <;> rfl
  simp only [readGap, hgap, hbreak, Bool.false_eq_true, if_true, if_false,
    readBreak_cons hbreak hprint]

theorem readGap_indentation {g : Gap} (hg : g.broken = true) (hn : n ≤ fuel)
    (hb : StopsAt isWhite b) (m : Mark) :
    readGap context from_ least fuel g ⟨spaces n ++ b, m⟩ = .ok (g, ⟨b, m.after (spaces n)⟩) := by
  induction n generalizing m fuel with
  | zero => exact readGap_stop hb g m
  | succ n ih =>
      obtain ⟨fuel, rfl⟩ := Nat.exists_eq_add_one_of_ne_zero (Nat.ne_zero_of_lt hn)
      rw [spaces_succ, List.cons_append, readGap_space, if_pos hg]
      exact ih (Nat.le_of_succ_le_succ hn) (m.step ' ')

theorem readGap_spaces (before : List Char) (hn : n ≤ fuel) (hb : StopsAt isWhite b) (m : Mark) :
    readGap context from_ least fuel ⟨before, false, [], []⟩ ⟨spaces n ++ b, m⟩ =
      .ok (⟨before ++ spaces n, false, [], []⟩, ⟨b, m.after (spaces n)⟩) := by
  induction n generalizing m fuel before with
  | zero =>
      rw [spaces, List.replicate_zero, List.append_nil]
      exact readGap_stop hb _ m
  | succ n ih =>
      obtain ⟨fuel, rfl⟩ := Nat.exists_eq_add_one_of_ne_zero (Nat.ne_zero_of_lt hn)
      have hmore := ih (before ++ [' ']) (Nat.le_of_succ_le_succ hn) (m.step ' ')
      rw [List.append_assoc, List.singleton_append] at hmore
      rw [spaces_succ, List.cons_append, readGap_space]
      exact hmore

theorem readGap_more {g : Gap} {cs : List Char} (hg : g.broken = true)
    (hcs : ∀ d ∈ cs, isBreak d = true ∧ isPrintable d = true) (hn : cs.length + n ≤ fuel)
    (hb : StopsAt isWhite b) (m : Mark) :
    readGap context from_ least fuel g ⟨cs ++ (spaces n ++ b), m⟩ =
      .ok ({ g with more := g.more ++ cs }, ⟨b, m.after (cs ++ spaces n)⟩) := by
  induction cs generalizing m fuel g with
  | nil =>
      rw [List.append_nil]
      exact readGap_indentation hg (Nat.zero_add n ▸ hn) hb m
  | cons c cs ih =>
      rw [List.length_cons] at hn
      obtain ⟨fuel, rfl⟩ := Nat.exists_eq_add_one_of_ne_zero (by omega : fuel ≠ 0)
      obtain ⟨hbreak, hprint⟩ := hcs c List.mem_cons_self
      have hmore := ih (g := { g with more := g.more ++ [c] }) hg
        (fun d hd => hcs d (List.mem_cons_of_mem c hd)) (by omega : cs.length + n ≤ fuel) (m.step c)
      rw [List.append_assoc, List.singleton_append] at hmore
      rw [List.cons_append, readGap_break hbreak hprint, if_pos hg]
      exact hmore

/-- Line breaks and the indentation behind them. -/
theorem readGap_breaks {c : Char} {cs : List Char} (hc : isBreak c = true ∧ isPrintable c = true)
    (hcs : ∀ d ∈ cs, isBreak d = true ∧ isPrintable d = true) (hn : cs.length + n < fuel)
    (hb : StopsAt isWhite b) (m : Mark) :
    readGap context from_ least fuel (.empty false) ⟨c :: (cs ++ (spaces n ++ b)), m⟩ =
      .ok (⟨[], true, [c], cs⟩, ⟨b, m.after (c :: (cs ++ spaces n))⟩) := by
  obtain ⟨fuel, rfl⟩ := Nat.exists_eq_add_one_of_ne_zero (Nat.ne_zero_of_lt hn)
  rw [readGap_break hc.1 hc.2]
  exact readGap_more rfl hcs (Nat.le_of_lt_succ hn) hb (m.step c)

end

end Cursor

end DocStamp.Yaml
