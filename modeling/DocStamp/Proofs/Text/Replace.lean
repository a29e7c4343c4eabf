/-
# Replacing one pattern after another

Two patterns can be replaced one after the other, or both in one pass.
The second way never looks at what was inserted; the first may find the
second pattern in an inserted text, or in a text that an insertion has
completed.

`mayBegin q a` asks whether an occurrence of `q` can begin inside `a`,
whatever follows.  For patterns that cannot begin inside each other, the
two ways give the same text if and only if the first pass adds no
occurrence of the second pattern (`replaceChars_twice_iff`), and the
insertions for which it never adds one are those that touch the second
pattern nowhere (`occurrences_replaceChars_iff`).
-/
import DocStamp.Text.Replace

namespace DocStamp.Text

variable {p q i j a b s t r : List Char} {c : Char} {k : Nat}

/-- The number of occurrences of a pattern, from the left and without overlaps. -/
def occurrences (q : List Char) : List Char → Nat
  | [] => 0
  | c :: cs =>
      if q.isPrefixOf (c :: cs) then occurrences q (cs.drop (q.length - 1)) + 1
      else occurrences q cs
termination_by s => s.length
decreasing_by all_goals simp only [List.length_drop, List.length_cons]; omega

/-- Replaces `p` by `i` and `q` by `j` in one pass from the left. -/
def replaceBoth (p i q j : List Char) : List Char → List Char
  | [] => []
  | c :: cs =>
      if p.isPrefixOf (c :: cs) then i ++ replaceBoth p i q j (cs.drop (p.length - 1))
      else if q.isPrefixOf (c :: cs) then j ++ replaceBoth p i q j (cs.drop (q.length - 1))
      else c :: replaceBoth p i q j cs
termination_by s => s.length
decreasing_by all_goals simp only [List.length_drop, List.length_cons]; omega

/-- Can an occurrence of `q` begin inside the text, whatever follows? -/
def mayBegin (q : List Char) : List Char → Bool
  | [] => false
  | c :: cs => (c :: cs).isPrefixOf q || q.isPrefixOf (c :: cs) || mayBegin q cs

/-! ## One step from the left -/

theorem ne_nil_of_not_prefix (h : ¬ q <+: s) : q ≠ [] := by
  rintro rfl
  exact h List.nil_prefix

theorem replaceChars_nil (hq : q ≠ []) : replaceChars q i [] = [] := by
  simp [replaceChars, hq]

theorem replaceChars_append (hq : q ≠ []) (t : List Char) :
    replaceChars q i (q ++ t) = i ++ replaceChars q i t := by
  cases q with
  | nil => exact absurd rfl hq
  | cons c q => simp [replaceChars]

theorem replaceChars_cons (h : ¬ q <+: c :: s) :
    replaceChars q i (c :: s) = c :: replaceChars q i s := by
  have hq := ne_nil_of_not_prefix h
  have hpre : q.isPrefixOf (c :: s) = false := by
    simpa [← List.isPrefixOf_iff_prefix] using h
  rw [replaceChars]
  simp [hq, hpre]

theorem occurrences_append (hq : q ≠ []) (t : List Char) :
    occurrences q (q ++ t) = occurrences q t + 1 := by
  cases q with
  | nil => exact absurd rfl hq
  | cons c q => simp [occurrences]

theorem occurrences_cons (h : ¬ q <+: c :: s) : occurrences q (c :: s) = occurrences q s := by
  have hpre : q.isPrefixOf (c :: s) = false := by
    simpa [← List.isPrefixOf_iff_prefix] using h
  rw [occurrences]
  simp [hpre]

theorem replaceBoth_append_left (hp : p ≠ []) (t : List Char) :
    replaceBoth p i q j (p ++ t) = i ++ replaceBoth p i q j t := by
  cases p with
  | nil => exact absurd rfl hp
  | cons c p => simp [replaceBoth]

theorem replaceBoth_append_right (hq : q ≠ []) (h : ¬ p <+: q ++ t) :
    replaceBoth p i q j (q ++ t) = j ++ replaceBoth p i q j t := by
  cases q with
  | nil => exact absurd rfl hq
  | cons c q =>
      have hpre : p.isPrefixOf (c :: (q ++ t)) = false := by
        simpa [← List.isPrefixOf_iff_prefix] using h
      simp [replaceBoth, hpre]

theorem replaceBoth_cons (h : ¬ p <+: c :: s) (h' : ¬ q <+: c :: s) :
    replaceBoth p i q j (c :: s) = c :: replaceBoth p i q j s := by
  have hpre : p.isPrefixOf (c :: s) = false := by
    simpa [← List.isPrefixOf_iff_prefix] using h
  have hpre' : q.isPrefixOf (c :: s) = false := by
    simpa [← List.isPrefixOf_iff_prefix] using h'
  rw [replaceBoth]
  simp [hpre, hpre']

/-! ## Where an occurrence can begin -/

theorem prefix_cases (h : q <+: a ++ t) : q <+: a ∨ a <+: q :=
  List.prefix_or_prefix_of_prefix h (List.prefix_append a t)

theorem mayBegin_cons_eq_false : mayBegin q (c :: s) = false ↔
    ¬ (c :: s) <+: q ∧ ¬ q <+: c :: s ∧ mayBegin q s = false := by
  rw [← Bool.not_eq_true, mayBegin]
  simp only [Bool.or_eq_true, List.isPrefixOf_iff_prefix, not_or, Bool.not_eq_true, and_assoc]

theorem mayBegin_iff : mayBegin q a = true ↔
    ∃ x y, a = x ++ y ∧ y ≠ [] ∧ (y <+: q ∨ q <+: y) := by
  induction a with
  | nil =>
      simp only [mayBegin, Bool.false_eq_true, false_iff]
      rintro ⟨x, y, hxy, hy, -⟩
      exact hy (List.append_eq_nil_iff.1 hxy.symm).2
  | cons c a ih =>
      simp only [mayBegin, Bool.or_eq_true, List.isPrefixOf_iff_prefix, ih]
      constructor
      · rintro (h | ⟨x, y, rfl, hy, h⟩)
        · exact ⟨[], c :: a, rfl, by simp, h⟩
        · exact ⟨c :: x, y, rfl, hy, h⟩
      · rintro ⟨x, y, hxy, hy, h⟩
        cases x with
        | nil =>
            obtain rfl : c :: a = y := hxy
            exact .inl h
        | cons d x =>
            obtain ⟨rfl, rfl⟩ := List.cons.inj hxy
            exact .inr ⟨x, y, rfl, hy, h⟩

/-- Inside the end of a text an occurrence begins only where it begins inside the text. -/
theorem mayBegin_right (h : mayBegin q (a ++ b) = false) : mayBegin q b = false := by
  induction a with
  | nil => exact h
  | cons c a ih => exact ih (mayBegin_cons_eq_false.1 h).2.2

theorem not_prefix_of_mayBegin (h : mayBegin q (c :: a) = false) (t : List Char) :
    ¬ q <+: c :: (a ++ t) := by
  intro hpre
  obtain ⟨hle, hge, -⟩ := mayBegin_cons_eq_false.1 h
  rcases prefix_cases (a := c :: a) hpre with h' | h'
  · exact hge h'
  · exact hle h'

theorem replaceChars_skip (h : mayBegin q a = false) (t : List Char) :
    replaceChars q i (a ++ t) = a ++ replaceChars q i t := by
  induction a with
  | nil => rfl
  | cons c a ih =>
      rw [List.cons_append, replaceChars_cons (not_prefix_of_mayBegin h t),
        ih (mayBegin_cons_eq_false.1 h).2.2, List.cons_append]

theorem occurrences_skip (h : mayBegin q a = false) (t : List Char) :
    occurrences q (a ++ t) = occurrences q t := by
  induction a with
  | nil => rfl
  | cons c a ih =>
      rw [List.cons_append, occurrences_cons (not_prefix_of_mayBegin h t),
        ih (mayBegin_cons_eq_false.1 h).2.2]

theorem occurrences_eq_zero (h : mayBegin q a = false) : occurrences q a = 0 := by
  have hskip := occurrences_skip h []
  rw [List.append_nil] at hskip
  rw [hskip, occurrences]

theorem occurrences_ne_zero (hq : q ≠ []) (a t : List Char) :
    occurrences q (a ++ (q ++ t)) ≠ 0 := by
  induction a with
  | nil =>
      rw [List.nil_append, occurrences_append hq]
      exact Nat.succ_ne_zero _
  | cons c a ih =>
      rw [List.cons_append]
      by_cases hpre : q <+: c :: (a ++ (q ++ t))
      · obtain ⟨u, hu⟩ := hpre
        rw [← hu, occurrences_append hq]
        exact Nat.succ_ne_zero _
      · rw [occurrences_cons hpre]
        exact ih

/-! ## Some of the occurrences -/

/-- The second text is the first one with `k` of the occurrences of `q` replaced by `j`. -/
inductive Replaced (q j : List Char) : List Char → List Char → Nat → Prop
  | nil : Replaced q j [] [] 0
  | copy {c : Char} {t r : List Char} {k : Nat} : ¬ q <+: c :: t → Replaced q j t r k →
      Replaced q j (c :: t) (c :: r) k
  | swap {t r : List Char} {k : Nat} : Replaced q j t r k → Replaced q j (q ++ t) (j ++ r) (k + 1)
  | leave {t r : List Char} {k : Nat} : Replaced q j t r k → Replaced q j (q ++ t) (q ++ r) k

theorem Replaced.of_skip (h : Replaced q j (b ++ t) r k) (hb : mayBegin q b = false) :
    ∃ r', r = b ++ r' ∧ Replaced q j t r' k := by
  induction b generalizing r with
  | nil => exact ⟨r, rfl, h⟩
  | cons c b ih =>
      have hnot := not_prefix_of_mayBegin hb t
      have hrest := (mayBegin_cons_eq_false.1 hb).2.2
      generalize hs : c :: b ++ t = s at h
      cases h with
      | nil => cases hs
      | copy _ h =>
          obtain ⟨rfl, rfl⟩ := List.cons.inj hs
          obtain ⟨r', rfl, h'⟩ := ih h hrest
          exact ⟨r', rfl, h'⟩
      | swap _ => exact absurd ⟨_, hs.symm⟩ hnot
      | leave _ => exact absurd ⟨_, hs.symm⟩ hnot

/-- Whatever is put in front stays as it is, with the occurrences that it may bring. -/
theorem Replaced.append (hq : q ≠ []) (hself : mayBegin q q.tail = false)
    (h : Replaced q j t r k) (a : List Char) : Replaced q j (a ++ t) (a ++ r) k := by
  induction hn : a.length using Nat.strongRecOn generalizing a with
  | ind n ih =>
      cases a with
      | nil => exact h
      | cons c a =>
          by_cases hpre : q <+: c :: (a ++ t)
          · rcases prefix_cases (a := c :: a) hpre with ⟨b, hb⟩ | ⟨b, hb⟩
            · -- The occurrence lies in front: it is left, and the rest of the front is shorter.
              have hlen : b.length < n := by
                have := congrArg List.length hb
                have := List.length_pos_iff.2 hq
                simp only [List.length_append, List.length_cons] at *
                omega
              rw [← hb, List.append_assoc, List.append_assoc]
              exact .leave (ih _ hlen b rfl)
            · -- It reaches into the text behind, where nothing else begins before its end.
              obtain ⟨u, hu⟩ := hpre
              obtain rfl : b ++ u = t := by
                rw [← hb] at hu
                simpa using hu
              have htail : mayBegin q b = false := by
                have hparts : q.tail = a ++ b := by rw [← hb]; rfl
                exact mayBegin_right (hparts ▸ hself)
              obtain ⟨r', rfl, h'⟩ := h.of_skip htail
              have hfront : ∀ v, c :: a ++ (b ++ v) = q ++ v := by
                intro v
                rw [← hb, List.append_assoc]
              rw [hfront, hfront]
              exact .leave h'
          · exact .copy hpre (ih a.length (by simp [← hn]) a rfl)

theorem length_replaceChars (h : Replaced q j t r k) (hq : q ≠ []) :
    (replaceChars q j t).length + occurrences q t * q.length =
      t.length + occurrences q t * j.length := by
  induction h with
  | nil => simp [replaceChars_nil hq, occurrences]
  | copy hpre _ ih =>
      rw [replaceChars_cons hpre, occurrences_cons hpre, List.length_cons, List.length_cons]
      omega
  | swap _ ih | leave _ ih =>
      rw [replaceChars_append hq, occurrences_append hq, List.length_append, List.length_append,
        Nat.succ_mul, Nat.succ_mul]
      omega

theorem Replaced.length_eq (h : Replaced q j t r k) :
    r.length + k * q.length = t.length + k * j.length := by
  induction h with
  | nil => simp
  | copy _ _ ih =>
      rw [List.length_cons, List.length_cons]
      omega
  | swap _ ih =>
      rw [List.length_append, List.length_append, Nat.succ_mul, Nat.succ_mul]
      omega
  | leave _ ih =>
      rw [List.length_append, List.length_append]
      omega

theorem Replaced.le_occurrences (h : Replaced q j t r k) (hq : q ≠ []) : k ≤ occurrences q t := by
  induction h with
  | nil => exact Nat.zero_le _
  | copy hpre _ ih => rwa [occurrences_cons hpre]
  | swap _ ih => rw [occurrences_append hq]; omega
  | leave _ ih => rw [occurrences_append hq]; omega

/-- Replacing all occurrences gives the same as replacing some of them exactly if these were
all, or if nothing but the pattern itself is inserted. -/
theorem Replaced.eq_iff (h : Replaced q j t r k) (hq : q ≠ []) :
    replaceChars q j t = r ↔ j = q ∨ occurrences q t = k := by
  induction h with
  | nil => simp [replaceChars_nil hq, occurrences]
  | copy hpre _ ih =>
      rw [replaceChars_cons hpre, occurrences_cons hpre, List.cons.injEq, ← ih]
      exact and_iff_right rfl
  | swap _ ih =>
      rw [replaceChars_append hq, occurrences_append hq, List.append_cancel_left_eq, ih,
        Nat.add_right_cancel_iff]
  | @leave t r k h ih =>
      rw [replaceChars_append hq, occurrences_append hq]
      have hle := h.le_occurrences hq
      constructor
      · intro heq
        -- One occurrence more is replaced, so the lengths agree only if the insertion is as
        -- long as the pattern; then the two stand at the same place.
        have hlen := congrArg List.length heq
        have hall := length_replaceChars h hq
        have hsome := h.length_eq
        obtain ⟨m, hm⟩ := Nat.exists_eq_add_of_le hle
        have hsame : j.length = q.length := by
          rw [List.length_append, List.length_append] at hlen
          rw [hm, Nat.add_mul, Nat.add_mul] at hall
          have hmore : (m + 1) * j.length = (m + 1) * q.length := by
            rw [Nat.succ_mul, Nat.succ_mul]
            omega
          exact Nat.eq_of_mul_eq_mul_left (Nat.succ_pos m) hmore
        exact .inl (List.append_inj heq hsame).1
      · rintro (rfl | hk)
        · rw [ih.2 (.inl rfl)]
        · omega

/-! ## Two patterns -/

/-- Two patterns, neither of which can begin inside itself or the other. -/
structure Apart (p q : List Char) : Prop where
  left_ne_nil : p ≠ []
  right_ne_nil : q ≠ []
  left_self : mayBegin p p.tail = false
  right_self : mayBegin q q.tail = false
  left_right : mayBegin p q = false
  right_left : mayBegin q p = false

theorem Apart.symm (h : Apart p q) : Apart q p :=
  ⟨h.right_ne_nil, h.left_ne_nil, h.right_self, h.left_self, h.right_left, h.left_right⟩

theorem Apart.cases (h : Apart p q) {motive : List Char → Prop} (nil : motive [])
    (left : ∀ t, motive t → motive (p ++ t)) (right : ∀ t, motive t → motive (q ++ t))
    (other : ∀ c t, ¬ p <+: c :: t → ¬ q <+: c :: t → motive t → motive (c :: t))
    (s : List Char) : motive s := by
  induction hn : s.length using Nat.strongRecOn generalizing s with
  | ind n ih =>
      have hp := List.length_pos_iff.2 h.left_ne_nil
      have hq := List.length_pos_iff.2 h.right_ne_nil
      cases s with
      | nil => exact nil
      | cons c s =>
          by_cases hpre : p <+: c :: s
          · obtain ⟨t, ht⟩ := hpre
            rw [← ht] at hn ⊢
            exact left t (ih t.length (by rw [← hn, List.length_append]; omega) t rfl)
          · by_cases hpre' : q <+: c :: s
            · obtain ⟨t, ht⟩ := hpre'
              rw [← ht] at hn ⊢
              exact right t (ih t.length (by rw [← hn, List.length_append]; omega) t rfl)
            · exact other c s hpre hpre' (ih s.length (by simp [← hn]) s rfl)

theorem Apart.not_prefix (h : Apart p q) (t : List Char) : ¬ p <+: q ++ t := by
  intro hpre
  have hne := h.right_ne_nil
  have hno := h.left_right
  cases q with
  | nil => exact hne rfl
  | cons c q => exact not_prefix_of_mayBegin hno t hpre

theorem Apart.replaceBoth_comm (h : Apart p q) (s : List Char) :
    replaceBoth p i q j s = replaceBoth q j p i s := by
  induction s using h.cases with
  | nil => simp [replaceBoth]
  | left t ih =>
      rw [replaceBoth_append_left h.left_ne_nil,
        replaceBoth_append_right h.left_ne_nil (h.symm.not_prefix t), ih]
  | right t ih =>
      rw [replaceBoth_append_left h.right_ne_nil,
        replaceBoth_append_right h.right_ne_nil (h.not_prefix t), ih]
  | other c t hpre hpre' ih => rw [replaceBoth_cons hpre hpre', replaceBoth_cons hpre' hpre, ih]

/-- One pass replaces those occurrences of the second pattern that stand in the source, among
all that the first pass of two leaves behind. -/
theorem Apart.replaced_replaceBoth (h : Apart p q) (i j s : List Char) :
    Replaced q j (replaceChars p i s) (replaceBoth p i q j s) (occurrences q s) := by
  induction s using h.cases with
  | nil =>
      rw [replaceChars_nil h.left_ne_nil, replaceBoth, occurrences]
      exact .nil
  | left t ih =>
      rw [replaceChars_append h.left_ne_nil, replaceBoth_append_left h.left_ne_nil,
        occurrences_skip h.right_left]
      exact ih.append h.right_ne_nil h.right_self i
  | right t ih =>
      rw [replaceChars_skip h.left_right, occurrences_append h.right_ne_nil,
        replaceBoth_append_right h.right_ne_nil (h.not_prefix t)]
      exact .swap ih
  | other c t hpre hpre' ih =>
      rw [replaceChars_cons hpre, replaceBoth_cons hpre hpre', occurrences_cons hpre']
      exact ih.append h.right_ne_nil h.right_self [c]

/-- Two passes are one pass exactly if the first of them adds no occurrence of the second
pattern, or if that pattern is replaced by itself. -/
theorem Apart.replaceChars_twice_iff (h : Apart p q) (i j s : List Char) :
    replaceChars q j (replaceChars p i s) = replaceBoth p i q j s ↔
      j = q ∨ occurrences q (replaceChars p i s) = occurrences q s :=
  (h.replaced_replaceBoth i j s).eq_iff h.right_ne_nil

/-! ## Insertions that never complete the other pattern -/

/-- What begins a text after a pass, and did not before, has a part that is inserted. -/
theorem mayBegin_of_newly_begins (hp : p ≠ []) {w : List Char} (hnew : w <+: replaceChars p i s)
    (hold : ¬ w <+: s) : mayBegin i w = true := by
  induction s generalizing w with
  | nil =>
      rw [replaceChars_nil hp] at hnew
      exact absurd hnew hold
  | cons c s ih =>
      cases w with
      | nil => exact absurd List.nil_prefix hold
      | cons d w =>
          by_cases hpre : p <+: c :: s
          · obtain ⟨t, ht⟩ := hpre
            rw [← ht, replaceChars_append hp] at hnew
            exact mayBegin_iff.2 ⟨[], d :: w, rfl, by simp, prefix_cases hnew⟩
          · rw [replaceChars_cons hpre] at hnew
            obtain ⟨rfl, hrest⟩ := List.cons_prefix_cons.1 hnew
            have hsame : ¬ w <+: s := fun hw => hold (List.cons_prefix_cons.2 ⟨rfl, hw⟩)
            rw [mayBegin, ih hrest hsame, Bool.or_true]

theorem Apart.occurrences_eq (h : Apart p q) (hin : mayBegin q i = false)
    (hacross : mayBegin i q = false) (s : List Char) :
    occurrences q (replaceChars p i s) = occurrences q s := by
  induction s using h.cases with
  | nil => rw [replaceChars_nil h.left_ne_nil]
  | left t ih =>
      rw [replaceChars_append h.left_ne_nil, occurrences_skip hin, occurrences_skip h.right_left, ih]
  | right t ih =>
      rw [replaceChars_skip h.left_right, occurrences_append h.right_ne_nil,
        occurrences_append h.right_ne_nil, ih]
  | other c t hpre hpre' ih =>
      have hnew : ¬ q <+: c :: replaceChars p i t := by
        intro hq
        rw [← replaceChars_cons hpre] at hq
        rw [mayBegin_of_newly_begins h.left_ne_nil hq hpre'] at hacross
        cases hacross
      rw [replaceChars_cons hpre, occurrences_cons hnew, occurrences_cons hpre', ih]

theorem Apart.occurrences_replaceChars_self (h : Apart p q) (hin : mayBegin q j = false)
    (hacross : mayBegin j q = false) (s : List Char) :
    occurrences q (replaceChars q j s) = 0 := by
  induction s using h.cases with
  | nil => rw [replaceChars_nil h.right_ne_nil, occurrences]
  | left t ih => rw [replaceChars_skip h.right_left, occurrences_skip h.right_left, ih]
  | right t ih => rw [replaceChars_append h.right_ne_nil, occurrences_skip hin, ih]
  | other c t hpre hpre' ih =>
      have hnew : ¬ q <+: c :: replaceChars q j t := by
        intro hq
        rw [← replaceChars_cons hpre'] at hq
        rw [mayBegin_of_newly_begins h.right_ne_nil hq hpre'] at hacross
        cases hacross
      rw [replaceChars_cons hpre', occurrences_cons hnew, ih]

theorem not_infix_of_occurrences (hq : q ≠ []) (h : occurrences q s = 0) : ¬ q <:+: s := by
  rintro ⟨a, t, rfl⟩
  rw [List.append_assoc] at h
  exact occurrences_ne_zero hq a t h

theorem replaceChars_eq_self (hq : q ≠ []) (h : occurrences q s = 0) : replaceChars q j s = s := by
  induction s with
  | nil => exact replaceChars_nil hq
  | cons c s ih =>
      have hpre : ¬ q <+: c :: s := by
        intro hpre
        exact not_infix_of_occurrences hq h hpre.isInfix
      rw [occurrences_cons hpre] at h
      rw [replaceChars_cons hpre, ih h]

/-- Behind the start of the second pattern, the first one can begin only as a whole, and the
second not at all.  The start is `z ++ a`, of which `a` has not been passed. -/
theorem Apart.begins_behind (h : Apart p q) {z x : List Char} (hq : q = z ++ (c :: a ++ x))
    (hx : x ≠ []) (t : List Char) :
    ¬ p <+: c :: (a ++ (p ++ t)) ∧ ¬ q <+: c :: (a ++ (p ++ t)) := by
  have hnone : ∀ w, w ≠ [] → w <:+ q → ¬ (w <+: p ∨ p <+: w) := by
    rintro w hw ⟨u, hu⟩ hor
    have hyes := mayBegin_iff.2 ⟨u, w, hu.symm, hw, hor⟩
    rw [h.left_right] at hyes
    cases hyes
  constructor
  · intro hpre
    have hshort : ¬ p <+: c :: a := fun hle =>
      hnone (c :: a ++ x) (by simp) ⟨z, hq.symm⟩ (.inr (hle.trans (List.prefix_append _ _)))
    rcases prefix_cases (a := c :: a) hpre with hle | ⟨w, hw⟩
    · exact hshort hle
    · -- The end of the first pattern would begin the pattern itself.
      have hne : w ≠ [] := by
        rintro rfl
        rw [List.append_nil] at hw
        exact hshort (hw ▸ List.prefix_rfl)
      obtain ⟨u, hu⟩ := hpre
      have hbegins : w <+: p ++ t := by
        refine ⟨u, ?_⟩
        rw [← hw] at hu ⊢
        simpa using hu
      have hyes := mayBegin_iff.2 ⟨a, w, (by rw [← hw]; rfl : p.tail = a ++ w), hne,
        prefix_cases hbegins⟩
      rw [h.left_self] at hyes
      cases hyes
  · intro hpre
    have hlen := congrArg List.length hq
    have hpos := List.length_pos_iff.2 hx
    simp only [List.length_append, List.length_cons] at hlen
    rcases prefix_cases (a := c :: a) hpre with hle | ⟨w, hw⟩
    · have := hle.length_le
      simp only [List.length_cons] at this
      omega
    · have hne : w ≠ [] := by
        rintro rfl
        have := congrArg List.length hw
        simp only [List.append_nil, List.length_cons] at this
        omega
      obtain ⟨u, hu⟩ := hpre
      have hbegins : w <+: p ++ t := by
        refine ⟨u, ?_⟩
        rw [← hw] at hu
        simpa using hu
      exact hnone w hne ⟨c :: a, hw⟩ (prefix_cases hbegins)

/-- Parts of the second pattern around the first one: the first is found there, the second
is not. -/
theorem Apart.around (h : Apart p q) {z x y : List Char} (hq : q = z ++ (a ++ x)) (hx : x ≠ [])
    (hy : y <:+ q.tail) :
    replaceChars p i (a ++ (p ++ y)) = a ++ (i ++ y) ∧ occurrences q (a ++ (p ++ y)) = 0 := by
  induction a generalizing z with
  | nil =>
      obtain ⟨u, hu⟩ := hy
      have hself : mayBegin q y = false := mayBegin_right (hu ▸ h.right_self)
      have hother : mayBegin p y = false := by
        have htail := h.left_right
        rw [← List.cons_head_tail h.right_ne_nil] at htail
        exact mayBegin_right (hu ▸ (mayBegin_cons_eq_false.1 htail).2.2)
      have hcopy := replaceChars_skip (i := i) hother []
      rw [List.append_nil, replaceChars_nil h.left_ne_nil, List.append_nil] at hcopy
      constructor
      · rw [List.nil_append, List.nil_append, replaceChars_append h.left_ne_nil, hcopy]
      · rw [List.nil_append, occurrences_skip h.right_left, occurrences_eq_zero hself]
  | cons c a ih =>
      obtain ⟨hp, hq'⟩ := h.begins_behind hq hx y
      obtain ⟨hreplace, hcount⟩ := ih (z := z ++ [c]) (by rw [hq]; simp)
      rw [List.cons_append, replaceChars_cons hp, occurrences_cons hq', hreplace]
      exact ⟨rfl, hcount⟩

/-- An insertion that can complete the second pattern does so in some text. -/
theorem Apart.exists_new (h : Apart p q) {x y u w : List Char} (hq : q = a ++ x) (hx : x ≠ [])
    (hy : y <:+ q.tail) (hnew : a ++ (i ++ y) = u ++ (q ++ w)) :
    ∃ s, occurrences q (replaceChars p i s) ≠ occurrences q s := by
  obtain ⟨hreplace, hcount⟩ := h.around (i := i) (z := []) hq hx hy
  refine ⟨a ++ (p ++ y), ?_⟩
  rw [hreplace, hcount, hnew]
  exact occurrences_ne_zero h.right_ne_nil u w

theorem suffix_tail (ha : a ≠ []) (h : q = a ++ b) : b <:+ q.tail := by
  cases a with
  | nil => exact absurd rfl ha
  | cons c a => exact ⟨a, by rw [h]; rfl⟩

/-- The first pass never adds an occurrence of the second pattern exactly if the pattern
cannot begin in the insertion, nor the insertion in the pattern. -/
theorem Apart.occurrences_replaceChars_iff (h : Apart p q) (hlong : q.tail ≠ []) :
    (∀ s, occurrences q (replaceChars p i s) = occurrences q s) ↔
      mayBegin q i = false ∧ mayBegin i q = false := by
  constructor
  · intro hsame
    have hnone : ¬ ∃ s, occurrences q (replaceChars p i s) ≠ occurrences q s := by
      rintro ⟨s, hs⟩
      exact hs (hsame s)
    refine ⟨Bool.eq_false_iff.2 fun hin => ?_, Bool.eq_false_iff.2 fun hacross => ?_⟩
    · obtain ⟨x, y, hi, hy, ⟨r, hr⟩ | ⟨r, hr⟩⟩ := mayBegin_iff.1 hin
      · -- The insertion ends with the start `y` of the pattern.
        refine hnone (h.exists_new (a := []) (u := x) (w := []) rfl h.right_ne_nil
          (suffix_tail hy hr.symm) ?_)
        rw [hi, ← hr]
        simp
      · refine hnone (h.exists_new (a := []) (y := []) (u := x) (w := r) rfl h.right_ne_nil
          List.nil_suffix ?_)
        rw [hi, ← hr]
        simp
    · obtain ⟨x, y, hq, hy, ⟨r, hr⟩ | ⟨r, hr⟩⟩ := mayBegin_iff.1 hacross
      · -- It begins with the end `y` of the pattern.
        refine hnone (h.exists_new (y := []) (u := []) (w := r) hq hy List.nil_suffix ?_)
        rw [hq, ← hr]
        simp
      · -- It stands inside the pattern, with `x` before and `r` behind.
        by_cases hempty : x ++ i = []
        · obtain ⟨rfl, rfl⟩ := List.append_eq_nil_iff.1 hempty
          have hparts : q = [q.head h.right_ne_nil] ++ q.tail :=
            (List.cons_head_tail h.right_ne_nil).symm
          refine hnone (h.exists_new (u := []) (w := []) hparts hlong List.suffix_rfl ?_)
          rw [List.nil_append, ← hparts]
          simp
        · have hall : q = (x ++ i) ++ r := by rw [hq, ← hr, List.append_assoc]
          refine hnone (h.exists_new (u := []) (w := []) hq hy (suffix_tail hempty hall) ?_)
          rw [hr, ← hq]
          simp
  · rintro ⟨hin, hacross⟩ s
    exact h.occurrences_eq hin hacross s

end DocStamp.Text
