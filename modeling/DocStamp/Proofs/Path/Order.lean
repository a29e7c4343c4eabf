/-
# The order of paths

Paths are ordered step by step.  The order is total and transitive, and
paths of names that come before each other are the same, so that a list
sorted by it is fixed by its members (`eq_of_precedes`).
-/
import DocStamp.Path.Order
import DocStamp.Proofs.Path.Pieces

namespace DocStamp.Path

/-! ## Lists, element by element -/

section

variable {α : Type} [DecidableEq α] {less : α → α → Bool}

theorem listBefore_cons (a b : α) (as bs : List α) :
    listBefore less (a :: as) (b :: bs) = if a = b then listBefore less as bs else less a b := rfl

theorem listBefore_total (total : ∀ a b, a ≠ b → less a b = true ∨ less b a = true) :
    ∀ as bs : List α, listBefore less as bs = true ∨ listBefore less bs as = true
  | [], _ => .inl rfl
  | _ :: _, [] => .inr rfl
  | a :: as, b :: bs => by
      rw [listBefore_cons, listBefore_cons]
      by_cases h : a = b
      · rw [if_pos h, if_pos h.symm]
        exact listBefore_total total as bs
      · rw [if_neg h, if_neg (Ne.symm h)]
        exact total a b h

theorem listBefore_antisymm (antisymm : ∀ a b, less a b = true → less b a = true → a = b) :
    ∀ {as bs : List α}, listBefore less as bs = true → listBefore less bs as = true → as = bs
  | [], [], _, _ => rfl
  | [], _ :: _, _, h => nomatch h
  | _ :: _, [], h, _ => nomatch h
  | a :: as, b :: bs, h, h' => by
      rw [listBefore_cons] at h h'
      by_cases hab : a = b
      · rw [if_pos hab] at h
        rw [if_pos hab.symm] at h'
        rw [hab, listBefore_antisymm antisymm h h']
      · rw [if_neg hab] at h
        rw [if_neg (Ne.symm hab)] at h'
        exact absurd (antisymm a b h h') hab

theorem listBefore_trans (antisymm : ∀ a b, less a b = true → less b a = true → a = b)
    (trans : ∀ a b c, less a b = true → less b c = true → less a c = true) :
    ∀ {as bs cs : List α}, listBefore less as bs = true → listBefore less bs cs = true →
      listBefore less as cs = true
  | [], _, _, _, _ => rfl
  | _ :: _, [], _, h, _ => nomatch h
  | _ :: _, _ :: _, [], _, h => nomatch h
  | a :: as, b :: bs, c :: cs, h, h' => by
      rw [listBefore_cons] at h h' ⊢
      by_cases hab : a = b
      · subst hab
        rw [if_pos rfl] at h
        by_cases hac : a = c
        · rw [if_pos hac] at h' ⊢
          exact listBefore_trans antisymm trans h h'
        · rw [if_neg hac] at h' ⊢
          exact h'
      · rw [if_neg hab] at h
        by_cases hbc : b = c
        · subst hbc
          rw [if_neg hab]
          exact h
        · rw [if_neg hbc] at h'
          -- Were the outer two the same, the two steps would go back and forth.
          have hac : a ≠ c := fun e => hab (antisymm a b h (e ▸ h'))
          rw [if_neg hac]
          exact trans a b c h h'

end

/-! ## Names and paths -/

theorem nameBefore_total (a b : String) : nameBefore a b = true ∨ nameBefore b a = true := by
  refine listBefore_total (fun c d h => ?_) _ _
  have : c.toNat ≠ d.toNat := fun e => h (Char.toNat_inj.1 e)
  simp only [decide_eq_true_eq]
  omega

theorem nameBefore_antisymm (a b : String) (h : nameBefore a b = true)
    (h' : nameBefore b a = true) : a = b := by
  refine String.toList_injective (listBefore_antisymm (fun c d hc hd => ?_) h h')
  simp only [decide_eq_true_eq] at hc hd
  omega

theorem nameBefore_trans (a b c : String) (h : nameBefore a b = true)
    (h' : nameBefore b c = true) : nameBefore a c = true := by
  refine listBefore_trans (fun c d hc hd => ?_) (fun c d e hc hd => ?_) h h'
  · simp only [decide_eq_true_eq] at hc hd
    omega
  · simp only [decide_eq_true_eq] at hc hd ⊢
    omega

theorem before_total (p q : Path) : (p.before q || q.before p) = true := by
  rw [Bool.or_eq_true]
  exact listBefore_total (fun a b _ => nameBefore_total a b) _ _

theorem before_trans (p q r : Path) (h : p.before q = true) (h' : q.before r = true) :
    p.before r = true :=
  listBefore_trans nameBefore_antisymm nameBefore_trans h h'

theorem before_antisymm {a b : List String} (ha : AreNames a) (hb : AreNames b)
    (h : (ofNames a).before (ofNames b) = true) (h' : (ofNames b).before (ofNames a) = true) :
    a = b := by
  have := listBefore_antisymm nameBefore_antisymm h h'
  rwa [stepTexts_ofNames ha, stepTexts_ofNames hb] at this

theorem Named.before_antisymm {p q : Path} (hp : p.Named) (hq : q.Named)
    (h : p.before q = true) (h' : q.before p = true) : p = q := by
  obtain ⟨a, ha, rfl⟩ := hp
  obtain ⟨b, hb, rfl⟩ := hq
  rw [Path.before_antisymm ha hb h h']

/-- One path comes before another, and not the other way round. -/
def Precedes (p q : Path) : Prop := p.before q = true ∧ q.before p = false

theorem Precedes.asymm {p q : Path} (h : p.Precedes q) (h' : q.Precedes p) : False :=
  Bool.noConfusion (h.1.symm.trans h'.2)

/-- Sorting different paths of names puts each strictly before the next. -/
theorem pairwise_precedes_mergeSort {ps : List Path} (hnodup : ps.Nodup)
    (hnamed : ∀ p ∈ ps, p.Named) : (ps.mergeSort before).Pairwise Precedes := by
  have hsorted := List.pairwise_mergeSort before_trans before_total ps
  have hperm := List.mergeSort_perm ps before
  have hnodup' : (ps.mergeSort before).Nodup := hperm.nodup_iff.2 hnodup
  refine (hsorted.and hnodup').imp_of_mem fun {p q} hp hq ⟨hle, hne⟩ => ⟨hle, ?_⟩
  rw [Bool.eq_false_iff]
  intro hge
  exact hne (Named.before_antisymm (hnamed p (hperm.mem_iff.1 hp)) (hnamed q (hperm.mem_iff.1 hq))
    hle hge)

theorem nodup_of_precedes {ps : List Path} (h : ps.Pairwise Precedes) : ps.Nodup :=
  h.imp fun {p q} hpq he => by
    subst he
    exact hpq.asymm hpq

theorem eq_of_precedes {ps qs : List Path} (hp : ps.Pairwise Precedes)
    (hq : qs.Pairwise Precedes) (h : ∀ p, p ∈ ps ↔ p ∈ qs) : ps = qs := by
  have hperm := (List.perm_ext_iff_of_nodup (nodup_of_precedes hp) (nodup_of_precedes hq)).2 h
  exact List.Perm.eq_of_pairwise (fun p q _ _ h h' => (h.asymm h').elim) hp hq hperm

end DocStamp.Path
