/-
# Trimming

A text is `Trimmed` if there is something in it and no blank at either
end.  Trimming takes away exactly the blanks around such a text
(`trim_append`), and unless nothing is left it gives one
(`trimmed_trim`).
-/
import DocStamp.Text.Blank

namespace DocStamp.Text

/-- There is something in the text, and no blank at either end. -/
structure Trimmed (s : String) : Prop where
  ne_empty : s ≠ ""
  head : ∀ c ∈ s.toList.head?, isBlank c = false
  last : ∀ c ∈ s.toList.getLast?, isBlank c = false

instance (s : String) : Decidable (Trimmed s) :=
  decidable_of_iff (s ≠ "" ∧ s.toList.head?.any isBlank = false ∧
      s.toList.getLast?.any isBlank = false)
    (by
      rw [Option.any_eq_false, Option.any_eq_false]
      exact ⟨fun h => ⟨h.1, h.2.1, h.2.2⟩, fun h => ⟨h.ne_empty, h.head, h.last⟩⟩)

theorem Trimmed.toList_ne_nil {s : String} (h : Trimmed s) : s.toList ≠ [] :=
  fun e => h.ne_empty (String.toList_eq_nil_iff.1 e)

theorem dropWhile_isBlank {a b : List Char} (ha : ∀ c ∈ a, isBlank c = true)
    (hb : ∀ c ∈ b.head?, isBlank c = false) : (a ++ b).dropWhile isBlank = b := by
  rw [List.dropWhile_append_of_pos ha]
  cases b with
  | nil => rfl
  | cons c cs => exact List.dropWhile_cons_of_neg (by simp [hb c rfl])

theorem trim_append {a b : List Char} (ha : ∀ c ∈ a, isBlank c = true)
    (hb : ∀ c ∈ b, isBlank c = true) {s : String} (hs : Trimmed s) :
    trim (String.ofList (a ++ (s.toList ++ b))) = s := by
  have hfront : (a ++ (s.toList ++ b)).dropWhile isBlank = s.toList ++ b := by
    refine dropWhile_isBlank ha ?_
    have hhead : (s.toList ++ b).head? = s.toList.head? := by
      obtain ⟨c, cs, e⟩ := List.exists_cons_of_ne_nil hs.toList_ne_nil
      rw [e]
      rfl
    exact hhead ▸ hs.head
  have hback : (b.reverse ++ s.toList.reverse).dropWhile isBlank = s.toList.reverse := by
    refine dropWhile_isBlank (fun c hc => hb c (List.mem_reverse.1 hc)) ?_
    rw [List.head?_reverse]
    exact hs.last
  rw [trim, trimBlanks, String.toList_ofList, hfront, List.reverse_append, hback,
    List.reverse_reverse, String.ofList_toList]

theorem head?_dropWhile_isBlank (cs : List Char) :
    ∀ c ∈ (cs.dropWhile isBlank).head?, isBlank c = false := by
  induction cs with
  | nil => simp
  | cons c cs ih =>
      rw [List.dropWhile_cons]
      split
      · exact ih
      · rename_i h
        simpa using h

theorem trimmed_trim {s : String} (h : trim s ≠ "") : Trimmed (trim s) := by
  have hlast := head?_dropWhile_isBlank (s.toList.dropWhile isBlank).reverse
  -- Dropping blanks at the end keeps the front.
  have hprefix : trimBlanks s.toList <+: s.toList.dropWhile isBlank :=
    List.reverse_suffix.1 (by
      rw [trimBlanks, List.reverse_reverse]
      exact List.dropWhile_suffix _)
  refine ⟨h, fun c hc => ?_, fun c hc => ?_⟩
  · rw [trim, String.toList_ofList] at hc
    obtain ⟨rest, hrest⟩ := hprefix
    refine head?_dropWhile_isBlank s.toList c ?_
    rw [← hrest, List.head?_append, hc]
    rfl
  · rw [trim, String.toList_ofList, trimBlanks, List.getLast?_reverse] at hc
    exact hlast c hc

theorem trim_ne_empty {c : Char} {cs : List Char} (hc : isBlank c = false) :
    trim (String.ofList (c :: cs)) ≠ "" := by
  have hkept : ¬ isBlank c = true := by simp [hc]
  have hsome : trimBlanks (c :: cs) ≠ [] := by
    rw [trimBlanks, List.dropWhile_cons_of_neg hkept, List.reverse_cons, List.dropWhile_append]
    split
    · rw [List.dropWhile_cons_of_neg hkept]
      exact List.cons_ne_nil c []
    · simp
  intro h
  rw [trim, String.toList_ofList] at h
  exact hsome ((String.toList_ofList).symm.trans (String.toList_eq_nil_iff.2 h))

end DocStamp.Text
