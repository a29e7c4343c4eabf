/-
# Labels and values of a table

A label stands for the value of the first entry that lists it, and a
value is printed as the first label of its first entry.  Both look-ups
scan the entries, so `First` and `Only` say where they stop: at the
first entry that lists a label, or at the only one.

If no label occurs twice, what a value is printed as is read back as the
value (`get?_of_label?`).  If no value occurs twice either, a label of
an entry leads to the first label of that entry (`label?_of_mem`).
Values are compared by a test that need not hold of a value and itself.
-/
import DocStamp.Application

namespace DocStamp

namespace Labels

variable {α : Type} {t : Labels α} {label : String} {e : α × List String} {v : α}

/-- The first entry that lists a label. -/
def First (t : Labels α) (label : String) (e : α × List String) : Prop :=
  ∃ before after, t.entries = before ++ e :: after ∧ label ∈ e.2 ∧ ∀ d ∈ before, label ∉ d.2

/-- The one entry that lists a label. -/
def Only (t : Labels α) (label : String) (e : α × List String) : Prop :=
  ∃ before after, t.entries = before ++ e :: after ∧ label ∈ e.2 ∧
    ∀ d ∈ before ++ after, label ∉ d.2

/-- No two entries have the same value. -/
def DistinctValues [BEq α] (t : Labels α) : Prop :=
  t.entries.Pairwise fun d e => (d.1 == e.1) = false

/-! ## From labels to values -/

theorem mem_all : label ∈ t.all ↔ ∃ e ∈ t.entries, label ∈ e.2 := List.mem_flatMap

theorem Only.first (h : t.Only label e) : t.First label e := by
  obtain ⟨before, after, hsplit, hmem, hother⟩ := h
  exact ⟨before, after, hsplit, hmem, fun d hd => hother d (List.mem_append_left after hd)⟩

theorem get?_eq_some_iff : t.get? label = some v ↔ ∃ e, t.First label e ∧ e.1 = v := by
  rw [get?, Option.map_eq_some_iff]
  refine exists_congr fun e => and_congr_left' ?_
  rw [List.find?_eq_some_iff_append, List.contains_iff_mem]
  constructor
  · rintro ⟨hmem, before, after, hsplit, hnot⟩
    exact ⟨before, after, hsplit, hmem, fun d hd => by simpa using hnot d hd⟩
  · rintro ⟨before, after, hsplit, hmem, hnot⟩
    exact ⟨hmem, before, after, hsplit, fun d hd => by simpa using hnot d hd⟩

theorem isSome_get?_iff : (t.get? label).isSome ↔ label ∈ t.all := by
  rw [get?, Option.isSome_map, List.find?_isSome, mem_all]
  simp only [List.contains_iff_mem]

/-- Where no label occurs twice, an entry that lists a label is the only one. -/
theorem only_of_mem (hlabels : t.all.Nodup) (he : e ∈ t.entries) (hlabel : label ∈ e.2) :
    t.Only label e := by
  obtain ⟨before, after, hsplit⟩ := List.append_of_mem he
  refine ⟨before, after, hsplit, hlabel, fun d hd hmem => ?_⟩
  rw [all, hsplit, List.flatMap_append, List.flatMap_cons] at hlabels
  obtain ⟨-, htail, hbefore⟩ := List.nodup_append.1 hlabels
  obtain ⟨-, -, hafter⟩ := List.nodup_append.1 htail
  rcases List.mem_append.1 hd with hd | hd
  · exact hbefore label (List.mem_flatMap.2 ⟨d, hd, hmem⟩) label (List.mem_append_left _ hlabel) rfl
  · exact hafter label hlabel label (List.mem_flatMap.2 ⟨d, hd, hmem⟩) rfl

/-! ## From values to labels -/

section

variable [BEq α]

theorem mem_of_label? (h : t.label? v = some label) :
    ∃ e ∈ t.entries, (e.1 == v) = true ∧ label ∈ e.2 := by
  obtain ⟨e, hfind, hhead⟩ := Option.bind_eq_some_iff.1 h
  have hv : (e.1 == v) = true := (List.find?_eq_some_iff_append.1 hfind).1
  exact ⟨e, List.mem_of_find?_eq_some hfind, hv, List.mem_of_head? hhead⟩

/-- Reading undoes printing, where no label occurs twice. -/
theorem get?_of_label? (hlabels : t.all.Nodup) (h : t.label? v = some label) :
    ∃ w, t.get? label = some w ∧ (w == v) = true := by
  obtain ⟨e, he, hv, hlabel⟩ := mem_of_label? h
  exact ⟨e.1, get?_eq_some_iff.2 ⟨e, (only_of_mem hlabels he hlabel).first, rfl⟩, hv⟩

/-- Where no value occurs twice, a value is printed as the first label of any entry that has it. -/
theorem label?_of_mem [PartialEquivBEq α] (hvalues : t.DistinctValues) (he : e ∈ t.entries)
    (hv : (e.1 == v) = true) : t.label? v = e.2.head? := by
  obtain ⟨before, after, hsplit⟩ := List.append_of_mem he
  have hbefore : ∀ d ∈ before, (d.1 == e.1) = false := by
    rw [DistinctValues, hsplit] at hvalues
    exact fun d hd => (List.pairwise_append.1 hvalues).2.2 d hd e List.mem_cons_self
  have hfind : t.entries.find? (fun d => d.1 == v) = some e := by
    refine List.find?_eq_some_iff_append.2 ⟨hv, before, after, hsplit, fun d hd => ?_⟩
    -- An earlier entry with the value would have the value of this one.
    have hne : (d.1 == v) ≠ true := fun hd' =>
      Bool.eq_false_iff.1 (hbefore d hd) (PartialEquivBEq.trans hd' (PartialEquivBEq.symm hv))
    rw [Bool.eq_false_iff.2 hne]
    rfl
  rw [label?, hfind]
  rfl

end

end Labels

/-! ## Extension points -/

namespace ExtensionPoint

theorem parse_cases (name : String) :
    (name ∈ labels.all ∧ ∃ p, parse name = .ok p) ∨
      (name ∉ labels.all ∧ parse name = .error ⟨name⟩) := by
  rw [← Labels.isSome_get?_iff, parse]
  cases labels.get? name with
  | some p => exact .inl ⟨rfl, p, rfl⟩
  | none => exact .inr ⟨Bool.false_ne_true, rfl⟩

end ExtensionPoint

/-- The look-ups of a table agree.  A label is found exactly if it is listed, and stands for the value
of the first entry that lists it.  Where no label occurs twice, the label of a value is read back as
the value; where no value occurs twice either, the value of a label has the first label of the one
entry that lists it.  So the names that the error for an unknown extension point lists are the names
that are known. -/
theorem Labels.lookups_agree {α : Type} [BEq α] [PartialEquivBEq α] (t : Labels α) :
    (∀ label, (t.get? label).isSome ↔ label ∈ t.all) ∧
    (∀ label v, t.get? label = some v ↔ ∃ e, t.First label e ∧ e.1 = v) ∧
    (t.all.Nodup →
      (∀ v label, t.label? v = some label → ∃ w, t.get? label = some w ∧ (w == v) = true) ∧
      (t.DistinctValues → ∀ label w v, t.get? label = some w → (w == v) = true →
        ∃ e, t.Only label e ∧ e.1 = w ∧ t.label? v = e.2.head?)) ∧
    ∃ names : List String, (∀ unknown : ExtensionPoint.Unknown, unknown.message =
        "Unknown extension point `" ++ unknown.name ++ "`; expected one of: " ++
          ", ".intercalate (names.map fun name => "`" ++ name ++ "`")) ∧
      ∀ name, (name ∈ names ↔ ∃ p, ExtensionPoint.parse name = .ok p) ∧
        (name ∉ names → ExtensionPoint.parse name = .error ⟨name⟩) := by
  refine ⟨fun _ => isSome_get?_iff, fun _ _ => get?_eq_some_iff, fun hlabels => ⟨?_, ?_⟩, ?_⟩
  · exact fun v label h => get?_of_label? hlabels h
  · intro hvalues label w v hget hv
    obtain ⟨e, hfirst, rfl⟩ := get?_eq_some_iff.1 hget
    obtain ⟨before, after, hsplit, hlabel, -⟩ := hfirst
    have he : e ∈ t.entries := hsplit ▸ List.mem_append_right before List.mem_cons_self
    exact ⟨e, only_of_mem hlabels he hlabel, rfl, label?_of_mem hvalues he hv⟩
  · refine ⟨ExtensionPoint.labels.all, fun _ => rfl, fun name => ?_⟩
    rcases ExtensionPoint.parse_cases name with ⟨hmem, hok⟩ | ⟨hnot, herror⟩
    · exact ⟨iff_of_true hmem hok, fun hnot => absurd hmem hnot⟩
    · exact ⟨iff_of_false hnot (by simp [herror]), fun _ => herror⟩

def sampleLabels : Labels Nat := ⟨[(1, ["apple", "pomme"]), (2, ["banana"]), (3, [])]⟩

/-- A second label leads to the first one of its entry, which leads back to the value. -/
theorem Labels.lookups_agree_sample :
    sampleLabels.all.Nodup ∧ sampleLabels.DistinctValues ∧
      (∃ e, sampleLabels.Only "pomme" e ∧ e.1 = 1 ∧ sampleLabels.label? 1 = e.2.head?) ∧
      (∃ w, sampleLabels.get? "apple" = some w ∧ (w == 1) = true) := by
  have hlabels : sampleLabels.all.Nodup := by decide
  have hvalues : sampleLabels.DistinctValues := by simp [DistinctValues, sampleLabels]
  obtain ⟨-, -, hagree, -⟩ := Labels.lookups_agree sampleLabels
  exact ⟨hlabels, hvalues, (hagree hlabels).2 hvalues "pomme" 1 1 (by decide) (by decide),
    (hagree hlabels).1 1 "apple" (by decide)⟩

end DocStamp
