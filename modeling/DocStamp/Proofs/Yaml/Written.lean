/-
# What is written

The layout of a text says which texts it is for, and everything that is
written may stand in a document as it is.
-/
import DocStamp.Proofs.Yaml.Plain

namespace DocStamp.Yaml

/-! ## Layouts -/

/-- How a text of a layout is read. -/
def Layout.style : Layout → Style
  | .plain => .plain
  | .single => .singleQuoted
  | .double => .doubleQuoted
  | .literal => .literal

section

variable {str : String}

theorem plain_of_layoutOf (h : layoutOf str = .plain) :
    isMistakable str = false ∧ canBePlain str.toList = true := by
  simp only [layoutOf] at h
  split at h
  · split at h <;> cases h
  · split at h
    next hcan => rwa [Bool.and_eq_true, Bool.not_eq_true'] at hcan
    next => split at h <;> cases h

theorem single_of_layoutOf (h : layoutOf str = .single) :
    canBeSingle str.toList = true ∧ '\n' ∉ str.toList := by
  simp only [layoutOf] at h
  split at h
  · split at h <;> cases h
  next hline =>
    split at h
    · cases h
    · split at h
      next hcan => exact ⟨hcan, fun hmem => hline (List.contains_iff_mem.2 hmem)⟩
      next => cases h

theorem literal_of_layoutOf (h : layoutOf str = .literal) :
    canBeLiteral str.toList = true ∧ '\n' ∈ str.toList := by
  simp only [layoutOf] at h
  split at h
  next hline =>
    split at h
    next hcan => exact ⟨hcan, List.contains_iff_mem.1 hline⟩
    next => cases h
  next =>
    split at h
    · cases h
    · split at h <;> cases h

theorem toList_ne_nil_of_not_mistakable (h : isMistakable str = false) : str.toList ≠ [] := by
  intro hnil
  rw [String.toList_eq_nil_iff.1 hnil] at h
  cases h

end

/-- The keys of all maps in a value need no quotes. -/
inductive Value.Writable : Value → Prop
  | null : Writable .null
  | text (s : String) : Writable (.text s)
  | list {items : List Value} : (∀ v ∈ items, Writable v) → Writable (.list items)
  | map {entries : List (String × Value)} : (∀ e ∈ entries, IsKey e.1.toList) →
      (∀ e ∈ entries, Writable e.2) → Writable (.map entries)

/-! ## Printable characters -/

theorem all_spaces (n : Nat) : (spaces n).all isPrintable = true := by
  rw [List.all_eq_true]
  intro c hc
  rw [mem_spaces hc]
  rfl

theorem all_lead (fresh : Bool) (n : Nat) :
    (if fresh then spaces n else []).all isPrintable = true := by
  cases fresh with
  | true => exact all_spaces n
  | false => rfl

theorem all_indentLines {cs : List Char} (h : cs.all isPrintable = true) (indent : Nat)
    (fresh : Bool) : (indentLines indent fresh cs).all isPrintable = true := by
  induction cs generalizing fresh with
  | nil => rfl
  | cons c cs ih =>
      simp only [List.all_cons, Bool.and_eq_true] at h
      obtain ⟨hc, hcs⟩ := h
      unfold indentLines
      split
      · simp only [List.all_cons, hc, ih hcs, Bool.and_self]
      · simp only [List.all_append, List.all_cons, all_lead, hc, ih hcs, Bool.and_self]

theorem all_singleChars {cs : List Char} (h : cs.all isPrintable = true) (indent : Nat)
    (fresh : Bool) : (singleChars indent fresh cs).all isPrintable = true := by
  induction cs generalizing fresh with
  | nil => exact all_lead fresh indent
  | cons c cs ih =>
      simp only [List.all_cons, Bool.and_eq_true] at h
      obtain ⟨hc, hcs⟩ := h
      have hchar : (if c == '\x27' then ['\x27', '\x27'] else [c]).all isPrintable = true := by
        split
        · rfl
        · simp only [List.all_cons, hc, List.all_nil, Bool.and_self]
      unfold singleChars
      split
      · simp only [List.all_cons, hc, ih hcs, Bool.and_self]
      split
      · simp only [List.all_cons, hc, ih hcs, Bool.and_self]
      · simp only [List.all_append, all_lead, hchar, ih hcs, Bool.and_self]

theorem isPrintable_hexDigit : ∀ d < 16, isPrintable (hexDigit d) = true := by decide

theorem all_hexDigits (n width : Nat) : (hexDigits n width).all isPrintable = true := by
  rw [List.all_eq_true]
  intro c hc
  obtain ⟨d, hd, rfl⟩ := Cursor.mem_hexDigits hc
  exact isPrintable_hexDigit d hd

theorem isPrintable_of_escapeLetter? {c l : Char} (h : escapeLetter? c = some l) :
    isPrintable l = true := by
  unfold escapeLetter? at h
  split at h <;> cases h <;> rfl

theorem all_spellNumber (n : Nat) : (spellNumber n).all isPrintable = true := by
  unfold spellNumber
  split
  · exact all_hexDigits n 2
  split
  · exact all_hexDigits n 4
  · exact all_hexDigits n 8

theorem all_doubleChar (c : Char) : (doubleChar c).all isPrintable = true := by
  unfold doubleChar
  split
  · cases hletter : escapeLetter? c with
    | some l =>
        have hl := isPrintable_of_escapeLetter? hletter
        simp only [List.all_cons, hl, List.all_nil, Bool.and_self]
        rfl
    | none => exact all_spellNumber c.toNat
  next h =>
    have hc : isPrintable c = true := by
      cases hprint : isPrintable c with
      | true => rfl
      | false => exact absurd (by rw [hprint]; rfl) h
    simp only [List.all_cons, hc, List.all_nil, Bool.and_self]

theorem all_literalMarks (cs : List Char) : (literalMarks cs).all isPrintable = true := by
  unfold literalMarks
  rw [List.all_append, Bool.and_eq_true]
  constructor
  · split <;> rfl
  · split
    · rfl
    split
    · rfl
    split
    · rfl
    split <;> rfl

theorem all_writeText (indent : Nat) (str : String) :
    (writeText indent str).all isPrintable = true := by
  cases hlayout : layoutOf str with
  | plain =>
      obtain ⟨-, hcan⟩ := plain_of_layoutOf hlayout
      simp only [canBePlain, Bool.not_eq_true', Bool.or_eq_false_iff, Bool.not_eq_false'] at hcan
      simp only [writeText, hlayout, List.all_append, hcan.2]
      rfl
  | single =>
      obtain ⟨hcan, -⟩ := single_of_layoutOf hlayout
      simp only [canBeSingle, Bool.and_eq_true] at hcan
      simp only [writeText, hlayout, writeSingle, List.all_append, List.all_cons,
        all_singleChars hcan.1.1]
      rfl
  | double =>
      have hchars : (str.toList.flatMap doubleChar).all isPrintable = true := by
        rw [List.all_flatMap]
        exact List.all_eq_true.2 fun c _ => all_doubleChar c
      simp only [writeText, hlayout, writeDouble, List.all_append, List.all_cons, hchars]
      rfl
  | literal =>
      obtain ⟨hcan, -⟩ := literal_of_layoutOf hlayout
      simp only [canBeLiteral, Bool.and_eq_true] at hcan
      have hend : (if str.toList.getLast?.any isBreak then [] else ['\n']).all isPrintable =
          true := by
        split <;> rfl
      simp only [writeText, hlayout, writeLiteral, List.all_append, List.all_cons,
        all_indentLines hcan.1.1, all_literalMarks, hend]
      rfl

theorem isPrintable_of_between {a c z : Char} (ha : 0x20 ≤ a.toNat) (hz : z.toNat ≤ 0x7E)
    (hac : a.val ≤ c.val) (hcz : c.val ≤ z.val) : isPrintable c = true := by
  have hlow : 0x20 ≤ c.toNat := Nat.le_trans ha (UInt32.le_iff_toNat_le.1 hac)
  have hhigh : c.toNat ≤ 0x7E := Nat.le_trans (UInt32.le_iff_toNat_le.1 hcz) hz
  simp [isPrintable, hlow, hhigh]

theorem isPrintable_of_isWordChar {c : Char} (h : isWordChar c = true) : isPrintable c = true := by
  simp only [isWordChar, Bool.or_eq_true, beq_iff_eq] at h
  rcases h with (halnum | rfl) | rfl
  · rcases Bool.or_eq_true_iff.1 halnum with halpha | hdigit
    · rcases Bool.or_eq_true_iff.1 halpha with hupper | hlower
      · obtain ⟨hleft, hright⟩ := of_decide_eq_true hupper
        exact isPrintable_of_between (by decide) (by decide) hleft hright
      · obtain ⟨hleft, hright⟩ := Bool.and_eq_true_iff.1 hlower
        exact isPrintable_of_between (by decide) (by decide) (of_decide_eq_true hleft)
          (of_decide_eq_true hright)
    · obtain ⟨hleft, hright⟩ := Bool.and_eq_true_iff.1 hdigit
      exact isPrintable_of_between (by decide) (by decide) (of_decide_eq_true hleft)
        (of_decide_eq_true hright)
  · rfl
  · rfl

theorem all_key {key : List Char} (h : IsKey key) : key.all isPrintable = true :=
  List.all_eq_true.2 fun c hc => isPrintable_of_isWordChar (h.word c hc)

theorem all_writeItems {items : List Value}
    (h : ∀ v ∈ items, ∀ i, (writeBehindDash i v).all isPrintable = true) (i : Nat) :
    (writeItems i items).all isPrintable = true := by
  induction items with
  | nil => rfl
  | cons item items ih =>
      have hitem := h item List.mem_cons_self i
      have hitems := ih fun v hv => h v (List.mem_cons_of_mem item hv)
      simp only [writeItems, List.all_append, all_spaces, hitem, hitems]
      rfl

theorem all_writeEntries {entries : List (String × Value)} {lead : List Char}
    (hlead : lead.all isPrintable = true) (hkeys : ∀ e ∈ entries, IsKey e.1.toList)
    (h : ∀ e ∈ entries, ∀ i, (writeBehindKey i e.2).all isPrintable = true) (i : Nat) :
    (writeEntries i lead entries).all isPrintable = true := by
  induction entries generalizing lead with
  | nil => rfl
  | cons e entries ih =>
      obtain ⟨key, value⟩ := e
      have hkey := all_key (hkeys (key, value) List.mem_cons_self)
      have hvalue := h (key, value) List.mem_cons_self i
      have hentries := ih (all_spaces i) (fun e he => hkeys e (List.mem_cons_of_mem _ he))
        fun e he => h e (List.mem_cons_of_mem _ he)
      simp only [writeEntries, List.all_append, List.all_cons, hlead, hkey, hvalue, hentries]
      rfl

theorem all_writeBehind {v : Value} (hv : v.Writable) :
    (∀ i, (writeBehindDash i v).all isPrintable = true) ∧
      ∀ i, (writeBehindKey i v).all isPrintable = true := by
  induction hv with
  | null => exact ⟨fun i => rfl, fun i => rfl⟩
  | text s => exact ⟨fun i => all_writeText i s, fun i => all_writeText i s⟩
  | @list items hwritable ih =>
      cases items with
      | nil => exact ⟨fun i => rfl, fun i => rfl⟩
      | cons item items =>
          have hitems := all_writeItems fun v hv => (ih v hv).1
          have hmore := all_writeItems fun v hv => (ih v (List.mem_cons_of_mem item hv)).1
          have hitem := (ih item List.mem_cons_self).1
          refine ⟨fun i => ?_, hitems⟩
          simp only [writeBehindDash, List.all_append, hitem, hmore]
          rfl
  | @map entries hkeys hvalues ih =>
      cases entries with
      | nil => exact ⟨fun i => rfl, fun i => rfl⟩
      | cons e entries =>
          have hentries := fun e he => (ih e he).2
          exact ⟨fun i => all_writeEntries rfl hkeys hentries (i + 2),
            fun i => all_writeEntries (all_spaces (i + 2)) hkeys hentries (i + 2)⟩

theorem controlOffset?_eq_none {cs : List Char} (h : cs.all isPrintable = true) (offset : Nat) :
    controlOffset? offset cs = none := by
  refine controlOffset?_of_allowed (fun c hc => ?_) offset
  exact isAllowed_of_isPrintable (List.all_eq_true.1 h c hc)

end DocStamp.Yaml
