/-
# Character data

Any text of XML characters without carriage returns can be an element's
character data: `escape` writes `&`, `<` and `>` as references, and what
is read is the text itself (`readText_escape`).
-/
import DocStamp.Proofs.Xml.Cursor
import DocStamp.Xml.Document

namespace DocStamp.Xml

/-! ## Characters -/

/-- The characters of XML, by their numbers. -/
def IsXmlChar (c : Char) : Prop :=
  c = '\t' ∨ c = '\n' ∨ c = '\r' ∨ (0x20 ≤ c.toNat ∧ c.toNat ≤ 0xD7FF) ∨
    (0xE000 ≤ c.toNat ∧ c.toNat ≤ 0xFFFD) ∨ (0x10000 ≤ c.toNat ∧ c.toNat ≤ 0x10FFFF)

instance (c : Char) : Decidable (IsXmlChar c) := by unfold IsXmlChar; infer_instance

theorem isLegal_of_isXmlChar {c : Char} (h : IsXmlChar c) : isLegal c = true := by
  unfold isLegal
  rcases h with rfl | rfl | rfl | h | h | h
  · rfl
  · rfl
  · rfl
  all_goals
    rw [if_neg (by omega)]
    simp only [Bool.and_eq_true, bne_iff_ne, ne_eq]
    omega

/-- A text that character data can hold: XML characters, but no carriage return, which would
be read as a line end. -/
def IsData (cs : List Char) : Prop := ∀ c ∈ cs, IsXmlChar c ∧ c ≠ '\r'

/-! ## Writing -/

/-- A character as it is written in character data. -/
def escapeChar (c : Char) : List Char :=
  if c = '&' then ['&', 'a', 'm', 'p', ';']
  else if c = '<' then ['&', 'l', 't', ';']
  else if c = '>' then ['&', 'g', 't', ';']
  else [c]

def escape (cs : List Char) : List Char := cs.flatMap escapeChar

theorem escape_append (a b : List Char) : escape (a ++ b) = escape a ++ escape b :=
  List.flatMap_append

theorem escape_of_plain {cs : List Char} (h : ∀ c ∈ cs, c ≠ '&' ∧ c ≠ '<' ∧ c ≠ '>') :
    escape cs = cs := by
  induction cs with
  | nil => rfl
  | cons c cs ih =>
      obtain ⟨hamp, hlt, hgt⟩ := h c List.mem_cons_self
      have hcs := ih fun d hd => h d (List.mem_cons_of_mem _ hd)
      rw [escape] at hcs ⊢
      simp [escapeChar, hamp, hlt, hgt, hcs]

theorem mem_escapeChar {c d : Char} (h : d ∈ escapeChar c) :
    d ≠ '<' ∧ d ≠ '>' ∧ (d = c ∨ d ∈ ['&', 'a', 'm', 'p', ';', 'l', 't', 'g']) := by
  unfold escapeChar at h
  split at h
  · simp only [List.mem_cons, List.not_mem_nil, or_false] at h
    rcases h with rfl | rfl | rfl | rfl | rfl <;> simp
  · split at h
    · simp only [List.mem_cons, List.not_mem_nil, or_false] at h
      rcases h with rfl | rfl | rfl | rfl <;> simp
    · split at h
      · simp only [List.mem_cons, List.not_mem_nil, or_false] at h
        rcases h with rfl | rfl | rfl | rfl <;> simp
      · obtain rfl := List.mem_singleton.1 h
        exact ⟨‹_›, ‹_›, .inl rfl⟩

theorem mem_escape {cs : List Char} {d : Char} (h : d ∈ escape cs) :
    d ≠ '<' ∧ d ≠ '>' ∧ (d ∈ cs ∨ d ∈ ['&', 'a', 'm', 'p', ';', 'l', 't', 'g']) := by
  obtain ⟨c, hc, hd⟩ := List.mem_flatMap.1 h
  obtain ⟨hlt, hgt, hor⟩ := mem_escapeChar hd
  exact ⟨hlt, hgt, hor.imp_left fun e : d = c => e ▸ hc⟩

theorem escape_ne_nil {cs : List Char} (h : cs ≠ []) : escape cs ≠ [] := by
  cases cs with
  | nil => exact absurd rfl h
  | cons c cs =>
      have hc : escapeChar c ≠ [] := by
        unfold escapeChar
        repeat' split
        all_goals simp
      rw [escape, List.flatMap_cons]
      exact List.append_ne_nil_of_left_ne_nil hc _

/-! ## Reading references -/

/-- How a written character is taken: as it stands, or from a reference. -/
def datumOf (c : Char) : Datum :=
  if c = '&' ∨ c = '<' ∨ c = '>' then .given c else .plain c

theorem resolveFrom_escapeChar (c : Char) (n : Nat) (cs : List Char) (p : Position) :
    ∃ q, resolveFrom (n + 1) (escapeChar c ++ cs) p =
      (resolveFrom n cs q).map (datumOf c :: ·) := by
  have hmap : ∀ (d : Datum) (r : Except Error (List Datum)),
      (do return d :: (← r)) = r.map (d :: ·) := by
    intro d r
    cases r <;> rfl
  unfold escapeChar
  split
  · subst c
    exact ⟨_, hmap (.given '&') _⟩
  · split
    · subst c
      exact ⟨_, hmap (.given '<') _⟩
    · split
      · subst c
        exact ⟨_, hmap (.given '>') _⟩
      · rename_i hamp hlt hgt
        refine ⟨p.next c, ?_⟩
        simp only [List.singleton_append, resolveFrom, hmap, datumOf, hamp, hlt, hgt, or_self,
          if_false]

theorem resolveFrom_escape (cs : List Char) {n : Nat} (h : cs.length ≤ n) (p : Position) :
    resolveFrom n (escape cs) p = .ok (cs.map datumOf) := by
  induction cs generalizing n p with
  | nil => cases n <;> rfl
  | cons c cs ih =>
      obtain ⟨n, rfl⟩ : ∃ k, n = k + 1 := ⟨n - 1, by simp at h; omega⟩
      obtain ⟨q, hq⟩ := resolveFrom_escapeChar c n (escape cs) p
      rw [escape, List.flatMap_cons, ← escape, hq, ih (by simpa using h) q]
      rfl

theorem resolve_escape (cs : List Char) (p : Position) :
    resolve (escape cs) p = .ok (cs.map datumOf) := by
  have hlength : cs.length ≤ (escape cs).length := by
    induction cs with
    | nil => exact Nat.le_refl _
    | cons c cs ih =>
        have hc := List.length_pos_iff.2 (escape_ne_nil (List.cons_ne_nil c []))
        rw [← List.singleton_append, escape_append, List.length_append, List.length_append]
        simp only [List.length_singleton]
        omega
  exact resolveFrom_escape cs hlength p

/-! ## Line ends -/

theorem pushData_of_ne {read : List Char} {c : Char} (hread : read.head? ≠ some '\r')
    (hc : c ≠ '\r') (last : Bool) : pushData read c last = c :: read := by
  unfold pushData
  split
  · exact absurd rfl hread
  · simp [hc]

theorem pushAll_of_not_mem {cs : List Char} (h : '\r' ∉ cs) {read : List Char}
    (hread : read.head? ≠ some '\r') (asIs : Bool) :
    pushAll read asIs (cs.map datumOf) = cs.reverse ++ read := by
  induction cs generalizing read asIs with
  | nil => rfl
  | cons c cs ih =>
      have hc : c ≠ '\r' := fun e => h (e ▸ List.mem_cons_self)
      have hcs : '\r' ∉ cs := fun hmem => h (List.mem_cons_of_mem _ hmem)
      have hnext : ∀ asIs, pushAll (c :: read) asIs (cs.map datumOf) = cs.reverse ++ c :: read :=
        fun asIs => ih hcs (by simpa using hc) asIs
      rw [List.map_cons, List.reverse_cons, List.append_assoc, List.singleton_append, datumOf]
      split
      · exact hnext true
      · cases asIs with
        | true => exact hnext false
        | false =>
            rw [← hnext false]
            simp [pushAll, pushData_of_ne hread hc]

theorem dataChars_of_not_mem {cs : List Char} (h : '\r' ∉ cs) :
    dataChars (cs.map datumOf) = cs := by
  rw [dataChars, pushAll_of_not_mem h (by simp)]
  simp

/-! ## Reading character data -/

theorem occursIn_of_not_mem {pattern cs : List Char} {d : Char} (hd : d ∈ pattern)
    (h : d ∉ cs) : Text.occursIn pattern cs = false := by
  have hpre : ∀ l : List Char, d ∉ l → pattern.isPrefixOf l = false := by
    intro l hl
    exact Bool.eq_false_iff.2 fun hp => hl ((List.isPrefixOf_iff_prefix.1 hp).subset hd)
  induction cs with
  | nil =>
      cases pattern with
      | nil => cases hd
      | cons => rfl
  | cons c cs ih =>
      rw [Text.occursIn, hpre _ h, ih fun hmem => h (List.mem_cons_of_mem _ hmem)]
      rfl

/-- Escaped character data is read as the text that it was made of. -/
theorem Cursor.readText_escape {cs : List Char} (h : IsData cs) (b : List Char) (p : Position) :
    Cursor.readText ⟨escape cs ++ '<' :: b, p⟩ =
      .ok (String.ofList cs, ⟨'<' :: b, p.after (escape cs)⟩) := by
  have hlegal : ∀ c ∈ escape cs, isLegal c = true ∧ (c == '<') = false := by
    intro c hc
    obtain ⟨hlt, -, hmem⟩ := mem_escape hc
    refine ⟨?_, beq_eq_false_iff_ne.2 hlt⟩
    rcases hmem with hmem | hmem
    · exact isLegal_of_isXmlChar (h c hmem).1
    · have hletters : ∀ d ∈ ['&', 'a', 'm', 'p', ';', 'l', 't', 'g'], isLegal d = true :=
        forall_mem_of_all (by decide)
      exact hletters c hmem
  have hread := Cursor.readUntil_head (p := p) (c := '<') (fun cs => cs.head? == some '<')
    (· == '<') (by simp) hlegal rfl rfl b
  have hend : Text.occursIn "]]>".toList (escape cs) = false :=
    occursIn_of_not_mem (d := '>') (by simp) fun hmem => (mem_escape hmem).2.1 rfl
  have hcr : '\r' ∉ cs := fun hmem => (h '\r' hmem).2 rfl
  simp only [Cursor.readText, hread, hend, resolve_escape, dataChars_of_not_mem hcr, bind,
    Except.bind, pure, Except.pure, Bool.false_eq_true, if_false]

end DocStamp.Xml
