/-
# Paths as lists of names

The operations on paths cut and join texts; the theory is about lists.
This file crosses over once: cutting at slashes undoes joining by them,
and a path that is spelt by names (`Path.ofNames`) has exactly these
names as its shape, its steps and its parts.

`Path.parts` are the pieces that say something, `.` and `..` among them.
Whatever walks a path, in a tree of files or on its text alone, reads no
more of it than its parts and whether it begins with a slash.
-/
import DocStamp.DocumentName
import DocStamp.Files.Session
import DocStamp.Path.Order

namespace DocStamp.Path

/-! ## Cutting and joining -/

theorem splitSlash_ne_nil : ∀ cs : List Char, splitSlash cs ≠ []
  | [] => by simp [splitSlash]
  | c :: cs => by
      unfold splitSlash
      split
      · simp
      · split <;> simp

/-- A slash between two texts cuts there, and nowhere else besides. -/
theorem splitSlash_append_slash (as bs : List Char) :
    splitSlash (as ++ '/' :: bs) = splitSlash as ++ splitSlash bs := by
  induction as with
  | nil => simp [splitSlash]
  | cons c as ih =>
      by_cases hc : c = '/'
      · simp [splitSlash, hc, ih]
      · simp only [List.cons_append, splitSlash, hc, if_false, ih]
        cases h : splitSlash as with
        | nil => exact absurd h (splitSlash_ne_nil as)
        | cons piece pieces => rfl

theorem splitSlash_of_not_mem {cs : List Char} (h : '/' ∉ cs) : splitSlash cs = [cs] := by
  induction cs with
  | nil => rfl
  | cons c cs ih =>
      have hc : c ≠ '/' := fun e => h (e ▸ List.mem_cons_self)
      have hcs : '/' ∉ cs := fun hm => h (List.mem_cons_of_mem _ hm)
      simp [splitSlash, hc, ih hcs]

theorem mem_splitSlash_iff {c : Char} (cs : List Char) :
    (∃ piece ∈ splitSlash cs, c ∈ piece) ↔ c ∈ cs ∧ c ≠ '/' := by
  induction cs with
  | nil => simp [splitSlash]
  | cons d cs ih =>
      unfold splitSlash
      split
      · rename_i hd
        simp only [List.mem_cons, exists_eq_or_imp, List.not_mem_nil, false_or, ih, hd]
        grind
      · rename_i hd
        split
        · rename_i hs
          exact absurd hs (splitSlash_ne_nil cs)
        · rename_i piece pieces hs
          simp only [hs, List.mem_cons, exists_eq_or_imp] at ih
          simp only [List.mem_cons, exists_eq_or_imp, or_assoc, ih]
          grind

theorem piecesOf_ne_nil (s : String) : piecesOf s ≠ [] := by
  simp [piecesOf, splitSlash_ne_nil]

theorem piecesOf_append_slash (a b : String) :
    piecesOf (a ++ "/" ++ b) = piecesOf a ++ piecesOf b := by
  have h : (a ++ "/" ++ b).toList = a.toList ++ '/' :: b.toList := by simp
  simp only [piecesOf, h, splitSlash_append_slash, List.map_append]

theorem piecesOf_of_not_mem {s : String} (h : '/' ∉ s.toList) : piecesOf s = [s] := by
  simp [piecesOf, splitSlash_of_not_mem h]

theorem mem_piecesOf_iff {c : Char} {s : String} :
    (∃ piece ∈ piecesOf s, c ∈ piece.toList) ↔ c ∈ s.toList ∧ c ≠ '/' := by
  rw [← mem_splitSlash_iff]
  constructor
  · rintro ⟨_, hp, hc⟩
    obtain ⟨cs, hcs, rfl⟩ := List.mem_map.1 hp
    exact ⟨cs, hcs, by simpa using hc⟩
  · rintro ⟨cs, hcs, hc⟩
    exact ⟨_, List.mem_map_of_mem hcs, by simpa using hc⟩

theorem piecesOf_slash_append (s : String) : piecesOf ("/" ++ s) = "" :: piecesOf s := by
  have h := piecesOf_append_slash "" s
  simpa [piecesOf_of_not_mem (s := "") (by simp)] using h

theorem joinPieces_cons {p : String} {ps : List String} (h : ps ≠ []) :
    joinPieces (p :: ps) = p ++ "/" ++ joinPieces ps := by
  cases ps with
  | nil => exact absurd rfl h
  | cons q qs => rfl

theorem joinPieces_append_singleton {ps : List String} (h : ps ≠ []) (q : String) :
    joinPieces (ps ++ [q]) = joinPieces ps ++ "/" ++ q := by
  induction ps with
  | nil => exact absurd rfl h
  | cons p ps ih =>
      cases ps with
      | nil => rfl
      | cons p' ps =>
          have hps : p' :: ps ≠ [] := by simp
          rw [List.cons_append, joinPieces_cons (by simp), ih hps, joinPieces_cons hps]
          simp [String.append_assoc]

theorem piecesOf_joinPieces {ps : List String} (hne : ps ≠ [])
    (h : ∀ p ∈ ps, '/' ∉ p.toList) : piecesOf (joinPieces ps) = ps := by
  induction ps with
  | nil => exact absurd rfl hne
  | cons p ps ih =>
      have hp := piecesOf_of_not_mem (h p List.mem_cons_self)
      cases ps with
      | nil => exact hp
      | cons q qs =>
          have hps : q :: qs ≠ [] := by simp
          rw [joinPieces_cons hps, piecesOf_append_slash, hp,
            ih hps fun x hx => h x (List.mem_cons_of_mem _ hx)]
          rfl

/-! ## Names -/

/-- A name that a directory can list: it is neither empty nor one of the dots, and no slash
is in it. -/
structure IsName (n : String) : Prop where
  ne_empty : n ≠ ""
  ne_here : n ≠ "."
  ne_up : n ≠ ".."
  no_slash : '/' ∉ n.toList

instance (n : String) : Decidable (IsName n) :=
  decidable_of_iff (n ≠ "" ∧ n ≠ "." ∧ n ≠ ".." ∧ '/' ∉ n.toList)
    ⟨fun ⟨a, b, c, d⟩ => ⟨a, b, c, d⟩, fun ⟨a, b, c, d⟩ => ⟨a, b, c, d⟩⟩

abbrev AreNames (names : List String) : Prop := ∀ n ∈ names, IsName n

theorem areNames_nil : AreNames [] := List.forall_mem_nil _

theorem AreNames.append {a b : List String} (ha : AreNames a) (hb : AreNames b) :
    AreNames (a ++ b) := fun n hn => (List.mem_append.1 hn).elim (ha n) (hb n)

theorem AreNames.left {a b : List String} (h : AreNames (a ++ b)) : AreNames a :=
  fun n hn => h n (List.mem_append_left _ hn)

theorem AreNames.right {a b : List String} (h : AreNames (a ++ b)) : AreNames b :=
  fun n hn => h n (List.mem_append_right _ hn)

theorem AreNames.dropLast {a : List String} (h : AreNames a) : AreNames a.dropLast :=
  fun n hn => h n (List.dropLast_subset _ hn)

theorem AreNames.of_prefix {a b : List String} (h : AreNames b) (hp : a <+: b) : AreNames a :=
  fun n hn => h n (hp.subset hn)

theorem IsName.isIdle_eq {n : String} (h : IsName n) : isIdle n = false := by
  simp [isIdle, h.ne_empty, h.ne_here]

theorem IsName.stepOf?_eq {n : String} (h : IsName n) : stepOf? n = some (.name n) := by
  simp [stepOf?, h.isIdle_eq, h.ne_up]

theorem AreNames.piecesOf_joinPieces {names : List String} (h : AreNames names)
    (hne : names ≠ []) : piecesOf (joinPieces names) = names :=
  Path.piecesOf_joinPieces hne fun n hn => (h n hn).no_slash

/-- Joined names never end in a slash, and are empty only if there are none. -/
theorem AreNames.getLast?_joinPieces {names : List String} (h : AreNames names) :
    (joinPieces names).toList.getLast? ≠ some '/' := by
  intro hl
  rcases List.eq_nil_or_concat names with rfl | ⟨init, n, rfl⟩
  · simp [joinPieces] at hl
  · have hn := h n (by simp)
    have hne : n.toList ≠ [] := by simpa using hn.ne_empty
    have hmem : '/' ∈ n.toList := by
      apply List.mem_of_getLast?
      rcases List.eq_nil_or_concat init with rfl | ⟨init', m, rfl⟩
      · simpa [joinPieces] using hl
      · rw [List.concat_eq_append, joinPieces_append_singleton (by simp)] at hl
        simpa [List.getLast?_append, List.getLast?_cons, List.getLast?_eq_some_getLast hne] using hl
    exact hn.no_slash hmem

theorem AreNames.joinPieces_eq_empty {names : List String} (h : AreNames names) :
    joinPieces names = "" ↔ names = [] := by
  constructor
  · intro he
    cases names with
    | nil => rfl
    | cons n ns =>
        have hp := h.piecesOf_joinPieces (by simp)
        rw [he, piecesOf_of_not_mem (by simp)] at hp
        exact absurd (List.cons.inj hp).1.symm (h n List.mem_cons_self).ne_empty
  · rintro rfl
    rfl

/-- The path that names spell. -/
def ofNames (names : List String) : Path := ofShape .bare names

@[simp] theorem ofNames_text (names : List String) : (ofNames names).text = joinPieces names := rfl

theorem ofNames_nil : ofNames [] = ⟨""⟩ := rfl

theorem ofNames_singleton (n : String) : ofNames [n] = ⟨n⟩ := rfl

theorem shape_ofNames {names : List String} (h : AreNames names) :
    (ofNames names).shape = (.bare, names) := by
  cases names with
  | nil => simp [shape, ofNames, ofShape, joinPieces, piecesOf, splitSlash]
  | cons n ns =>
      have hn := h n List.mem_cons_self
      have hp := h.piecesOf_joinPieces (by simp)
      simp only [shape, ofNames_text, hp]
      split
      · simp_all
      · simp_all [hn.ne_empty]
      · simp_all [hn.ne_empty]
      · simp_all [hn.ne_here]
      · rfl

theorem filterMap_stepOf? {names : List String} (h : AreNames names) :
    names.filterMap stepOf? = names.map .name := by
  induction names with
  | nil => rfl
  | cons n ns ih =>
      simp [(h n List.mem_cons_self).stepOf?_eq, ih fun x hx => h x (List.mem_cons_of_mem _ hx)]

theorem steps_ofNames {names : List String} (h : AreNames names) :
    (ofNames names).steps = names.map .name := by
  simp [steps, shape_ofNames h, Lead.steps, filterMap_stepOf? h]

theorem stepTexts_ofNames {names : List String} (h : AreNames names) :
    (ofNames names).steps.map Step.text = names := by
  rw [steps_ofNames h, List.map_map]
  exact List.map_id names

theorem map_name_injective : Function.Injective (List.map Step.name) :=
  fun _ _ h => (List.map_inj_right fun _ _ e => Step.name.inj e).1 h

theorem ofNames_inj {a b : List String} (ha : AreNames a) (hb : AreNames b) :
    ofNames a = ofNames b ↔ a = b := by
  constructor
  · intro h
    have hs := congrArg steps h
    rw [steps_ofNames ha, steps_ofNames hb] at hs
    exact map_name_injective hs
  · rintro rfl
    rfl

theorem sameSteps_ofNames {a b : List String} (ha : AreNames a) (hb : AreNames b) :
    sameSteps (ofNames a) (ofNames b) = true ↔ a = b := by
  rw [sameSteps, steps_ofNames ha, steps_ofNames hb, beq_iff_eq]
  exact map_name_injective.eq_iff

/-! ## Joining paths, and their parts -/

/-- The pieces of a path that are not empty. -/
def parts (p : Path) : List String := (piecesOf p.text).filter (· != "")

theorem piecesOf_empty : piecesOf "" = [""] := piecesOf_of_not_mem (by simp)

theorem piecesOf_append_slash_empty (a : String) : piecesOf (a ++ "/") = piecesOf a ++ [""] := by
  simpa [piecesOf_empty] using piecesOf_append_slash a ""

theorem parts_ofNames {names : List String} (h : AreNames names) :
    (ofNames names).parts = names := by
  cases names with
  | nil => simp [parts, joinPieces, piecesOf_empty]
  | cons n ns =>
      rw [parts, ofNames_text, h.piecesOf_joinPieces (by simp)]
      exact List.filter_eq_self.2 fun x hx => by simpa using (h x hx).ne_empty

/-- A path made of names. -/
def Named (p : Path) : Prop := ∃ names, AreNames names ∧ p = ofNames names

theorem Named.parts_inj {p q : Path} (hp : p.Named) (hq : q.Named) (h : p.parts = q.parts) :
    p = q := by
  obtain ⟨a, ha, rfl⟩ := hp
  obtain ⟨b, hb, rfl⟩ := hq
  rw [parts_ofNames ha, parts_ofNames hb] at h
  rw [h]

theorem mem_parts_iff {c : Char} {p : Path} :
    (∃ part ∈ p.parts, c ∈ part.toList) ↔ c ∈ p.text.toList ∧ c ≠ '/' := by
  rw [← mem_piecesOf_iff]
  constructor
  · rintro ⟨part, hpart, hc⟩
    exact ⟨part, (List.mem_filter.1 hpart).1, hc⟩
  · rintro ⟨piece, hpiece, hc⟩
    refine ⟨piece, List.mem_filter.2 ⟨hpiece, ?_⟩, hc⟩
    rw [bne_iff_ne]
    rintro rfl
    simp at hc

theorem slash_not_mem_part {p : Path} {part : String} (h : part ∈ p.parts) :
    '/' ∉ part.toList := fun hc => (mem_parts_iff.1 ⟨part, h, hc⟩).2 rfl

theorem filterMap_stepOf?_filter (pieces : List String) :
    (pieces.filter (· != "")).filterMap stepOf? = pieces.filterMap stepOf? := by
  induction pieces with
  | nil => rfl
  | cons piece pieces ih =>
      by_cases hempty : piece = ""
      · simp [hempty, stepOf?, isIdle, ih]
      · simp [hempty, List.filterMap_cons, ih]

/-- Without a lead, the parts of a path are its steps. -/
theorem steps_of_piece {p : Path} {piece : String} {pieces : List String}
    (hp : piecesOf p.text = piece :: pieces) (hne : piece ≠ "") (hhere : piece ≠ ".") :
    p.steps = p.parts.filterMap stepOf? := by
  have hshape : p.shape = (.bare, piece :: pieces) := by
    simp only [shape, hp]
    split <;> simp_all
  rw [steps, hshape, parts, filterMap_stepOf?_filter, hp]
  rfl

theorem shape_fst_ne_root {p : Path} {piece : String} {pieces : List String}
    (hp : piecesOf p.text = piece :: pieces) (hne : piece ≠ "") : p.shape.1 ≠ .root := by
  simp only [shape, hp]
  split
  · simp
  · rename_i h
    exact absurd (List.cons.inj h).1 hne
  · rename_i h
    exact absurd (List.cons.inj h).1 hne
  · simp
  · simp

theorem isAbsolute_eq (p : Path) : p.isAbsolute = (p.text.toList.head? == some '/') := by
  obtain ⟨text⟩ := p
  obtain ⟨cs, rfl⟩ := text.exists_eq_ofList
  cases cs with
  | nil => simp [isAbsolute, shape, piecesOf, splitSlash]
  | cons c cs =>
      obtain ⟨piece, pieces, h⟩ := List.exists_cons_of_ne_nil (splitSlash_ne_nil cs)
      by_cases hc : c = '/'
      · subst hc
        simp [isAbsolute, shape, piecesOf, splitSlash, h]
      · have hp : piecesOf (String.ofList (c :: cs)) =
            String.ofList (c :: piece) :: pieces.map String.ofList := by
          simp [piecesOf, splitSlash, hc, h]
        have hne : String.ofList (c :: piece) ≠ "" := by
          rw [Ne, ← String.toList_inj]
          simp
        have hroot := shape_fst_ne_root (p := ⟨String.ofList (c :: cs)⟩) hp hne
        simp only [isAbsolute, String.toList_ofList, List.head?_cons]
        rw [beq_eq_false_iff_ne.2 hroot, beq_eq_false_iff_ne.2 fun e => hc (Option.some.inj e)]

theorem isAbsolute_ofNames {names : List String} (h : AreNames names) :
    (ofNames names).isAbsolute = false := by
  simp [isAbsolute, shape_ofNames h]

theorem eq_append_slash {s : String} (h : s.toList.getLast? = some '/') : ∃ t, s = t ++ "/" := by
  obtain ⟨init, hi⟩ := List.getLast?_eq_some_iff.1 h
  exact ⟨String.ofList init, String.toList_injective (by simp [hi])⟩

/-- How `join` writes the two texts one behind the other: with a slash between them, unless
the first is empty or brings one. -/
theorem join_text_cases (base : Path) {p : Path} (hp : p.isAbsolute = false) :
    (base.text = "" ∧ (base.join p).text = p.text) ∨
    (∃ t, base.text = t ++ "/" ∧ (base.join p).text = t ++ "/" ++ p.text) ∨
    (base.text ≠ "" ∧ base.text.toList.getLast? ≠ some '/' ∧
      (base.join p).text = base.text ++ "/" ++ p.text) := by
  by_cases he : base.text = ""
  · exact .inl ⟨he, by simp [join, hp, he]⟩
  · by_cases hl : base.text.toList.getLast? = some '/'
    · obtain ⟨t, ht⟩ := eq_append_slash hl
      exact .inr (.inl ⟨t, ht, by simp [join, hp, ht]⟩)
    · exact .inr (.inr ⟨he, hl, by simp [join, hp, he, hl]⟩)

theorem utf8ByteSize_join (base : Path) {p : Path} (hp : p.isAbsolute = false) :
    base.text.utf8ByteSize + p.text.utf8ByteSize ≤ (base.join p).text.utf8ByteSize := by
  rcases join_text_cases base hp with ⟨hb, h⟩ | ⟨t, hb, h⟩ | ⟨-, -, h⟩
  · simp [hb, h]
  · simp [hb, h, String.utf8ByteSize_append]
  · simp only [h, String.utf8ByteSize_append]
    omega

theorem parts_join (base : Path) {p : Path} (hp : p.isAbsolute = false) :
    (base.join p).parts = base.parts ++ p.parts := by
  unfold parts
  rcases join_text_cases base hp with ⟨hb, h⟩ | ⟨t, hb, h⟩ | ⟨-, -, h⟩
  · simp [h, hb, piecesOf_empty]
  · simp [h, hb, piecesOf_append_slash, piecesOf_append_slash_empty]
  · simp [h, piecesOf_append_slash]

theorem head?_join (base : Path) {p : Path} (hp : p.isAbsolute = false) :
    ((base.join p).text.toList.head? == some '/') = (base.text.toList.head? == some '/') := by
  rw [isAbsolute_eq] at hp
  rcases join_text_cases base (by rw [isAbsolute_eq, hp]) with ⟨hb, h⟩ | ⟨t, hb, h⟩ | ⟨hne, -, h⟩
  · simp [h, hb, hp]
  · rw [h, hb]
    cases ht : t.toList <;> simp [ht]
  · rw [h]
    cases ht : base.text.toList with
    | nil => exact absurd (by simpa using ht) hne
    | cons c cs => simp [ht]

theorem ofNames_join {names : List String} {n : String} (h : AreNames names) (hn : IsName n) :
    (ofNames names).join ⟨n⟩ = ofNames (names ++ [n]) := by
  have hn' : AreNames [n] := fun x hx => List.mem_singleton.1 hx ▸ hn
  have hp : (⟨n⟩ : Path).isAbsolute = false := by
    rw [← ofNames_singleton]
    exact isAbsolute_ofNames hn'
  have hlast := h.getLast?_joinPieces
  by_cases hne : names = []
  · subst hne
    simp [join, hp, ofNames, ofShape, joinPieces]
  · have htext : joinPieces names ≠ "" := fun he => hne (h.joinPieces_eq_empty.1 he)
    simp [join, hp, htext, hlast, ofNames, ofShape, joinPieces_append_singleton hne]

/-! ## Parents and ancestors -/

theorem trimEnd_of_active {body : List String} (h : ∀ x ∈ body, isIdle x = false) :
    trimEnd body = body := by
  rcases List.eq_nil_or_concat body with rfl | ⟨init, x, rfl⟩
  · rfl
  · have hx := h x (by simp)
    simp [trimEnd, hx]

theorem trimEnd_of_areNames {names : List String} (h : AreNames names) : trimEnd names = names :=
  trimEnd_of_active fun n hn => (h n hn).isIdle_eq

theorem parent?_ofNames {names : List String} (h : AreNames names) (hne : names ≠ []) :
    (ofNames names).parent? = some (ofNames names.dropLast) := by
  simp only [parent?, shape_ofNames h, trimEnd_of_areNames h]
  rw [trimEnd_of_areNames h.dropLast]
  rfl

theorem parent?_ofNames_nil : (ofNames []).parent? = none := by
  simp [parent?, shape_ofNames areNames_nil, trimEnd]

/-- The ancestors of a path of names are the paths of the names it begins with. -/
theorem mem_ancestorsUpTo_ofNames {a : Path} :
    ∀ {k : Nat} {names : List String}, AreNames names → names.length ≤ k →
      (a ∈ ancestorsUpTo k (ofNames names) ↔ ∃ pre, pre <+: names ∧ a = ofNames pre)
  | 0, names, _, hk => by
      have hnil : names = [] := List.length_eq_zero_iff.1 (Nat.le_zero.1 hk)
      subst hnil
      simp [ancestorsUpTo]
  | k + 1, names, h, hk => by
      rcases List.eq_nil_or_concat names with rfl | ⟨init, n, rfl⟩
      · simp [ancestorsUpTo, parent?_ofNames_nil]
      · rw [List.concat_eq_append] at h hk ⊢
        have hinit : init.length ≤ k := by simpa using hk
        have ih := mem_ancestorsUpTo_ofNames (a := a) h.left hinit
        simp only [ancestorsUpTo, parent?_ofNames h (by simp), List.dropLast_concat, List.mem_cons,
          ih, List.prefix_concat_iff]
        constructor
        · rintro (rfl | ⟨pre, hp, rfl⟩)
          · exact ⟨_, .inl rfl, rfl⟩
          · exact ⟨pre, .inr hp, rfl⟩
        · rintro ⟨pre, rfl | hp, rfl⟩
          · exact .inl rfl
          · exact .inr ⟨pre, hp, rfl⟩

/-- Whatever measures texts measures at least twice as many names, less one slash. -/
theorem AreNames.two_mul_length_le {size : String → Nat}
    (append : ∀ a b, size (a ++ b) = size a + size b) (pos : ∀ a, a ≠ "" → 0 < size a)
    {names : List String} (h : AreNames names) :
    2 * names.length ≤ size (joinPieces names) + 1 := by
  induction names with
  | nil => simp
  | cons n ns ih =>
      have hn := pos n (h n List.mem_cons_self).ne_empty
      have ih := ih fun x hx => h x (List.mem_cons_of_mem _ hx)
      by_cases hns : ns = []
      · subst hns
        simp only [joinPieces, List.length_singleton]
        omega
      · have hslash := pos "/" (by decide)
        rw [joinPieces_cons hns, append, append, List.length_cons]
        omega

theorem AreNames.length_le {names : List String} (h : AreNames names) :
    names.length ≤ (joinPieces names).length := by
  have hsize := h.two_mul_length_le String.length_append fun a ha =>
    Nat.pos_of_ne_zero (by simpa [← String.length_toList] using ha)
  rcases Nat.eq_zero_or_pos names.length with h0 | h0
  · rw [h0]
    exact Nat.zero_le _
  · omega

theorem AreNames.two_mul_length_le_bytes {names : List String} (h : AreNames names) :
    2 * names.length ≤ (ofNames names).text.utf8ByteSize + 1 :=
  h.two_mul_length_le (fun _ _ => String.utf8ByteSize_append)
    fun _ ha => Nat.pos_of_ne_zero fun e => ha (String.utf8ByteSize_eq_zero_iff.1 e)

theorem mem_ancestors_ofNames {names : List String} (h : AreNames names) {a : Path} :
    a ∈ (ofNames names).ancestors ↔ ∃ pre, pre <+: names ∧ a = ofNames pre :=
  mem_ancestorsUpTo_ofNames h h.length_le

theorem ofNames_mem_ancestors_iff {rest names : List String} (hrest : AreNames rest)
    (hnames : AreNames names) : ofNames rest ∈ (ofNames names).ancestors ↔ rest <+: names := by
  rw [mem_ancestors_ofNames hnames]
  constructor
  · rintro ⟨pre, hpre, e⟩
    exact (ofNames_inj hrest (hnames.of_prefix hpre)).1 e ▸ hpre
  · exact fun h => ⟨rest, h, rfl⟩

theorem ancestors_subset {pre names : List String} (h : AreNames names) (hp : pre <+: names) :
    (ofNames pre).ancestors ⊆ (ofNames names).ancestors := by
  intro a ha
  obtain ⟨q, hq, rfl⟩ := (mem_ancestors_ofNames (h.of_prefix hp)).1 ha
  exact (mem_ancestors_ofNames h).2 ⟨q, hq.trans hp, rfl⟩

/-! ## The names of documents -/

theorem Named.stepText_eq {p : Path} (h : p.Named) : p.stepText = p.text := by
  obtain ⟨names, hn, rfl⟩ := h
  rw [stepText, stepTexts_ofNames hn, ofNames_text]

theorem documentName_of_suffix {suffix : String} {p : Path}
    (h : suffix.toList <:+ p.stepText.toList) : p.documentName suffix ++ suffix = p.stepText := by
  obtain ⟨front, hfront⟩ := h
  have hdrop : Text.dropEnding? suffix p.stepText = some (String.ofList front) := by
    simp [Text.dropEnding?, ← hfront]
  rw [documentName, hdrop, Option.getD_some]
  exact String.toList_inj.1 (by simp [hfront])

theorem documentName_of_not_suffix {suffix : String} {p : Path}
    (h : ¬ suffix.toList <:+ p.stepText.toList) : p.documentName suffix = p.stepText := by
  have hdrop : Text.dropEnding? suffix p.stepText = none := by
    simp [Text.dropEnding?, h]
  rw [documentName, hdrop, Option.getD_none]

/-! ## Slashes at the end of a path -/

def slashes (n : Nat) : String := String.ofList (List.replicate n '/')

theorem slashes_succ (n : Nat) : slashes (n + 1) = "/" ++ slashes n := by
  rw [slashes, List.replicate_succ, String.ofList_cons]
  rfl

theorem utf8ByteSize_slashes (n : Nat) : (slashes n).utf8ByteSize = n := by
  induction n with
  | zero => rfl
  | succ n ih =>
      have hslash : "/".utf8ByteSize = 1 := rfl
      rw [slashes_succ, String.utf8ByteSize_append, ih, hslash, Nat.add_comm]

theorem parts_slashes (p : Path) (n : Nat) :
    (⟨p.text ++ "/" ++ slashes n⟩ : Path).parts = p.parts := by
  have hnone : (piecesOf (slashes n)).filter (· != "") = [] := by
    induction n with
    | zero => simp [slashes, piecesOf_empty]
    | succ n ih => simpa [slashes_succ, piecesOf_slash_append] using ih
  simp [parts, piecesOf_append_slash, hnone]

end DocStamp.Path
