/-
# What a pattern excludes

`Denotes pattern text` says which texts a pattern stands for, read off the
pattern as it is written, with one rule for each of its signs; `InClass`
does the same for the characters between two brackets.  Reading a pattern
leaves a sign of it out (a second `**` in a row says nothing) and drops
the slash behind `**`; the tokens that are left accept the texts that the
pattern denotes (`Same`).

The matcher finds every text that the tokens accept, so a path is excluded
exactly if the pattern denotes it or one of its ancestors
(`excludes_iff_denotes`).  Exclusion passes on to what lies below, with
one exception: a path that ends with a slash may be excluded as it is
spelt, and nothing below it has that spelling among its ancestors
(`excludes_slash_not_below`).
-/
import DocStamp.Proofs.Glob.Search
import DocStamp.Proofs.Path.Ancestors

namespace DocStamp.Glob

variable {ps s : List Char} {ts : List Token}

/-- The characters that the text of a class lists, from the left.  Three characters with a dash in
the middle are a range, from the first to the last; any other character stands for itself. -/
inductive InClass : List Char → Char → Prop
  | single {c : Char} {cs : List Char} : (∀ last rest, cs ≠ '-' :: last :: rest) →
      InClass (c :: cs) c
  | behindSingle {d c : Char} {cs : List Char} : (∀ last rest, cs ≠ '-' :: last :: rest) →
      InClass cs c → InClass (d :: cs) c
  | range {first last c : Char} {cs : List Char} : first.toNat ≤ c.toNat → c.toNat ≤ last.toNat →
      InClass (first :: '-' :: last :: cs) c
  | behindRange {first last c : Char} {cs : List Char} : InClass cs c →
      InClass (first :: '-' :: last :: cs) c

/-- The texts that a pattern denotes. -/
inductive Denotes : List Char → List Char → Prop
  | nil : Denotes [] []
  /-- Any other character stands for itself. -/
  | lit {c : Char} {ps s : List Char} : c ≠ '?' → c ≠ '*' → c ≠ '[' →
      Denotes ps s → Denotes (c :: ps) (c :: s)
  | any {c : Char} {ps s : List Char} : c ≠ '/' → Denotes ps s → Denotes ('?' :: ps) (c :: s)
  /-- The first character of a class belongs to it, even a closing bracket. -/
  | oneOf {first c : Char} {inside ps s : List Char} : first ≠ '!' → ']' ∉ inside → c ≠ '/' →
      InClass (first :: inside) c → Denotes ps s →
      Denotes ('[' :: first :: (inside ++ ']' :: ps)) (c :: s)
  | noneOf {first c : Char} {inside ps s : List Char} : ']' ∉ inside → c ≠ '/' →
      ¬ InClass (first :: inside) c → Denotes ps s →
      Denotes ('[' :: '!' :: first :: (inside ++ ']' :: ps)) (c :: s)
  | star {run ps s : List Char} : ps.head? ≠ some '*' → '/' ∉ run → Denotes ps s →
      Denotes ('*' :: ps) (run ++ s)
  | dirs {dirs ps s : List Char} : ps ≠ [] → IsDirs dirs → Denotes ps s →
      Denotes ('*' :: '*' :: '/' :: ps) (dirs ++ s)
  | all (s : List Char) : Denotes ['*', '*'] s
  | allSlash (s : List Char) : Denotes ['*', '*', '/'] s

/-! ## Reading a pattern sign by sign -/

theorem denotes_nil_iff : Denotes [] s ↔ s = [] := by
  constructor
  · rintro ⟨⟩
    rfl
  · rintro rfl
    exact .nil

theorem denotes_lit_iff {c : Char} (hany : c ≠ '?') (hstar : c ≠ '*') (hopen : c ≠ '[') :
    Denotes (c :: ps) s ↔ ∃ rest, s = c :: rest ∧ Denotes ps rest := by
  constructor
  · intro h
    cases h with
    | lit _ _ _ h => exact ⟨_, rfl, h⟩
    | any _ _ => exact absurd rfl hany
    | oneOf _ _ _ _ _ => exact absurd rfl hopen
    | noneOf _ _ _ _ => exact absurd rfl hopen
    | star _ _ _ => exact absurd rfl hstar
    | dirs _ _ _ => exact absurd rfl hstar
    | all _ => exact absurd rfl hstar
    | allSlash _ => exact absurd rfl hstar
  · rintro ⟨rest, rfl, h⟩
    exact .lit hany hstar hopen h

theorem denotes_any_iff :
    Denotes ('?' :: ps) s ↔ ∃ c rest, s = c :: rest ∧ c ≠ '/' ∧ Denotes ps rest := by
  constructor
  · intro h
    generalize hp : '?' :: ps = pattern at h
    cases h with
    | any hc h =>
        obtain rfl := (List.cons.inj hp).2
        exact ⟨_, _, rfl, hc, h⟩
    | lit hany _ _ _ => exact absurd (List.cons.inj hp).1.symm hany
    | nil | oneOf | noneOf | star | dirs | all | allSlash => simp at hp
  · rintro ⟨c, rest, rfl, hc, h⟩
    exact .any hc h

theorem denotes_star_iff (hps : ps.head? ≠ some '*') :
    Denotes ('*' :: ps) s ↔ ∃ run rest, s = run ++ rest ∧ '/' ∉ run ∧ Denotes ps rest := by
  constructor
  · intro h
    generalize hp : '*' :: ps = pattern at h
    cases h with
    | star _ hrun h =>
        obtain rfl := (List.cons.inj hp).2
        exact ⟨_, _, rfl, hrun, h⟩
    | lit _ hstar _ _ => exact absurd (List.cons.inj hp).1.symm hstar
    | dirs | all | allSlash =>
        rw [(List.cons.inj hp).2] at hps
        exact absurd rfl hps
    | nil | any | oneOf | noneOf => simp at hp
  · rintro ⟨run, rest, rfl, hrun, h⟩
    exact .star hps hrun h

theorem denotes_dirs_iff (hne : ps ≠ []) :
    Denotes ('*' :: '*' :: '/' :: ps) s ↔
      ∃ dirs rest, s = dirs ++ rest ∧ IsDirs dirs ∧ Denotes ps rest := by
  constructor
  · intro h
    generalize hp : '*' :: '*' :: '/' :: ps = pattern at h
    cases h with
    | dirs _ hdirs h =>
        simp only [List.cons.injEq, true_and] at hp
        subst hp
        exact ⟨_, _, rfl, hdirs, h⟩
    | lit _ hstar _ _ => exact absurd (List.cons.inj hp).1.symm hstar
    | star hhead _ _ =>
        rw [← (List.cons.inj hp).2] at hhead
        exact absurd rfl hhead
    | allSlash =>
        simp only [List.cons.injEq, true_and] at hp
        exact absurd hp hne
    | nil | any | oneOf | noneOf | all => simp at hp
  · rintro ⟨dirs, rest, rfl, hdirs, h⟩
    exact .dirs hne hdirs h

/-! ## Classes -/

theorem inClass_range_iff {first last c : Char} {cs : List Char} :
    InClass (first :: '-' :: last :: cs) c ↔
      (first.toNat ≤ c.toNat ∧ c.toNat ≤ last.toNat) ∨ InClass cs c := by
  constructor
  · intro h
    cases h with
    | single hsingle => exact absurd rfl (hsingle last cs)
    | behindSingle hsingle _ => exact absurd rfl (hsingle last cs)
    | range hlow hhigh => exact .inl ⟨hlow, hhigh⟩
    | behindRange h => exact .inr h
  · rintro (⟨hlow, hhigh⟩ | h)
    · exact .range hlow hhigh
    · exact .behindRange h

theorem inClass_single_iff {d c : Char} {cs : List Char}
    (hsingle : ∀ last rest, cs ≠ '-' :: last :: rest) :
    InClass (d :: cs) c ↔ c = d ∨ InClass cs c := by
  constructor
  · intro h
    cases h with
    | single _ => exact .inl rfl
    | behindSingle _ h => exact .inr h
    | range _ _ => exact absurd rfl (hsingle _ _)
    | behindRange _ => exact absurd rfl (hsingle _ _)
  · rintro (rfl | h)
    · exact .single hsingle
    · exact .behindSingle hsingle h

theorem inRanges_cons (a b c : Char) (rs : Ranges) :
    inRanges ((a, b) :: rs) c = true ↔
      (a.toNat ≤ c.toNat ∧ c.toNat ≤ b.toNat) ∨ inRanges rs c = true := by
  simp [inRanges, Char.le_def, UInt32.le_iff_toNat_le]

/-- The ranges that are read off a class hold the characters that it lists. -/
theorem inRanges_rangesOf_iff {cs : List Char} {c : Char} :
    inRanges (rangesOf cs) c = true ↔ InClass cs c := by
  fun_induction rangesOf cs with
  | case1 first last cs ih => rw [inRanges_cons, inClass_range_iff, ih]
  | case2 d cs hsingle ih =>
      have heq : d.toNat ≤ c.toNat ∧ c.toNat ≤ d.toNat ↔ c = d := by
        rw [← Char.toNat_inj]
        omega
      rw [inRanges_cons, inClass_single_iff hsingle, ih, heq]
  | case3 =>
      constructor
      · intro h
        cases h
      · intro h
        cases h

theorem splitBracket_append {inside : List Char} (h : ']' ∉ inside) (ps : List Char) :
    splitBracket (inside ++ ']' :: ps) = some (inside, ps) := by
  induction inside with
  | nil => rfl
  | cons c inside ih =>
      have hc : c ≠ ']' := fun hc => h (hc ▸ List.mem_cons_self)
      have hinside : ']' ∉ inside := fun hin => h (List.mem_cons_of_mem c hin)
      rw [List.cons_append, splitBracket, if_neg hc, ih hinside]
      rfl

theorem of_splitBracket {cs : List Char} {r : List Char × List Char}
    (h : splitBracket cs = some r) : ']' ∉ r.1 ∧ cs = r.1 ++ ']' :: r.2 := by
  induction cs generalizing r with
  | nil => cases h
  | cons c cs ih =>
      rw [splitBracket] at h
      split at h
      · obtain rfl := Option.some.inj h
        rename_i hc
        exact ⟨by simp, by rw [hc]; rfl⟩
      · obtain ⟨r', hr', rfl⟩ := Option.map_eq_some_iff.1 h
        obtain ⟨hnot, hcs⟩ := ih hr'
        rename_i hc
        exact ⟨by simp [Ne.symm hc, hnot], by rw [hcs]; rfl⟩

theorem bracket?_oneOf {first : Char} {inside : List Char} (hfirst : first ≠ '!')
    (h : ']' ∉ inside) (ps : List Char) :
    bracket? (first :: (inside ++ ']' :: ps)) =
      some (.oneOf (rangesOf (first :: inside)), ps) := by
  rw [bracket?]
  · rw [splitBracket_append h]
    rfl
  all_goals simp [hfirst]

theorem bracket?_noneOf (first : Char) {inside : List Char} (h : ']' ∉ inside)
    (ps : List Char) :
    bracket? ('!' :: first :: (inside ++ ']' :: ps)) =
      some (.noneOf (rangesOf (first :: inside)), ps) := by
  rw [bracket?, splitBracket_append h]
  rfl

theorem of_bracket? {cs : List Char} {t : Token} (h : bracket? cs = some (t, ps)) :
    (∃ first inside, first ≠ '!' ∧ ']' ∉ inside ∧ cs = first :: (inside ++ ']' :: ps) ∧
      t = .oneOf (rangesOf (first :: inside))) ∨
    ∃ first inside, ']' ∉ inside ∧ cs = '!' :: first :: (inside ++ ']' :: ps) ∧
      t = .noneOf (rangesOf (first :: inside)) := by
  fun_cases bracket? cs with
  | case1 first cs =>
      rw [bracket?] at h
      obtain ⟨r, hr, heq⟩ := Option.map_eq_some_iff.1 h
      obtain ⟨rfl, rfl⟩ := Prod.mk.inj heq
      obtain ⟨hnot, rfl⟩ := of_splitBracket hr
      exact .inr ⟨first, r.1, hnot, rfl, rfl⟩
  | case2 => cases h
  | case3 first cs hpair hone =>
      have hfirst : first ≠ '!' := by
        rintro rfl
        cases cs with
        | nil => exact hone rfl rfl
        | cons d cs => exact hpair d cs rfl rfl
      rw [bracket?.eq_3 first cs hpair hone] at h
      obtain ⟨r, hr, heq⟩ := Option.map_eq_some_iff.1 h
      obtain ⟨rfl, rfl⟩ := Prod.mk.inj heq
      obtain ⟨hnot, rfl⟩ := of_splitBracket hr
      exact .inl ⟨first, r.1, hfirst, hnot, rfl, rfl⟩
  | case4 => cases h

theorem isChar_of_bracket? {cs : List Char} {t : Token} (h : bracket? cs = some (t, ps)) :
    t.IsChar := by
  rcases of_bracket? h with ⟨_, _, _, _, _, rfl⟩ | ⟨_, _, _, _, rfl⟩
  · exact ⟨by simp, by simp⟩
  · exact ⟨by simp, by simp⟩

theorem denotes_bracket_iff {cs : List Char} {t : Token} (h : bracket? cs = some (t, ps)) :
    Denotes ('[' :: cs) s ↔
      ∃ c rest, s = c :: rest ∧ t.accepts c = true ∧ Denotes ps rest := by
  constructor
  · intro hs
    generalize hp : '[' :: cs = pattern at hs
    cases hs with
    | oneOf hfirst hinside hc hin hs =>
        obtain rfl := (List.cons.inj hp).2
        rw [bracket?_oneOf hfirst hinside] at h
        obtain ⟨rfl, rfl⟩ := Prod.mk.inj (Option.some.inj h)
        exact ⟨_, _, rfl, by simp [Token.accepts, hc, inRanges_rangesOf_iff.2 hin], hs⟩
    | noneOf hinside hc hout hs =>
        obtain rfl := (List.cons.inj hp).2
        rw [bracket?_noneOf _ hinside] at h
        obtain ⟨rfl, rfl⟩ := Prod.mk.inj (Option.some.inj h)
        rw [← inRanges_rangesOf_iff, Bool.not_eq_true] at hout
        exact ⟨_, _, rfl, by simp [Token.accepts, hc, hout], hs⟩
    | lit _ _ hopen _ => exact absurd (List.cons.inj hp).1.symm hopen
    | nil | any | star | dirs | all | allSlash => simp at hp
  · rintro ⟨c, rest, rfl, hc, hs⟩
    rcases of_bracket? h with ⟨first, inside, hfirst, hinside, rfl, rfl⟩ |
      ⟨first, inside, hinside, rfl, rfl⟩
    · obtain ⟨hslash, hin⟩ : c ≠ '/' ∧ inRanges (rangesOf (first :: inside)) c = true := by
        simpa [Token.accepts] using hc
      exact .oneOf hfirst hinside hslash (inRanges_rangesOf_iff.1 hin) hs
    · obtain ⟨hslash, hout⟩ : c ≠ '/' ∧ inRanges (rangesOf (first :: inside)) c = false := by
        simpa [Token.accepts] using hc
      rw [← Bool.not_eq_true, inRanges_rangesOf_iff] at hout
      exact .noneOf hinside hslash hout hs

/-! ## The tokens of a pattern -/

/-- Tokens that accept what a pattern denotes. -/
structure Same (ts : List Token) (ps : List Char) : Prop where
  nil_iff : ts = [] ↔ ps = []
  accepts_iff : ∀ s, Accepts ts s ↔ Denotes ps s

namespace Same

theorem nil : Same [] [] := ⟨by simp, fun _ => accepts_nil_iff.trans denotes_nil_iff.symm⟩

theorem char {t : Token} {cs : List Char} (ht : t.IsChar) (hcs : cs ≠ []) (h : Same ts ps)
    (hdenotes : ∀ s, Denotes cs s ↔
      ∃ c rest, s = c :: rest ∧ t.accepts c = true ∧ Denotes ps rest) : Same (t :: ts) cs := by
  refine ⟨by simp [hcs], fun s => ?_⟩
  rw [accepts_char_iff ht, hdenotes]
  simp only [h.accepts_iff]

theorem star (hps : ps.head? ≠ some '*') (h : Same ts ps) : Same (.star :: ts) ('*' :: ps) := by
  refine ⟨by simp, fun s => ?_⟩
  rw [accepts_star_iff, denotes_star_iff hps]
  simp only [h.accepts_iff]

theorem all : Same [.tree] ['*', '*'] := ⟨by simp, fun s => ⟨fun _ => .all s, fun _ => .all s⟩⟩

theorem dirs (h : Same ts ps) : Same (.tree :: ts) ('*' :: '*' :: '/' :: ps) := by
  refine ⟨by simp, fun s => ?_⟩
  by_cases hps : ps = []
  · obtain rfl := h.nil_iff.2 hps
    obtain rfl := hps
    exact ⟨fun _ => .allSlash s, fun _ => .all s⟩
  · have hts : ts ≠ [] := fun hts => hps (h.nil_iff.1 hts)
    rw [accepts_tree_iff hts, denotes_dirs_iff hps]
    simp only [h.accepts_iff]

end Same

theorem IsDirs.append {a b : List Char} (ha : IsDirs a) (hb : IsDirs b) : IsDirs (a ++ b) := by
  rcases hb with rfl | hb
  · rwa [List.append_nil]
  · exact .inr (by rw [List.getLast?_append, hb]; rfl)

theorem denotes_dirs_dirs_iff :
    Denotes ('*' :: '*' :: '/' :: '*' :: '*' :: '/' :: ps) s ↔
      Denotes ('*' :: '*' :: '/' :: ps) s := by
  rw [denotes_dirs_iff (by simp)]
  constructor
  · rintro ⟨dirs, rest, rfl, hdirs, h⟩
    by_cases hps : ps = []
    · subst hps
      exact .allSlash _
    · obtain ⟨more, rest, rfl, hmore, h⟩ := (denotes_dirs_iff hps).1 h
      rw [← List.append_assoc]
      exact .dirs hps (hdirs.append hmore) h
  · intro h
    exact ⟨[], s, rfl, .inl rfl, h⟩

/-- Is a `**` that follows these tokens, latest first, left out? -/
def Folds (read : List Token) : Prop := ∃ t ts, read = .tree :: t :: ts

theorem addTree_of_folds {read : List Token} (h : Folds read) : addTree read = read := by
  obtain ⟨t, ts, rfl⟩ := h
  rfl

theorem addTree_of_not_folds {read : List Token} (h : ¬ Folds read) :
    addTree read = .tree :: read := by
  rw [addTree]
  intro t ts hread
  exact h ⟨t, ts, hread⟩

/-- The tokens go on from those that are read as the rest of the pattern says, where a `**` that
was read last may stand for more of them. -/
def Continues (read : List Token) (ps : List Char) (tokens : List Token) : Prop :=
  ∃ ts, tokens = read.reverse ++ ts ∧ (Folds read → Same (.tree :: ts) ('*' :: '*' :: '/' :: ps)) ∧
    (¬ Folds read → Same ts ps)

/-- A token other than `**` is read, and what follows goes on behind it. -/
theorem Continues.cons {t : Token} {read tokens : List Token} {cs : List Char}
    (h : Continues (t :: read) ps tokens) (ht : t ≠ .tree)
    (hsame : ∀ ts, Same ts ps → Same (t :: ts) cs) : Continues read cs tokens := by
  obtain ⟨ts, rfl, -, hrest⟩ := h
  have hnot : ¬ Folds (t :: read) := by
    rintro ⟨t', ts', heq⟩
    exact ht (List.cons.inj heq).1
  have hcs := hsame ts (hrest hnot)
  exact ⟨t :: ts, by simp, fun _ => hcs.dirs, fun _ => hcs⟩

theorem continues_tree_end (read : List Token) :
    Continues read ['*', '*'] (addTree read).reverse := by
  by_cases hfolds : Folds read
  · rw [addTree_of_folds hfolds]
    refine ⟨[], by simp, fun _ => ⟨by simp, fun s => ?_⟩, absurd hfolds⟩
    exact ⟨fun _ => .dirs (by simp) (.inl rfl) (.all s), fun _ => .all s⟩
  · rw [addTree_of_not_folds hfolds]
    exact ⟨[.tree], by simp, (absurd · hfolds), fun _ => .all⟩

theorem Continues.tree {read tokens : List Token} (h : Continues (addTree read) ps tokens) :
    Continues read ('*' :: '*' :: '/' :: ps) tokens := by
  obtain ⟨ts, rfl, hfold, hplain⟩ := h
  by_cases hfolds : Folds read
  · rw [addTree_of_folds hfolds] at hfold ⊢
    have hsame := hfold hfolds
    refine ⟨ts, rfl, fun _ => ⟨by simp, fun s => ?_⟩, absurd hfolds⟩
    rw [denotes_dirs_dirs_iff]
    exact hsame.accepts_iff s
  · rw [addTree_of_not_folds hfolds] at hfold hplain ⊢
    refine ⟨.tree :: ts, by simp, (absurd · hfolds), fun _ => ?_⟩
    -- The `**` that opens a pattern takes no other one in.
    cases read with
    | nil =>
        have hnot : ¬ Folds [.tree] := by
          rintro ⟨t, ts, heq⟩
          cases heq
        exact (hplain hnot).dirs
    | cons t read => exact hfold ⟨t, read, rfl⟩

theorem continues_parseFrom {before : Option Char} {position : Nat} {read tokens : List Token}
    {cs : List Char} (h : parseFrom before position read cs = .ok tokens) :
    Continues read cs tokens := by
  fun_induction parseFrom before position read cs with
  | case1 before position read =>
      obtain rfl := Except.ok.inj h
      exact ⟨[], by simp, fun _ => Same.nil.dirs, fun _ => .nil⟩
  | case2 before position read cs ih =>
      refine (ih h).cons (by simp) fun ts hts => hts.char ⟨by simp, by simp⟩ (by simp) fun s => ?_
      simp [denotes_any_iff, Token.accepts]
  | case3 => cases h
  | case4 before position read =>
      obtain rfl := Except.ok.inj h
      exact continues_tree_end read
  | case5 before position read _ cs _ ih => exact (ih h).tree
  | case6 => cases h
  | case7 => cases h
  | case8 before position read cs _ hstar ih =>
      have hhead : cs.head? ≠ some '*' := by
        intro hhead
        obtain ⟨rest, hrest⟩ := List.head?_eq_some_iff.1 hhead
        exact hstar rest hrest
      exact (ih h).cons (by simp) fun ts hts => hts.star hhead
  | case9 before position read cs t rest hbracket _ ih =>
      have ht := isChar_of_bracket? hbracket
      exact (ih h).cons ht.2 fun ts hts => hts.char ht (by simp) fun s => denotes_bracket_iff hbracket
  | case10 => cases h
  | case11 before position read c cs hany _ _ hstar hopen ih =>
      refine (ih h).cons (by simp) fun ts hts => hts.char ⟨by simp, by simp⟩ (by simp) fun s => ?_
      simp [denotes_lit_iff hany hstar hopen, Token.accepts]

/-! ## Where `**` stands -/

/-- The tokens that are read, latest first, have `**` only where it may be, and if the character
before the rest allows a `**` then so do they. -/
structure Ready (before : Option Char) (read : List Token) : Prop where
  placed : Placed read.reverse
  last : before = none ∨ before = some '/' → ∀ t ∈ read.head?, t = .lit '/' ∨ t = .tree

namespace Ready

variable {before : Option Char} {read tokens : List Token}

theorem placed_cons {t : Token} (h : Placed read.reverse)
    (ht : t = .tree → ∀ a ∈ read.head?, a = .lit '/' ∨ a = .tree) : Placed (t :: read).reverse := by
  rw [List.reverse_cons, Placed, List.isChain_append]
  refine ⟨h, List.isChain_singleton t, fun a ha b hb hb' => ?_⟩
  obtain rfl : t = b := by simpa using hb
  exact ht hb' a (by simpa using ha)

theorem char (h : Ready before read) {t : Token} (ht : t ≠ .tree) {c : Char}
    (hc : c = '/' → t = .lit '/') : Ready (some c) (t :: read) := by
  refine ⟨placed_cons h.placed fun htree => absurd htree ht, ?_⟩
  rintro (hnone | hslash) a ha
  · cases hnone
  · obtain rfl : t = a := by simpa using ha
    exact .inl (hc (Option.some.inj hslash))

theorem tree (h : Ready before read) (hbefore : before = none ∨ before = some '/') :
    Ready (some '/') (addTree read) := by
  by_cases hfolds : Folds read
  · rw [addTree_of_folds hfolds]
    exact ⟨h.placed, fun _ => h.last hbefore⟩
  · rw [addTree_of_not_folds hfolds]
    refine ⟨placed_cons h.placed fun _ => h.last hbefore, fun _ a ha => ?_⟩
    obtain rfl : Token.tree = a := by simpa using ha
    exact .inr rfl

theorem parseFrom (h : Ready before read) {position : Nat} {cs : List Char}
    (hparse : Glob.parseFrom before position read cs = .ok tokens) : Placed tokens := by
  fun_induction Glob.parseFrom before position read cs with
  | case1 before position read =>
      obtain rfl := Except.ok.inj hparse
      exact h.placed
  | case2 before position read cs ih => exact ih (h.char (by simp) (by simp)) hparse
  | case3 => cases hparse
  | case4 before position read hbefore =>
      obtain rfl := Except.ok.inj hparse
      exact (h.tree hbefore).placed
  | case5 before position read hbefore cs _ ih => exact ih (h.tree hbefore) hparse
  | case6 => cases hparse
  | case7 => cases hparse
  | case8 before position read cs _ _ ih => exact ih (h.char (by simp) (by simp)) hparse
  | case9 before position read cs t rest hbracket _ ih =>
      exact ih (h.char (isChar_of_bracket? hbracket).2 (by simp)) hparse
  | case10 => cases hparse
  | case11 before position read c cs _ _ _ _ _ ih =>
      exact ih (h.char (by simp) fun hc => congrArg Token.lit hc) hparse

end Ready

/-! ## What is excluded -/

/-- The matcher finds exactly the texts that the pattern denotes. -/
theorem matchesText_iff {text : String} {p : Pattern} (h : Pattern.parse text = .ok p) (s : String) :
    p.matchesText s = true ↔ Denotes text.toList s.toList := by
  rw [Pattern.parse] at h
  obtain ⟨tokens, htokens, rfl⟩ : ∃ tokens, parseFrom none 0 [] text.toList = .ok tokens ∧
      (⟨text, tokens⟩ : Pattern) = p := by
    cases hparse : parseFrom none 0 [] text.toList with
    | error e =>
        rw [hparse] at h
        cases h
    | ok tokens =>
        rw [hparse] at h
        exact ⟨tokens, rfl, Except.ok.inj h⟩
  have hready : Ready none [] := ⟨List.isChain_nil, by simp⟩
  have hnot : ¬ Folds [] := by
    rintro ⟨t, ts, heq⟩
    cases heq
  obtain ⟨ts, rfl, -, hsame⟩ := continues_parseFrom htokens
  rw [Pattern.matchesText, beq_iff_eq, matchTokens_iff_accepts (hready.parseFrom htokens)]
  exact (hsame hnot).accepts_iff s.toList

theorem parseFrom_bracket {cs rest : List Char} {token : Token}
    (h : bracket? cs = some (token, rest)) (before : Option Char) (position : Nat)
    (read : List Token) :
    parseFrom before position read ('[' :: cs) =
      parseFrom (some ']') (position + 1 + (cs.length - rest.length)) (token :: read) rest := by
  rw [parseFrom]
  split
  · rename_i token' rest' h'
    cases h.symm.trans h'
    rfl
  · rename_i h'
    cases h.symm.trans h'

/-- A pattern excludes a path exactly if it denotes the text of the path or of one of its
ancestors other than the empty one.  So it excludes all that has an excluded path among its
ancestors.  A name in a directory is excluded exactly if the pattern denotes it or excludes the
directory without the idle pieces at its end, and then so are all names below it.  What is excluded
but not without these pieces is denoted as it is spelt. -/
theorem excludes_iff_denotes {text : String} {p : Pattern} (h : Pattern.parse text = .ok p)
    (path : Path) :
    (p.excludes path = true ↔
      ∃ a ∈ path.ancestors, a.text ≠ "" ∧ Denotes text.toList a.text.toList) ∧
    (p.excludes path = true → ∀ below : Path, path ∈ below.ancestors → p.excludes below = true) ∧
    (∀ n, Path.IsName n → (p.excludes (path.join ⟨n⟩) = true ↔
      Denotes text.toList (path.join ⟨n⟩).text.toList ∨ p.excludes path.trimmed = true)) ∧
    (p.excludes path.trimmed = true → ∀ names, Path.AreNames names → names ≠ [] →
      p.excludes (names.foldl (fun dir n => dir.join ⟨n⟩) path) = true) ∧
    (p.excludes path = true → p.excludes path.trimmed = true ∨
      path.trimmed ≠ path ∧ Denotes text.toList path.text.toList) := by
  have hiff : ∀ path : Path, p.excludes path = true ↔
      ∃ a ∈ path.ancestors, a.text ≠ "" ∧ Denotes text.toList a.text.toList := by
    intro path
    simp only [Pattern.excludes, List.any_eq_true, Bool.and_eq_true, bne_iff_ne, matchesText_iff h]
  refine ⟨hiff path, ?_, ?_, ?_, ?_⟩
  · intro hpath below hmem
    obtain ⟨a, ha, hne, hdenotes⟩ := (hiff path).1 hpath
    exact (hiff below).2 ⟨a, Path.mem_ancestors_trans hmem ha, hne, hdenotes⟩
  · intro n hn
    rw [hiff, hiff]
    constructor
    · rintro ⟨a, ha, hne, hdenotes⟩
      rcases (Path.mem_ancestors_join_iff hn).1 ha with rfl | ha
      · exact .inl hdenotes
      · exact .inr ⟨a, ha, hne, hdenotes⟩
    · rintro (hdenotes | ⟨a, ha, hne, hdenotes⟩)
      · exact ⟨_, Path.mem_ancestors_self _, Path.join_text_ne_empty path hn, hdenotes⟩
      · exact ⟨a, (Path.mem_ancestors_join_iff hn).2 (.inr ha), hne, hdenotes⟩
  · intro htrimmed names hnames hne
    obtain ⟨a, ha, hnonempty, hdenotes⟩ := (hiff _).1 htrimmed
    exact (hiff _).2 ⟨a, Path.mem_ancestors_below hnames hne ha, hnonempty, hdenotes⟩
  · intro hpath
    obtain ⟨a, ha, hne, hdenotes⟩ := (hiff path).1 hpath
    rcases Path.mem_ancestors_of_trimmed ha with rfl | ha
    · by_cases heq : a.trimmed = a
      · exact .inl (heq.symm ▸ hpath)
      · exact .inr ⟨heq, hdenotes⟩
    · exact .inl ((hiff _).2 ⟨a, ha, hne, hdenotes⟩)

/-- A pattern with `**`, a class and both other wildcards. -/
def classPattern : Pattern :=
  ⟨"**/[!b-d]?/x*", [.tree, .noneOf [('b', 'd')], .any, .lit '/', .lit 'x', .star]⟩

/-- The directory `docs/ab/xyz` is denoted, so it is excluded and what is in it as well, also where
it is spelt with a slash at its end. -/
theorem excludes_iff_denotes_class :
    Pattern.parse "**/[!b-d]?/x*" = .ok classPattern ∧
    classPattern.excludes ⟨"docs/ab/xyz"⟩ = true ∧
    classPattern.excludes ⟨"docs/ab/xyz//index.rst"⟩ = true ∧
    Path.trimmed ⟨"docs/ab/xyz/"⟩ = ⟨"docs/ab/xyz"⟩ ∧ Path.AreNames ["goals", "run.rst"] ∧
    classPattern.excludes ⟨"docs/ab/xyz/goals/run.rst"⟩ = true := by
  have hbracket : bracket? ['!', 'b', '-', 'd', ']', '?', '/', 'x', '*'] =
      some (.noneOf [('b', 'd')], ['?', '/', 'x', '*']) := by rfl
  have hparse : Pattern.parse "**/[!b-d]?/x*" = .ok classPattern := by
    have htext : "**/[!b-d]?/x*".toList =
        ['*', '*', '/', '[', '!', 'b', '-', 'd', ']', '?', '/', 'x', '*'] := by rfl
    rw [Pattern.parse, htext]
    simp [↓parseFrom_bracket hbracket, parseFrom, addTree, Except.map, classPattern]
  have hrun : Denotes ['*'] (['y', 'z'] ++ []) := .star (by simp) (by simp) .nil
  have hname : Denotes ['?', '/', 'x', '*'] ['b', '/', 'x', 'y', 'z'] :=
    .any (by decide) (.lit (by decide) (by decide) (by decide)
      (.lit (by decide) (by decide) (by decide) hrun))
  have hout : ¬ InClass ['b', '-', 'd'] 'a' := by
    rw [← inRanges_rangesOf_iff]
    decide
  have hclass : Denotes ('[' :: '!' :: 'b' :: (['-', 'd'] ++ ']' :: ['?', '/', 'x', '*']))
      ['a', 'b', '/', 'x', 'y', 'z'] := .noneOf (by simp) (by decide) hout hname
  have hdirs : IsDirs ['d', 'o', 'c', 's', '/'] := .inr rfl
  have hdenotes : Denotes "**/[!b-d]?/x*".toList "docs/ab/xyz".toList :=
    Denotes.dirs (by simp) hdirs hclass
  obtain ⟨hiff, hbelow, -⟩ := excludes_iff_denotes hparse ⟨"docs/ab/xyz"⟩
  obtain ⟨-, -, -, hnames, -⟩ := excludes_iff_denotes hparse ⟨"docs/ab/xyz/"⟩
  have hex := hiff.2 ⟨_, Path.mem_ancestors_self _, by decide, hdenotes⟩
  have htrimmed : Path.trimmed ⟨"docs/ab/xyz/"⟩ = ⟨"docs/ab/xyz"⟩ := by decide
  have hare : Path.AreNames ["goals", "run.rst"] := by decide
  exact ⟨hparse, hex, hbelow hex _ (by decide), htrimmed, hare,
    hnames (htrimmed.symm ▸ hex) _ hare (by simp)⟩

/-- The pattern `a/` denotes the path `a/` and nothing else: not what lies in it, whose ancestor is
spelt `a`. -/
theorem excludes_slash_not_below :
    ∃ p, Pattern.parse "a/" = .ok p ∧ p.excludes ⟨"a/"⟩ = true ∧
      p.excludes (Path.join ⟨"a/"⟩ ⟨"b.rst"⟩) = false := by
  refine ⟨⟨"a/", [.lit 'a', .lit '/']⟩, ?_, by decide, by decide⟩
  have htext : "a/".toList = ['a', '/'] := rfl
  rw [Pattern.parse, htext]
  simp [parseFrom, Except.map]

end DocStamp.Glob
