/-
# The search for a match finds every match

`Accepts ts s` says which texts a list of tokens stands for, one rule for
each kind of token and no order among the rules.  The matcher tries the
ends of a wildcard one after the other, and gives the search up as soon
as a text is too short for what is left of the tokens.

Giving up loses nothing: where a text is too short, no later end of an
earlier wildcard can help (`final_matchTokens`).  Behind `**` this rests
on where patterns can have it, alone between slashes: the ends that are
tried are those where the rest of the pattern can begin.
-/
import DocStamp.Glob.Match
import Mathlib.Data.List.Chain

namespace DocStamp.Glob

variable {ts : List Token} {t : Token} {s r : List Char} {next : List Char → Outcome}

/-- What `**` stands for where more follows: nothing, or a text that ends with a slash. -/
def IsDirs (dirs : List Char) : Prop := dirs = [] ∨ dirs.getLast? = some '/'

/-- The texts that tokens stand for. -/
inductive Accepts : List Token → List Char → Prop
  | nil : Accepts [] []
  | char {t : Token} {ts : List Token} {c : Char} {s : List Char} : t.accepts c = true →
      Accepts ts s → Accepts (t :: ts) (c :: s)
  | star {ts : List Token} {run s : List Char} : '/' ∉ run → Accepts ts s →
      Accepts (.star :: ts) (run ++ s)
  | dirs {ts : List Token} {dirs s : List Char} : ts ≠ [] → IsDirs dirs → Accepts ts s →
      Accepts (.tree :: ts) (dirs ++ s)
  | all (s : List Char) : Accepts [.tree] s

/-- `**` opens the tokens, or stands behind a slash or another `**`. -/
def Placed (ts : List Token) : Prop :=
  ts.IsChain fun a b => b = .tree → a = .lit '/' ∨ a = .tree

/-- Is this a token for one character? -/
def Token.IsChar (t : Token) : Prop := t ≠ .star ∧ t ≠ .tree

/-! ## What is accepted -/

theorem accepts_nil_iff : Accepts [] s ↔ s = [] := by
  constructor
  · rintro ⟨⟩
    rfl
  · rintro rfl
    exact .nil

theorem accepts_char_iff (ht : t.IsChar) :
    Accepts (t :: ts) s ↔ ∃ c rest, s = c :: rest ∧ t.accepts c = true ∧ Accepts ts rest := by
  constructor
  · intro h
    cases h with
    | char hc h => exact ⟨_, _, rfl, hc, h⟩
    | star _ _ => exact absurd rfl ht.1
    | dirs _ _ _ => exact absurd rfl ht.2
    | all _ => exact absurd rfl ht.2
  · rintro ⟨c, rest, rfl, hc, h⟩
    exact .char hc h

theorem accepts_star_iff :
    Accepts (.star :: ts) s ↔ ∃ run rest, s = run ++ rest ∧ '/' ∉ run ∧ Accepts ts rest := by
  constructor
  · intro h
    cases h with
    | char hc _ => cases hc
    | star hrun h => exact ⟨_, _, rfl, hrun, h⟩
  · rintro ⟨run, rest, rfl, hrun, h⟩
    exact .star hrun h

theorem accepts_tree_iff (hne : ts ≠ []) :
    Accepts (.tree :: ts) s ↔ ∃ dirs rest, s = dirs ++ rest ∧ IsDirs dirs ∧ Accepts ts rest := by
  constructor
  · intro h
    cases h with
    | char hc _ => cases hc
    | dirs _ hdirs h => exact ⟨_, _, rfl, hdirs, h⟩
    | all _ => exact absurd rfl hne
  · rintro ⟨dirs, rest, rfl, hdirs, h⟩
    exact .dirs hne hdirs h

/-- Tokens that accept nothing at all as well are wildcards: they accept every name. -/
theorem Accepts.of_nil (h : Accepts ts []) (hne : ts ≠ []) (hr : '/' ∉ r) : Accepts ts r := by
  generalize hs : ([] : List Char) = s at h
  induction h with
  | nil => exact absurd rfl hne
  | char _ _ => cases hs
  | star _ h _ =>
      obtain ⟨-, rfl⟩ := List.append_eq_nil_iff.1 hs.symm
      have hall := Accepts.star hr h
      rwa [List.append_nil] at hall
  | dirs hne' _ _ ih =>
      obtain ⟨-, hrest⟩ := List.append_eq_nil_iff.1 hs.symm
      exact .dirs hne' (.inl rfl) (ih hne' hrest.symm)
  | all _ => exact .all r

theorem exists_isDirs (s : List Char) : ∃ dirs name, s = dirs ++ name ∧ IsDirs dirs ∧ '/' ∉ name := by
  induction s with
  | nil => exact ⟨[], [], rfl, .inl rfl, by simp⟩
  | cons c s ih =>
      obtain ⟨dirs, name, rfl, rfl | hlast, hname⟩ := ih
      · by_cases hc : c = '/'
        · exact ⟨['/'], name, by rw [hc]; rfl, .inr rfl, hname⟩
        · exact ⟨[], c :: name, rfl, .inl rfl, by simp [Ne.symm hc, hname]⟩
      · refine ⟨c :: dirs, name, rfl, .inr ?_, hname⟩
        rw [List.getLast?_cons, hlast]
        rfl

/-! ## Where the search may stop -/

/-- Where a `**` can end further on: at the end, or behind a slash. -/
def Later (s r : List Char) : Prop := r = [] ∨ ∃ a, s = a ++ '/' :: r

/-- Where a `**` can end: here or further on. -/
def TreeEnds (s r : List Char) : Prop := r = s ∨ Later s r

theorem later_cons_iff {c : Char} : Later (c :: s) r ↔ (c = '/' ∧ r = s) ∨ Later s r := by
  constructor
  · rintro (rfl | ⟨a, ha⟩)
    · exact .inr (.inl rfl)
    · cases a with
      | nil =>
          obtain ⟨rfl, rfl⟩ := List.cons.inj ha
          exact .inl ⟨rfl, rfl⟩
      | cons d a =>
          obtain ⟨rfl, rfl⟩ := List.cons.inj ha
          exact .inr (.inr ⟨a, rfl⟩)
  · rintro (⟨rfl, rfl⟩ | rfl | ⟨a, rfl⟩)
    · exact .inr ⟨[], rfl⟩
    · exact .inl rfl
    · exact .inr ⟨c :: a, rfl⟩

theorem TreeEnds.suffix (h : TreeEnds s r) : r <:+ s := by
  rcases h with rfl | rfl | ⟨a, rfl⟩
  · exact List.suffix_rfl
  · exact List.nil_suffix
  · exact ⟨a ++ ['/'], by simp⟩

theorem TreeEnds.trans {u : List Char} (h : TreeEnds s r) (h' : TreeEnds r u) : TreeEnds s u := by
  rcases h' with rfl | rfl | ⟨b, rfl⟩
  · exact h
  · exact .inr (.inl rfl)
  · rcases h with rfl | hnil | ⟨a, rfl⟩
    · exact .inr (.inr ⟨b, rfl⟩)
    · cases (List.append_eq_nil_iff.1 hnil).2
    · exact .inr (.inr ⟨a ++ '/' :: b, by simp⟩)

/-- A text that is too short stays too short: none of the texts related to it is matched. -/
def Final (related : List Char → List Char → Prop) (next : List Char → Outcome) : Prop :=
  ∀ s, next s = .short → ∀ r, related s r → next r ≠ .matched

theorem Final.toTreeEnds (h : Final (fun s r => r <:+ s) next) : Final TreeEnds next :=
  fun s hs r hr => h s hs r hr.suffix

theorem exists_of_matchStar (h : matchStar next s = .matched) :
    ∃ run rest, s = run ++ rest ∧ '/' ∉ run ∧ next rest = .matched := by
  induction s with
  | nil => exact ⟨[], [], rfl, by simp, h⟩
  | cons c s ih =>
      unfold matchStar at h
      split at h
      · split at h
        · cases h
        · rename_i hc
          obtain ⟨run, rest, rfl, hrun, hrest⟩ := ih h
          exact ⟨c :: run, rest, rfl, by simp [Ne.symm hc, hrun], hrest⟩
      · exact ⟨[], c :: s, rfl, by simp, h⟩

theorem matchStar_of_append (hfinal : Final (fun s r => r <:+ s) next) {run rest : List Char}
    (hrun : '/' ∉ run) (h : next rest = .matched) : matchStar next (run ++ rest) = .matched := by
  induction run with
  | nil =>
      rw [List.nil_append]
      cases rest with
      | nil => exact h
      | cons c rest => rw [matchStar, h]
  | cons c run ih =>
      have hc : c ≠ '/' := fun e => hrun (e ▸ List.mem_cons_self)
      have ih := ih fun hmem => hrun (List.mem_cons_of_mem _ hmem)
      rw [List.cons_append, matchStar]
      cases hnext : next (c :: (run ++ rest)) with
      | matched => rfl
      | mismatch =>
          rw [if_neg hc]
          exact ih
      | short => exact absurd h (hfinal _ hnext rest ⟨c :: run, rfl⟩)

theorem final_matchStar (hfinal : Final (fun s r => r <:+ s) next) :
    Final (fun s r => r <:+ s) (matchStar next) := by
  intro s hs r hr hmatched
  obtain ⟨run, rest, rfl, -, hrest⟩ := exists_of_matchStar hmatched
  induction s with
  | nil =>
      obtain ⟨-, rfl⟩ := List.append_eq_nil_iff.1 (List.suffix_nil.1 hr)
      exact hfinal [] hs [] List.suffix_rfl hrest
  | cons c s ih =>
      have hall := hs
      unfold matchStar at hs
      split at hs
      · split at hs
        · cases hs
        · -- Either the whole text has been tried before, or the end lies further on.
          rcases List.suffix_cons_iff.1 hr with heq | hr
          · rw [heq, hall] at hmatched
            cases hmatched
          · exact ih hs hr
      · exact hfinal _ hs rest ((List.suffix_append run rest).trans hr) hrest

theorem matchBehindSlash_iff (hfinal : Final TreeEnds next) :
    matchBehindSlash next s = .matched ↔ ∃ r, Later s r ∧ next r = .matched := by
  induction s with
  | nil =>
      constructor
      · intro h
        exact ⟨[], .inl rfl, h⟩
      · rintro ⟨r, rfl | ⟨a, ha⟩, h⟩
        · exact h
        · cases (List.append_eq_nil_iff.1 ha.symm).2
  | cons c s ih =>
      have hlater : (∃ r, Later (c :: s) r ∧ next r = .matched) ↔
          (c = '/' ∧ next s = .matched) ∨ ∃ r, Later s r ∧ next r = .matched := by
        simp only [later_cons_iff, or_and_right, exists_or, and_assoc, exists_eq_left,
          exists_and_left]
      rw [hlater, ← ih, matchBehindSlash]
      by_cases hc : c = '/'
      · rw [if_pos hc]
        cases hnext : next s with
        | matched => simp [hc]
        | mismatch => simp
        | short =>
            have hnone : ¬ matchBehindSlash next s = .matched := by
              intro hmatched
              obtain ⟨r, hr, h⟩ := ih.1 hmatched
              exact hfinal s hnext r (.inr hr) h
            simp [hnone]
      · simp [hc]

theorem matchTree_iff (hfinal : Final TreeEnds next) :
    matchTree next s = .matched ↔ ∃ r, TreeEnds s r ∧ next r = .matched := by
  have hends : (∃ r, TreeEnds s r ∧ next r = .matched) ↔
      next s = .matched ∨ matchBehindSlash next s = .matched := by
    simp only [TreeEnds, or_and_right, exists_or, exists_eq_left, matchBehindSlash_iff hfinal]
  rw [hends, matchTree]
  cases hnext : next s with
  | matched => simp
  | mismatch => simp
  | short =>
      have hnone : ¬ matchBehindSlash next s = .matched := by
        rw [matchBehindSlash_iff hfinal]
        rintro ⟨r, hr, h⟩
        exact hfinal s hnext r (.inr hr) h
      simp [hnone]

theorem final_matchTree (hfinal : Final TreeEnds next) : Final TreeEnds (matchTree next) := by
  intro s hs r hr hmatched
  obtain ⟨u, hu, h⟩ := (matchTree_iff hfinal).1 hmatched
  have hearlier := (matchTree_iff hfinal).2 ⟨u, hr.trans hu, h⟩
  rw [hs] at hearlier
  cases hearlier

/-! ## The whole search -/

theorem matchTokens_char_nil (ht : t.IsChar) : matchTokens (t :: ts) [] = .short := by
  cases t with
  | star => exact absurd rfl ht.1
  | tree => exact absurd rfl ht.2
  | lit | any | oneOf | noneOf => rfl

theorem matchTokens_char_cons (ht : t.IsChar) (c : Char) (s : List Char) :
    matchTokens (t :: ts) (c :: s) =
      if t.accepts c = true then matchTokens ts s else .mismatch := by
  cases t with
  | star => exact absurd rfl ht.1
  | tree => exact absurd rfl ht.2
  | lit | any | oneOf | noneOf => rfl

theorem matchTokens_char_iff (ht : t.IsChar) :
    matchTokens (t :: ts) s = .matched ↔
      ∃ c rest, s = c :: rest ∧ t.accepts c = true ∧ matchTokens ts rest = .matched := by
  cases s with
  | nil =>
      rw [matchTokens_char_nil ht]
      simp
  | cons c s =>
      rw [matchTokens_char_cons ht]
      by_cases hc : t.accepts c = true <;> simp [hc]

theorem Placed.behind (h : Placed (t :: ts)) (ht : t.IsChar) (hhead : ts.head? = some .tree) :
    t = .lit '/' := by
  cases ts with
  | nil => cases hhead
  | cons t' ts =>
      have hor := (List.isChain_cons_cons.1 h).1 (Option.some.inj hhead)
      exact hor.resolve_right ht.2

theorem Placed.head_ne_tree (h : Placed (.star :: ts)) : ts.head? ≠ some .tree := by
  intro hhead
  cases ts with
  | nil => cases hhead
  | cons t' ts =>
      rcases (List.isChain_cons_cons.1 h).1 (Option.some.inj hhead) with hlit | htree
      · cases hlit
      · cases htree

theorem Placed.tail (h : Placed (t :: ts)) : Placed ts := List.IsChain.tail h

/-- Where a text is too short for tokens, it is so at every place where they could begin: at
those where a `**` ends, and everywhere unless they open with `**` themselves. -/
theorem final_matchTokens (h : Placed ts) :
    Final TreeEnds (matchTokens ts) ∧
      (ts.head? ≠ some .tree → Final (fun s r => r <:+ s) (matchTokens ts)) := by
  induction ts with
  | nil =>
      have hnever : ∀ s, matchTokens [] s ≠ .short := by
        intro s
        cases s <;> simp [matchTokens]
      exact ⟨fun s hs => absurd hs (hnever s), fun _ s hs => absurd hs (hnever s)⟩
  | cons t ts ih =>
      obtain ⟨ihends, ihsuffix⟩ := ih h.tail
      by_cases hchar : t.IsChar
      · have hfinal : Final (fun s r => r <:+ s) (matchTokens (t :: ts)) := by
          intro s hs r hr hmatched
          obtain ⟨d, rest, rfl, hd, hrest⟩ := (matchTokens_char_iff hchar).1 hmatched
          cases s with
          | nil => cases List.suffix_nil.1 hr
          | cons c s =>
              have hwhole := hs
              rw [matchTokens_char_cons hchar] at hs
              split at hs
              · rcases List.suffix_cons_iff.1 hr with heq | hr
                · rw [heq, hwhole] at hmatched
                  cases hmatched
                · by_cases hhead : ts.head? = some .tree
                  · -- The token is a slash, so what follows begins where a `**` can end.
                    obtain rfl := h.behind hchar hhead
                    obtain rfl : d = '/' := by simpa [Token.accepts] using hd
                    obtain ⟨a, ha⟩ := hr
                    exact ihends s hs rest (.inr (.inr ⟨a, ha.symm⟩)) hrest
                  · exact ihsuffix hhead s hs rest ((List.suffix_cons d rest).trans hr) hrest
              · cases hs
        exact ⟨hfinal.toTreeEnds, fun _ => hfinal⟩
      · cases t with
        | star =>
            have hfinal := final_matchStar (ihsuffix h.head_ne_tree)
            exact ⟨hfinal.toTreeEnds, fun _ => hfinal⟩
        | tree => exact ⟨final_matchTree ihends, fun hne => absurd rfl hne⟩
        | lit | any | oneOf | noneOf => exact absurd ⟨by simp, by simp⟩ hchar

/-- The matcher finds a match exactly if the tokens accept the text. -/
theorem matchTokens_iff_accepts (h : Placed ts) (s : List Char) :
    matchTokens ts s = .matched ↔ Accepts ts s := by
  induction ts generalizing s with
  | nil =>
      rw [accepts_nil_iff]
      cases s <;> simp [matchTokens]
  | cons t ts ih =>
      have ih := ih h.tail
      obtain ⟨hends, hsuffix⟩ := final_matchTokens h.tail
      by_cases hchar : t.IsChar
      · simp only [matchTokens_char_iff hchar, accepts_char_iff hchar, ih]
      · cases t with
        | star =>
            simp only [accepts_star_iff, ← ih]
            constructor
            · exact exists_of_matchStar
            · rintro ⟨run, rest, rfl, hrun, hrest⟩
              exact matchStar_of_append (hsuffix h.head_ne_tree) hrun hrest
        | tree =>
            rw [matchTokens, matchTree_iff hends]
            simp only [ih]
            by_cases hne : ts = []
            · subst hne
              exact ⟨fun _ => .all s, fun _ => ⟨[], .inr (.inl rfl), .nil⟩⟩
            · rw [accepts_tree_iff hne]
              constructor
              · rintro ⟨r, rfl | rfl | ⟨a, rfl⟩, hr⟩
                · exact ⟨[], r, rfl, .inl rfl, hr⟩
                · -- Nothing is left for the rest, which then accepts every name.
                  obtain ⟨dirs, name, rfl, hdirs, hname⟩ := exists_isDirs s
                  exact ⟨dirs, name, rfl, hdirs, hr.of_nil hne hname⟩
                · exact ⟨a ++ ['/'], r, by simp, .inr (by simp), hr⟩
              · rintro ⟨dirs, rest, rfl, rfl | hlast, hrest⟩
                · exact ⟨rest, .inl rfl, hrest⟩
                · obtain ⟨a, rfl⟩ := List.getLast?_eq_some_iff.1 hlast
                  exact ⟨rest, .inr (.inr ⟨a, by simp⟩), hrest⟩
        | lit | any | oneOf | noneOf => exact absurd ⟨by simp, by simp⟩ hchar

end DocStamp.Glob
