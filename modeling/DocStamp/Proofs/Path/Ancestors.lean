/-
# The chain of ancestors

`Path.ancestors` goes from a path to its parent until there is none, and
counts the steps that it may take by the length of the text.  The count
is never used up, since a parent is shorter than its path
(`length_parent?_lt`).  So the ancestors are the path and the ancestors
of its parent (`mem_ancestors_iff`), and what is above an ancestor is an
ancestor (`mem_ancestors_trans`).

Nothing is asked of the paths here: idle pieces, dots and repeated
slashes may stand anywhere in them.
-/
import DocStamp.Proofs.Path.Pieces
import Mathlib.Data.List.TakeWhile

namespace DocStamp.Path

variable {p q a b : Path}

/-! ## The shape of a path gives it back -/

theorem joinPieces_piecesOf (s : String) : joinPieces (piecesOf s) = s := by
  obtain ⟨cs, rfl⟩ := s.exists_eq_ofList
  rw [piecesOf, String.toList_ofList]
  induction cs with
  | nil => rfl
  | cons c cs ih =>
      obtain ⟨piece, pieces, hcs⟩ := List.exists_cons_of_ne_nil (splitSlash_ne_nil cs)
      rw [hcs] at ih
      by_cases hc : c = '/'
      · rw [splitSlash, if_pos hc, hcs, List.map_cons, joinPieces_cons (by simp), ih, hc]
        simp [String.ofList_cons]
      · rw [splitSlash, if_neg hc, hcs, String.ofList_cons, ← ih]
        cases pieces with
        | nil => simp [joinPieces, String.ofList_cons]
        | cons next pieces => simp [joinPieces, String.ofList_cons, String.append_assoc]

theorem shape_of_pieces {piece : String} {rest : List String}
    (h : piecesOf p.text = piece :: rest) (hne : piece = "" → rest ≠ []) :
    p.shape = if piece = "" then (.root, rest) else if piece = "." then (.here, rest)
      else (.bare, piece :: rest) := by
  rw [shape, h]
  by_cases hempty : piece = ""
  · subst hempty
    cases rest with
    | nil => exact absurd rfl (hne rfl)
    | cons next rest => rfl
  · by_cases hhere : piece = "."
    · subst hhere
      rfl
    · rw [if_neg hempty, if_neg hhere]
      split <;> simp_all

theorem shape_of_empty (h : piecesOf p.text = [""]) : p.shape = (.bare, []) := by
  simp [shape, h]

/-- The four shapes: nothing, a path from the root, one from here, and one without a lead. -/
theorem shape_cases (p : Path) :
    (piecesOf p.text = [""] ∧ p.shape = (.bare, [])) ∨
    (∃ rest, rest ≠ [] ∧ piecesOf p.text = "" :: rest ∧ p.shape = (.root, rest)) ∨
    (∃ rest, piecesOf p.text = "." :: rest ∧ p.shape = (.here, rest)) ∨
    ∃ piece rest, piece ≠ "" ∧ piece ≠ "." ∧ piecesOf p.text = piece :: rest ∧
      p.shape = (.bare, piece :: rest) := by
  obtain ⟨piece, rest, hp⟩ := List.exists_cons_of_ne_nil (piecesOf_ne_nil p.text)
  by_cases hempty : piece = ""
  · subst hempty
    by_cases hrest : rest = []
    · rw [hrest] at hp
      exact .inl ⟨hp, shape_of_empty hp⟩
    · exact .inr (.inl ⟨rest, hrest, hp, shape_of_pieces hp fun _ => hrest⟩)
  · have hshape := shape_of_pieces hp fun he => absurd he hempty
    rw [if_neg hempty] at hshape
    by_cases hhere : piece = "."
    · subst hhere
      exact .inr (.inr (.inl ⟨rest, hp, hshape⟩))
    · rw [if_neg hhere] at hshape
      exact .inr (.inr (.inr ⟨piece, rest, hempty, hhere, hp, hshape⟩))

theorem ofShape_shape (p : Path) : ofShape p.shape.1 p.shape.2 = p := by
  have htext := joinPieces_piecesOf p.text
  rcases p.shape_cases with ⟨hp, hshape⟩ | ⟨rest, hne, hp, hshape⟩ | ⟨rest, hp, hshape⟩ |
    ⟨piece, rest, -, -, hp, hshape⟩ <;> rw [hp] at htext <;> rw [hshape]
  · exact congrArg mk htext
  · rw [joinPieces_cons hne, String.empty_append] at htext
    exact congrArg mk htext
  · exact congrArg mk htext
  · exact congrArg mk htext

theorem mem_piecesOf_of_mem_body {x : String} (h : x ∈ p.shape.2) : x ∈ piecesOf p.text := by
  rcases p.shape_cases with ⟨-, hshape⟩ | ⟨rest, -, hp, hshape⟩ | ⟨rest, hp, hshape⟩ |
    ⟨piece, rest, -, -, hp, hshape⟩ <;> rw [hshape] at h
  · cases h
  · exact hp ▸ List.mem_cons_of_mem _ h
  · exact hp ▸ List.mem_cons_of_mem _ h
  · exact hp ▸ h

theorem slash_not_mem_body {x : String} (h : x ∈ p.shape.2) : '/' ∉ x.toList := by
  intro hslash
  exact (mem_piecesOf_iff.1 ⟨x, mem_piecesOf_of_mem_body h, hslash⟩).2 rfl

/-- The body of a path without a lead begins with a piece that is no lead. -/
theorem head_ne_of_bare {x : String} {body : List String} (hlead : p.shape.1 = .bare)
    (h : p.shape.2 = x :: body) : x ≠ "" ∧ x ≠ "." := by
  rcases p.shape_cases with ⟨-, hshape⟩ | ⟨rest, -, -, hshape⟩ | ⟨rest, -, hshape⟩ |
    ⟨piece, rest, hempty, hhere, -, hshape⟩ <;> rw [hshape] at h hlead
  · cases h
  · cases hlead
  · cases hlead
  · obtain rfl := (List.cons.inj h).1
    exact ⟨hempty, hhere⟩

/-! ## A parent is shorter than its path -/

theorem joinPieces_append {ps qs : List String} (hp : ps ≠ []) (hq : qs ≠ []) :
    joinPieces (ps ++ qs) = joinPieces ps ++ "/" ++ joinPieces qs := by
  induction ps with
  | nil => exact absurd rfl hp
  | cons x ps ih =>
      by_cases hps : ps = []
      · subst hps
        exact joinPieces_cons hq
      · rw [List.cons_append, joinPieces_cons (by simp [hps]), ih hps, joinPieces_cons hps]
        simp [String.append_assoc]

theorem length_le_joinPieces {x : String} {ps : List String} (h : x ∈ ps) :
    x.length ≤ (joinPieces ps).length := by
  obtain ⟨before, behind, rfl⟩ := List.append_of_mem h
  have hx : x.length ≤ (joinPieces (x :: behind)).length := by
    cases behind with
    | nil => exact Nat.le_refl _
    | cons next behind =>
        rw [joinPieces_cons (by simp), String.length_append, String.length_append]
        omega
  by_cases hbefore : before = []
  · subst hbefore
    exact hx
  · rw [joinPieces_append hbefore (by simp), String.length_append]
    omega

theorem length_joinPieces_lt (ps : List String) {x : String} {qs : List String} (hx : x ∈ qs)
    (hne : x ≠ "") : (joinPieces ps).length < (joinPieces (ps ++ qs)).length := by
  by_cases hps : ps = []
  · subst hps
    have hpos : 0 < x.length := Nat.pos_of_ne_zero fun h => hne (String.length_eq_zero_iff.1 h)
    exact Nat.lt_of_lt_of_le hpos (length_le_joinPieces hx)
  · rw [joinPieces_append hps (List.ne_nil_of_mem hx), String.length_append, String.length_append]
    have hslash : "/".length = 1 := rfl
    omega

theorem length_ofShape_lt (lead : Lead) (ps qs : List String) {x : String} (hx : x ∈ qs)
    (hne : x ≠ "") :
    (ofShape lead ps).text.length < (ofShape lead (ps ++ qs)).text.length := by
  cases lead with
  | root =>
      have hlt := length_joinPieces_lt ps hx hne
      simp only [ofShape, String.length_append]
      omega
  | here => exact length_joinPieces_lt ("." :: ps) hx hne
  | bare => exact length_joinPieces_lt ps hx hne

theorem trimEnd_prefix (body : List String) : trimEnd body <+: body := by
  have h := List.dropWhile_suffix isIdle (l := body.reverse)
  rw [← List.reverse_prefix, List.reverse_reverse] at h
  exact h

theorem isIdle_of_trimEnd {body init : List String} {x : String}
    (h : trimEnd body = init ++ [x]) : isIdle x = false := by
  have hrev : body.reverse.dropWhile isIdle = x :: init.reverse := by
    rw [← List.reverse_reverse (body.reverse.dropWhile isIdle)]
    exact (congrArg List.reverse h).trans (by simp)
  have hhead := List.head?_dropWhile_not isIdle body.reverse
  rw [hrev] at hhead
  simpa using hhead

theorem parent?_of_idle (h : trimEnd p.shape.2 = []) :
    p.parent? = if p.shape.1 = .here then some ⟨""⟩ else none := by
  rw [parent?, h]
  cases p.shape.1 <;> rfl

theorem parent?_of_active {init : List String} {x : String} (h : trimEnd p.shape.2 = init ++ [x]) :
    p.parent? = some (ofShape p.shape.1 (trimEnd init)) := by
  obtain ⟨first, rest, hcons⟩ : ∃ first rest, init ++ [x] = first :: rest :=
    List.exists_cons_of_ne_nil (by simp)
  have hdrop : (first :: rest).dropLast = init := by rw [← hcons, List.dropLast_concat]
  rw [parent?, h, hcons]
  cases p.shape.1 <;> exact congrArg (fun body => some (ofShape _ (trimEnd body))) hdrop

/-- Only a path without a step below its lead has no parent. -/
theorem isIdle_of_parent?_eq_none (h : p.parent? = none) :
    ∀ x ∈ piecesOf p.text, isIdle x = true := by
  have hbody : ∀ x ∈ p.shape.2, isIdle x = true := by
    rcases List.eq_nil_or_concat (trimEnd p.shape.2) with hnil | ⟨init, x, hbody⟩
    · rw [trimEnd, List.reverse_eq_nil_iff, List.dropWhile_eq_nil_iff] at hnil
      exact fun x hx => hnil x (List.mem_reverse.2 hx)
    · rw [List.concat_eq_append] at hbody
      cases (parent?_of_active hbody).symm.trans h
  rcases p.shape_cases with ⟨hp, -⟩ | ⟨rest, -, hp, hshape⟩ | ⟨rest, hp, hshape⟩ |
    ⟨piece, rest, -, -, hp, hshape⟩ <;> rw [hp]
  · simp [isIdle]
  · rw [hshape] at hbody
    exact List.forall_mem_cons.2 ⟨rfl, hbody⟩
  · rw [hshape] at hbody
    exact List.forall_mem_cons.2 ⟨rfl, hbody⟩
  · rw [hshape] at hbody
    exact hbody

theorem length_parent?_lt (h : p.parent? = some q) : q.text.length < p.text.length := by
  rcases List.eq_nil_or_concat (trimEnd p.shape.2) with hnil | ⟨init, x, hbody⟩
  · rw [parent?_of_idle hnil] at h
    split at h
    · obtain rfl := Option.some.inj h
      rename_i hlead
      have hdot : ".".length ≤ p.text.length := by
        rw [← ofShape_shape p, hlead]
        exact length_le_joinPieces List.mem_cons_self
      exact hdot
    · cases h
  · rw [List.concat_eq_append] at hbody
    rw [parent?_of_active hbody] at h
    obtain rfl := Option.some.inj h
    obtain ⟨idle, hidle⟩ := trimEnd_prefix init
    obtain ⟨rest, hrest⟩ := trimEnd_prefix p.shape.2
    have hsplit : p.shape.2 = trimEnd init ++ (idle ++ x :: rest) := by
      rw [← hrest, hbody, ← List.append_assoc (trimEnd init), hidle]
      simp
    have hne : x ≠ "" := by
      rintro rfl
      cases isIdle_of_trimEnd hbody
    have hlt := length_ofShape_lt p.shape.1 (trimEnd init) (idle ++ x :: rest) (by simp) hne
    rwa [← hsplit, ofShape_shape] at hlt

/-! ## The chain -/

theorem ancestorsUpTo_succ (n : Nat) (p : Path) :
    ancestorsUpTo (n + 1) p = p :: (p.parent?.elim [] (ancestorsUpTo n)) := by
  rw [ancestorsUpTo]
  cases p.parent? <;> rfl

theorem parent?_of_length_eq_zero (h : p.text.length = 0) : p.parent? = none := by
  cases hq : p.parent? with
  | none => rfl
  | some q => exact absurd (length_parent?_lt hq) (by omega)

theorem ancestorsUpTo_of_le {n m : Nat} (hn : p.text.length ≤ n) (hm : p.text.length ≤ m) :
    ancestorsUpTo n p = ancestorsUpTo m p := by
  induction n generalizing p m with
  | zero =>
      cases m with
      | zero => rfl
      | succ m =>
          rw [ancestorsUpTo_succ, parent?_of_length_eq_zero (Nat.le_zero.1 hn)]
          rfl
  | succ n ih =>
      cases m with
      | zero =>
          rw [ancestorsUpTo_succ, parent?_of_length_eq_zero (Nat.le_zero.1 hm)]
          rfl
      | succ m =>
          rw [ancestorsUpTo_succ, ancestorsUpTo_succ]
          cases hq : p.parent? with
          | none => rfl
          | some q =>
              have hlt := length_parent?_lt hq
              exact congrArg (p :: ·) (ih (by omega) (by omega))

theorem mem_ancestors_iff :
    a ∈ p.ancestors ↔ a = p ∨ ∃ q, p.parent? = some q ∧ a ∈ q.ancestors := by
  rw [ancestors, ancestorsUpTo_of_le (Nat.le_refl _) (Nat.le_succ _), ancestorsUpTo_succ,
    List.mem_cons]
  cases hq : p.parent? with
  | none => simp
  | some q =>
      have hlt := length_parent?_lt hq
      simp [ancestors, ancestorsUpTo_of_le (Nat.le_of_lt hlt) (Nat.le_refl _)]

theorem mem_ancestors_self (p : Path) : p ∈ p.ancestors := mem_ancestors_iff.2 (.inl rfl)

theorem mem_ancestors_trans (ha : a ∈ p.ancestors) (hb : b ∈ a.ancestors) : b ∈ p.ancestors := by
  generalize hn : p.text.length = n
  induction n using Nat.strongRecOn generalizing p with
  | ind n ih =>
      rcases mem_ancestors_iff.1 ha with rfl | ⟨q, hq, hmem⟩
      · exact hb
      · have hlt := length_parent?_lt hq
        exact mem_ancestors_iff.2 (.inr ⟨q, hq, ih _ (hn ▸ hlt) hmem rfl⟩)

/-! ## Names below a path -/

/-- The path without the idle pieces that stand at its end, behind its lead. -/
def trimmed (p : Path) : Path := ofShape p.shape.1 (trimEnd p.shape.2)

theorem trimEnd_concat {init : List String} {x : String} (h : isIdle x = false) :
    trimEnd (init ++ [x]) = init ++ [x] := by
  simp [trimEnd, h]

theorem trimEnd_append_idle (body : List String) {idle : List String}
    (h : ∀ x ∈ idle, isIdle x = true) : trimEnd (body ++ idle) = trimEnd body := by
  rw [trimEnd, List.reverse_append,
    List.dropWhile_append_of_pos fun x hx => h x (List.mem_reverse.1 hx), trimEnd]

theorem shape_concat {n : String} (before idle : List String)
    (hp : piecesOf p.text = before ++ idle) (hq : piecesOf q.text = before ++ [n])
    (hidle : ∀ x ∈ idle, isIdle x = true) (hbefore : before ≠ []) (hne : before ++ idle ≠ [""]) :
    ∃ body, q.shape = (p.shape.1, body ++ [n]) ∧ trimEnd body = trimEnd p.shape.2 := by
  cases before with
  | nil => exact absurd rfl hbefore
  | cons x xs =>
      have hshape := shape_of_pieces (p := p) hp
      have hnamed := shape_of_pieces (p := q) hq fun _ => by simp
      rw [hnamed, hshape]
      · split
        · exact ⟨xs, rfl, (trimEnd_append_idle xs hidle).symm⟩
        · split
          · exact ⟨xs, rfl, (trimEnd_append_idle xs hidle).symm⟩
          · exact ⟨x :: xs, rfl, (trimEnd_append_idle (x :: xs) hidle).symm⟩
      · rintro rfl hnil
        exact hne (congrArg ("" :: ·) hnil)

/-- A name that is put below a path becomes the last piece of it. -/
theorem shape_join (p : Path) {n : String} (hn : IsName n) :
    ∃ body, (p.join ⟨n⟩).shape = (p.shape.1, body ++ [n]) ∧ trimEnd body = trimEnd p.shape.2 := by
  have hnames : AreNames [n] := fun x hx => List.mem_singleton.1 hx ▸ hn
  have hrel : (⟨n⟩ : Path).isAbsolute = false := by
    rw [← ofNames_singleton]
    exact isAbsolute_ofNames hnames
  have hname : piecesOf n = [n] := piecesOf_of_not_mem hn.no_slash
  rcases join_text_cases p hrel with ⟨hp, h⟩ | ⟨t, hp, h⟩ | ⟨hne, -, h⟩
  · have hempty : p.shape = (.bare, []) := shape_of_empty (by rw [hp, piecesOf_empty])
    have hjoin : p.join ⟨n⟩ = ofNames [n] := congrArg mk h
    rw [hempty, hjoin, shape_ofNames hnames]
    exact ⟨[], rfl, rfl⟩
  · have hjoin : piecesOf (p.join ⟨n⟩).text = piecesOf t ++ [n] := by
      rw [h, piecesOf_append_slash, hname]
    have hpieces : piecesOf p.text = piecesOf t ++ [""] := by
      rw [hp, piecesOf_append_slash_empty]
    have hne : piecesOf t ++ [""] ≠ [""] := by simp [piecesOf_ne_nil]
    exact shape_concat (piecesOf t) [""] hpieces hjoin (by simp [isIdle]) (piecesOf_ne_nil t) hne
  · have hjoin : piecesOf (p.join ⟨n⟩).text = piecesOf p.text ++ [n] := by
      rw [h, piecesOf_append_slash, hname]
    have hempty : piecesOf p.text ++ [] ≠ [""] := by
      intro hempty
      have htext := joinPieces_piecesOf p.text
      rw [List.append_nil] at hempty
      rw [hempty] at htext
      exact hne htext.symm
    exact shape_concat (piecesOf p.text) [] (List.append_nil _).symm hjoin (by simp)
      (piecesOf_ne_nil p.text) hempty

theorem trimmed_join (p : Path) {n : String} (hn : IsName n) :
    (p.join ⟨n⟩).trimmed = p.join ⟨n⟩ := by
  obtain ⟨body, hshape, -⟩ := shape_join p hn
  have hp := ofShape_shape (p.join ⟨n⟩)
  rw [hshape] at hp
  rw [trimmed, hshape, trimEnd_concat hn.isIdle_eq]
  exact hp

theorem join_text_ne_empty (p : Path) {n : String} (hn : IsName n) : (p.join ⟨n⟩).text ≠ "" := by
  obtain ⟨body, hshape, -⟩ := shape_join p hn
  intro hempty
  rw [shape_of_empty (by rw [hempty, piecesOf_empty])] at hshape
  simp at hshape

theorem parent?_join (p : Path) {n : String} (hn : IsName n) :
    (p.join ⟨n⟩).parent? = some p.trimmed := by
  obtain ⟨body, hshape, hbody⟩ := shape_join p hn
  have htrim : trimEnd (p.join ⟨n⟩).shape.2 = body ++ [n] := by
    rw [hshape]
    exact trimEnd_concat hn.isIdle_eq
  rw [parent?_of_active htrim, hshape, hbody, trimmed]

theorem mem_ancestors_join_iff {n : String} (hn : IsName n) :
    a ∈ (p.join ⟨n⟩).ancestors ↔ a = p.join ⟨n⟩ ∨ a ∈ p.trimmed.ancestors := by
  rw [mem_ancestors_iff, parent?_join p hn]
  simp

/-- What is above a path without its idle end is above all names below it. -/
theorem mem_ancestors_below {names : List String} (h : AreNames names) (hne : names ≠ [])
    (ha : a ∈ p.trimmed.ancestors) :
    a ∈ (names.foldl (fun dir n => dir.join ⟨n⟩) p).ancestors := by
  induction names generalizing p with
  | nil => exact absurd rfl hne
  | cons n names ih =>
      obtain ⟨hn, hrest⟩ := List.forall_mem_cons.1 h
      have hmem := (mem_ancestors_join_iff hn).2 (.inr ha)
      rw [List.foldl_cons]
      by_cases hnil : names = []
      · rw [hnil]
        exact hmem
      · exact ih hrest hnil ((trimmed_join p hn).symm ▸ hmem)

/-! ## Idle pieces at the end -/

theorem shape_trimmed {init : List String} {x : String} (h : trimEnd p.shape.2 = init ++ [x]) :
    p.trimmed.shape = (p.shape.1, init ++ [x]) := by
  have hpre : init ++ [x] <+: p.shape.2 := h ▸ trimEnd_prefix p.shape.2
  have hpieces : piecesOf (joinPieces (init ++ [x])) = init ++ [x] :=
    piecesOf_joinPieces (by simp) fun y hy => slash_not_mem_body (hpre.subset hy)
  obtain ⟨first, rest, hcons⟩ : ∃ first rest, init ++ [x] = first :: rest :=
    List.exists_cons_of_ne_nil (by simp)
  rw [trimmed, h]
  cases hlead : p.shape.1 with
  | root =>
      have hp : piecesOf (ofShape .root (init ++ [x])).text = "" :: (init ++ [x]) := by
        rw [ofShape, piecesOf_slash_append, hpieces]
      rw [shape_of_pieces hp fun _ => by simp, if_pos rfl]
  | here =>
      have hp : piecesOf (ofShape .here (init ++ [x])).text = "." :: (init ++ [x]) := by
        have hdot : ∀ y ∈ "." :: (init ++ [x]), '/' ∉ y.toList := by
          refine List.forall_mem_cons.2 ⟨by decide, ?_⟩
          exact fun y hy => slash_not_mem_body (hpre.subset hy)
        exact piecesOf_joinPieces (by simp) hdot
      rw [shape_of_pieces hp fun he => absurd he (by decide), if_neg (by decide), if_pos rfl]
  | bare =>
      obtain ⟨more, hmore⟩ := hpre
      rw [hcons] at hmore hpieces ⊢
      obtain ⟨hempty, hhere⟩ := head_ne_of_bare hlead hmore.symm
      have hp : piecesOf (ofShape .bare (first :: rest)).text = first :: rest := hpieces
      rw [shape_of_pieces hp fun he => absurd he hempty, if_neg hempty, if_neg hhere]

theorem parent?_trimmed (p : Path) : p.trimmed.parent? = p.parent? := by
  rcases List.eq_nil_or_concat (trimEnd p.shape.2) with hnil | ⟨init, x, hbody⟩
  · rw [parent?_of_idle hnil, trimmed, hnil]
    cases p.shape.1 <;> decide
  · rw [List.concat_eq_append] at hbody
    have hshape := shape_trimmed hbody
    have htrim : trimEnd p.trimmed.shape.2 = init ++ [x] := by
      rw [hshape]
      exact trimEnd_concat (isIdle_of_trimEnd hbody)
    rw [parent?_of_active hbody, parent?_of_active htrim, hshape]

/-- Only the path itself is lost with the idle pieces at its end. -/
theorem mem_ancestors_of_trimmed (h : a ∈ p.ancestors) : a = p ∨ a ∈ p.trimmed.ancestors := by
  rcases mem_ancestors_iff.1 h with rfl | ⟨q, hq, ha⟩
  · exact .inl rfl
  · exact .inr (mem_ancestors_iff.2 (.inr ⟨q, (parent?_trimmed p).trans hq, ha⟩))

end DocStamp.Path
