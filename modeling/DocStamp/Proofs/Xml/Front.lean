/-
# What stands around the root element

In front of the root element there may be a byte order mark, a
declaration, comments and instructions (`skipFront`), and comments and
instructions may stand behind it.  A document is accepted when all this
is passed over and the root is read (`parse_eq_ok_iff`).

Whatever is passed over in front of one root element is passed over in
front of any other (`of_skipFront`).
-/
import DocStamp.Proofs.Xml.Document
import DocStamp.Proofs.Xml.Local

namespace DocStamp.Xml

namespace Cursor

variable {k k' : Cursor} {a b c cs : List Char} {p : Position}

/-! ## Declarations -/

/-- The reader passes over `a` when `c` follows, whatever stands behind. -/
def Passes (read : Cursor → Except Error Cursor) (a c : List Char) : Prop :=
  ∀ b p, ∃ q, read ⟨a ++ (c ++ b), p⟩ = .ok ⟨c ++ b, q⟩

theorem of_skipAttribute (h : k.skipAttribute = .ok k') :
    ∃ a, k.rest = a ++ k'.rest ∧ ∀ c, Passes skipAttribute a c := by
  obtain ⟨⟨r, k₁⟩, hread, hk⟩ := ok_of_bind h
  cases hk
  obtain ⟨a, ha, -, hlocal⟩ := of_readAttribute hread
  refine ⟨a, ha, fun c b p => ?_⟩
  obtain ⟨at_, q, hq⟩ := hlocal (c ++ b) p
  exact ⟨q, by rw [skipAttribute, hq]; rfl⟩

theorem of_declarationSpaces (h : k.declarationSpaces = .ok k') (hc : '>' ∈ c)
    (hk : k'.rest = c ++ b) : ∃ s, k.rest = s ++ k'.rest ∧ Passes declarationSpaces s c := by
  have hne : c ≠ [] := List.ne_nil_of_mem hc
  obtain ⟨cs, p⟩ := k
  cases cs with
  | nil =>
      cases h
      exact absurd (List.append_eq_nil_iff.1 hk.symm).1 hne
  | cons d cs =>
      simp only [declarationSpaces] at h
      split at h
      · rename_i hd
        cases h
        obtain ⟨s, hs, hspace, hstop⟩ := of_skipSpaces ⟨d :: cs, p⟩
        have hsne : s ≠ [] := by
          rintro rfl
          rw [show (skipSpaces ⟨d :: cs, p⟩).rest = d :: cs from hs.symm] at hstop
          exact absurd hd (by simp [hstop d rfl])
        rw [hk] at hstop
        exact ⟨s, hs, fun b p =>
          declarationSpaces_append ⟨s, hspace⟩ (stopsAt_front hne hstop b) (.inl hsne) p⟩
      · rename_i hd
        split at h
        · rename_i hend
          cases h
          obtain ⟨more, hmore⟩ := startsWith_iff.1 hend
          have hpre : "?>".toList <+: c := by
            obtain ⟨x, c, rfl⟩ := List.exists_cons_of_ne_nil hne
            obtain ⟨rfl, hnext⟩ : x = '?' ∧ c ++ b = '>' :: more :=
              List.cons.inj (hk.symm.trans hmore)
            cases c with
            | nil => exact absurd hc (by decide)
            | cons y c =>
                obtain rfl : y = '>' := (List.cons.inj hnext).1
                exact ⟨c, rfl⟩
          refine ⟨[], rfl, fun b p => ?_⟩
          have hstop : StopsAt isSpace (c ++ b) := by
            obtain ⟨rest, rfl⟩ := hpre
            exact stopsAt_cons (by decide) _
          exact declarationSpaces_append ⟨[], List.forall_mem_nil _⟩ hstop
            (.inr (hpre.trans (List.prefix_append c b))) p
        · cases h

/-- Passes over an attribute of a declaration and the white space behind it. -/
def skipSpacedAttribute (k : Cursor) : Except Error Cursor := do
  (← k.skipAttribute).declarationSpaces

theorem of_skipSpacedAttribute (h : k.skipSpacedAttribute = .ok k') (hc : '>' ∈ c)
    (hk : k'.rest = c ++ b) : ∃ a, k.rest = a ++ k'.rest ∧ Passes skipSpacedAttribute a c := by
  obtain ⟨k₁, hattribute, hspaces⟩ := ok_of_bind h
  obtain ⟨a, ha, hpass⟩ := of_skipAttribute hattribute
  obtain ⟨s, hs, hpass'⟩ := of_declarationSpaces hspaces hc hk
  refine ⟨a ++ s, by rw [ha, hs, List.append_assoc], fun b p => ?_⟩
  obtain ⟨q, hq⟩ := hpass (s ++ c) b p
  obtain ⟨q', hq'⟩ := hpass' b q
  refine ⟨q', ?_⟩
  rw [List.append_assoc] at hq ⊢
  rw [skipSpacedAttribute, hq]
  exact hq'

/-- Passes over a part that may be missing. -/
def skipOptional (name : String) (read : Cursor → Except Error Cursor) (k : Cursor) :
    Except Error Cursor :=
  if k.startsWith name then read k else .ok k

theorem of_skipOptional {name : String} {read : Cursor → Except Error Cursor}
    (h : k.skipOptional name read = .ok k') (hname : '>' ∉ name.toList) (hc : '>' ∈ c)
    (hk : k'.rest = c ++ b)
    (hread : read k = .ok k' → ∃ a, k.rest = a ++ k'.rest ∧ Passes read a c) :
    ∃ a, k.rest = a ++ k'.rest ∧ Passes (skipOptional name read) a c := by
  -- Whether the part is there is seen in front of the end of the declaration.
  have hclosed : ∀ a b p, startsWith ⟨a ++ (c ++ b), p⟩ name = name.toList.isPrefixOf (a ++ c) := by
    intro a b p
    rw [startsWith, ← List.append_assoc, isPrefixOf_closed (List.mem_append_right a hc) hname]
  obtain ⟨cs, p⟩ := k
  rw [skipOptional] at h
  split at h
  · rename_i hstart
    obtain ⟨a, ha, hpass⟩ := hread h
    obtain rfl : cs = a ++ (c ++ b) := hk ▸ ha
    refine ⟨a, ha, fun b' p' => ?_⟩
    rw [hclosed] at hstart
    rw [skipOptional, hclosed, if_pos hstart]
    exact hpass b' p'
  · rename_i hstart
    cases h
    obtain rfl : cs = [] ++ (c ++ b) := hk
    refine ⟨[], rfl, fun b' p' => ⟨p', ?_⟩⟩
    rw [hclosed] at hstart
    rw [skipOptional, hclosed, if_neg hstart]
    rfl

theorem skipOptional_bind {α : Type} (name : String) (read : Cursor → Except Error Cursor)
    (k : Cursor) (f : Cursor → Except Error α) :
    k.skipOptional name read >>= f = if k.startsWith name then read k >>= f else f k := by
  rw [skipOptional]
  split <;> rfl

theorem skipDeclaration_eq (k : Cursor) : k.skipDeclaration = (do
    let k ← (k.advance 5).declarationSpaces
    if !k.startsWith "version" then throw (.string "version" k.position)
    let k ← k.skipSpacedAttribute
    let k ← k.skipOptional "encoding" skipSpacedAttribute
    let k ← k.skipOptional "standalone" skipAttribute
    k.skipSpaces.expectString "?>") := by
  simp only [skipDeclaration, skipOptional_bind, skipSpacedAttribute, bind_assoc, pure_bind]

theorem of_skipDeclaration (h : skipDeclaration ⟨"<?xml".toList ++ cs, p⟩ = .ok k') :
    ∃ a, cs = a ++ k'.rest ∧ '>' ∈ a ∧
      ∀ b p, ∃ q, skipDeclaration ⟨"<?xml".toList ++ (a ++ b), p⟩ = .ok ⟨b, q⟩ := by
  have hopen : ∀ cs p, advance 5 ⟨"<?xml".toList ++ cs, p⟩ = ⟨cs, p.after "<?xml".toList⟩ :=
    advance_append "<?xml".toList
  simp only [skipDeclaration_eq, hopen] at h ⊢
  obtain ⟨k₁, h₁, hrest₁⟩ := ok_of_bind h
  split at hrest₁
  · cases hrest₁
  · rename_i hversion
    obtain ⟨k₂, h₂, hrest₂⟩ := ok_of_bind hrest₁
    obtain ⟨k₃, h₃, hrest₃⟩ := ok_of_bind hrest₂
    obtain ⟨k₄, h₄, hend⟩ := ok_of_bind hrest₃
    -- From the end to the beginning, so that it is known what follows each part.
    obtain ⟨s, hk₄, hspace, -⟩ := of_skipSpaces k₄
    rw [of_expectString hend, ← List.append_assoc] at hk₄
    obtain ⟨a₄, hk₃, hpass₄⟩ := of_skipOptional h₄ (by decide) (by simp) hk₄ fun h => by
      obtain ⟨a, ha, hpass⟩ := of_skipAttribute h
      exact ⟨a, ha, hpass _⟩
    rw [hk₄, ← List.append_assoc] at hk₃
    obtain ⟨a₃, hk₂, hpass₃⟩ := of_skipOptional h₃ (by decide) (by simp) hk₃ fun h =>
      of_skipSpacedAttribute h (by simp) hk₃
    rw [hk₃, ← List.append_assoc] at hk₂
    obtain ⟨a₂, hk₁, hpass₂⟩ := of_skipSpacedAttribute h₂ (by simp) hk₂
    rw [hk₂, ← List.append_assoc] at hk₁
    obtain ⟨a₁, hk, hpass₁⟩ := of_declarationSpaces h₁ (by simp) hk₁
    rw [hk₁, ← List.append_assoc] at hk
    refine ⟨_, hk, by simp, fun b p => ?_⟩
    obtain ⟨q₁, hq₁⟩ := hpass₁ b (p.after "<?xml".toList)
    obtain ⟨q₂, hq₂⟩ := hpass₂ b q₁
    obtain ⟨q₃, hq₃⟩ := hpass₃ b q₂
    obtain ⟨q₄, hq₄⟩ := hpass₄ b q₃
    rw [startsWith, hk₁, isPrefixOf_closed (d := '>') (by simp) (by decide),
      ← isPrefixOf_closed (d := '>') (by simp) (by decide) b] at hversion
    have hspaces := skipSpaces_append (p := q₄) hspace (b := "?>".toList ++ b)
      (stopsAt_cons (by decide) _)
    simp only [List.append_assoc] at hq₁ hq₂ hq₃ hq₄ hversion hspaces ⊢
    simp only [hq₁, bind, Except.bind, startsWith, hversion, hq₂, hq₃, hq₄, hspaces,
      expectString_append, Bool.false_eq_true, if_false]
    exact ⟨_, rfl⟩

/-! ## Comments and instructions -/

theorem skipMisc_spaces {s : List Char} (hs : ∀ c ∈ s, isSpace c = true)
    (hb : b = [] ∨ EndsMisc b) (n : Nat) (p : Position) :
    ∃ q, skipMisc (n + 1) ⟨s ++ b, p⟩ = .ok ⟨b, q⟩ := by
  rcases hb with rfl | hb
  · refine ⟨p.after s, ?_⟩
    have hspaces := skipSpaces_append (p := p) hs (b := []) (by simp [StopsAt])
    rw [skipMisc, hspaces]
    rfl
  · exact skipMisc_ends hb ⟨s, hs⟩ n p

section

variable {s : List Char} (hs : ∀ c ∈ s, isSpace c = true)

include hs

theorem skipMisc_comment (n : Nat) (cs : List Char) (p : Position) :
    skipMisc (n + 1) ⟨s ++ ("<!--".toList ++ cs), p⟩ = (do
      skipMisc n (← skipComment ⟨"<!--".toList ++ cs, p.after s⟩)) := by
  have hspaces := skipSpaces_append (p := p) hs (b := "<!--".toList ++ cs)
    (stopsAt_cons (by decide) _)
  rw [skipMisc, hspaces]
  rfl

theorem skipMisc_instruction (n : Nat) (cs : List Char) (p : Position) :
    skipMisc (n + 1) ⟨s ++ ("<?".toList ++ cs), p⟩ = (do
      skipMisc n (← skipInstruction ⟨"<?".toList ++ cs, p.after s⟩)) := by
  have hspaces := skipSpaces_append (p := p) hs (b := "<?".toList ++ cs)
    (stopsAt_cons (by decide) _)
  rw [skipMisc, hspaces]
  rfl

end

/-- The text is passed over in front of white space and any root, or the end of the document. -/
def IsMisc (n : Nat) (a : List Char) : Prop :=
  ∀ m s b p, n < m → (∀ c ∈ s, isSpace c = true) → (b = [] ∨ EndsMisc b) →
    ∃ q, skipMisc m ⟨a ++ (s ++ b), p⟩ = .ok ⟨b, q⟩

theorem isMisc_spaces {s : List Char} (hs : ∀ c ∈ s, isSpace c = true) (n : Nat) :
    IsMisc n s := by
  intro m s' b p hm hs' hb
  obtain ⟨m, rfl⟩ : ∃ l, m = l + 1 := ⟨m - 1, by omega⟩
  rw [← List.append_assoc]
  refine skipMisc_spaces (fun c hc => ?_) hb m p
  exact (List.mem_append.1 hc).elim (hs c) (hs' c)

theorem IsMisc.cons {n : Nat} {s mark piece : List Char} {skip : Cursor → Except Error Cursor}
    (hstep : ∀ n cs p, skipMisc (n + 1) ⟨s ++ (mark ++ cs), p⟩ = (do
      skipMisc n (← skip ⟨mark ++ cs, p.after s⟩)))
    (hskip : ∀ b p, ∃ q, skip ⟨mark ++ (piece ++ b), p⟩ = .ok ⟨b, q⟩) (ha : IsMisc n a) :
    IsMisc (n + 1) (s ++ (mark ++ (piece ++ a))) := by
  intro m s' b p hm hs' hb
  obtain ⟨m, rfl⟩ : ∃ l, m = l + 1 := ⟨m - 1, by omega⟩
  obtain ⟨q, hq⟩ := hskip (a ++ (s' ++ b)) (p.after s)
  obtain ⟨q', hq'⟩ := ha m s' b q (by omega) hs' hb
  refine ⟨q', ?_⟩
  simp only [List.append_assoc]
  rw [hstep, hq]
  exact hq'

theorem of_skipMisc {n : Nat} (h : skipMisc n ⟨cs, p⟩ = .ok k') :
    ∃ a, cs = a ++ k'.rest ∧ IsMisc n a := by
  induction n generalizing cs p with
  | zero =>
      cases h
      exact ⟨[], rfl, isMisc_spaces (List.forall_mem_nil _) 0⟩
  | succ n ih =>
      obtain ⟨s, hcs, hs, hstop⟩ := of_skipSpaces ⟨cs, p⟩
      simp only [skipMisc] at h
      split at h
      · rename_i hstart
        obtain ⟨rest, hrest⟩ := startsWith_iff.1 hstart
        rw [hrest] at hcs hstop
        obtain rfl : cs = s ++ ("<!--".toList ++ rest) := hcs
        rw [skipSpaces_append hs hstop] at h
        obtain ⟨⟨rest', q⟩, hskip, hmore⟩ := ok_of_bind h
        obtain ⟨piece, rfl, hlocal⟩ := of_skipComment hskip
        obtain ⟨a, rfl, ha⟩ := ih hmore
        exact ⟨s ++ ("<!--".toList ++ (piece ++ a)), by simp only [List.append_assoc],
          ha.cons (skipMisc_comment hs) hlocal⟩
      · split at h
        · rename_i hstart
          obtain ⟨rest, hrest⟩ := startsWith_iff.1 hstart
          rw [hrest] at hcs hstop
          obtain rfl : cs = s ++ ("<?".toList ++ rest) := hcs
          rw [skipSpaces_append hs hstop] at h
          obtain ⟨⟨rest', q⟩, hskip, hmore⟩ := ok_of_bind h
          obtain ⟨piece, rfl, hlocal⟩ := of_skipInstruction hskip
          obtain ⟨a, rfl, ha⟩ := ih hmore
          exact ⟨s ++ ("<?".toList ++ (piece ++ a)), by simp only [List.append_assoc],
            ha.cons (skipMisc_instruction hs) hlocal⟩
        · cases h
          exact ⟨s, hcs, isMisc_spaces hs (n + 1)⟩

/-! ## The front of a document -/

/-- Passes over all that stands in front of the root. -/
def skipFront (n : Nat) (k : Cursor) : Except Error Cursor := do
  let k ← skipOptional "<?xml " skipDeclaration k.skipByteOrderMark
  return (← k.skipMisc n).skipSpaces

theorem skipByteOrderMark_append (front : List Char) : ∃ mark rest, front = mark ++ rest ∧
    ∀ b, b.head? = some '<' → ∃ p, skipByteOrderMark (.start (front ++ b)) = ⟨rest ++ b, p⟩ := by
  cases front with
  | nil =>
      refine ⟨[], [], rfl, fun b hb => ?_⟩
      obtain ⟨b, rfl⟩ := List.head?_eq_some_iff.1 hb
      exact ⟨_, rfl⟩
  | cons c front =>
      by_cases hc : c.toNat = 0xFEFF
      · refine ⟨[c], front, rfl, fun b _ => ?_⟩
        simp only [start, skipByteOrderMark, List.cons_append, hc, if_true, advance]
        exact ⟨_, rfl⟩
      · refine ⟨[], c :: front, rfl, fun b _ => ?_⟩
        simp only [start, skipByteOrderMark, List.cons_append, hc, if_false]
        exact ⟨_, rfl⟩

/-- Markup that is no instruction does not make a declaration of what stands in front of it. -/
theorem not_startsWith_declaration (hb : EndsMisc b)
    (h : "<?xml ".toList.isPrefixOf (a ++ c) = false) :
    "<?xml ".toList.isPrefixOf (a ++ b) = false := by
  refine Bool.eq_false_iff.2 fun hpre => ?_
  obtain ⟨more, hmore⟩ := List.isPrefixOf_iff_prefix.1 hpre
  rcases List.append_eq_append_iff.1 hmore with ⟨x, ha, -⟩ | ⟨x, hdeclaration, hx⟩
  · refine Bool.eq_false_iff.1 h (List.isPrefixOf_iff_prefix.2 ⟨x ++ c, ?_⟩)
    rw [ha, List.append_assoc]
  · cases x with
    | nil =>
        rw [List.append_nil] at hdeclaration
        refine Bool.eq_false_iff.1 h (List.isPrefixOf_iff_prefix.2 ⟨c, ?_⟩)
        rw [hdeclaration]
    | cons d x =>
        -- An opening sign in a declaration is the first character of it.
        obtain rfl : d = '<' := by
          have hmarkup := hb.markup
          rw [hx] at hmarkup
          exact Option.some.inj hmarkup
        cases a with
        | nil =>
            refine Bool.eq_false_iff.1 hb.instruction (List.isPrefixOf_iff_prefix.2 ?_)
            exact ⟨"xml ".toList ++ more, hmore⟩
        | cons e a =>
            have hmem : '<' ∈ "?xml ".toList := by
              rw [show "?xml ".toList = a ++ '<' :: x from (List.cons.inj hdeclaration).2]
              simp
            exact absurd hmem (by decide)

theorem skipFront_root (hcs : EndsMisc cs) (n : Nat) :
    ∃ q, skipFront (n + 1) (.start cs) = .ok ⟨cs, q⟩ := by
  obtain ⟨rest, rfl⟩ := List.head?_eq_some_iff.1 hcs.markup
  have hnot := not_startsWith_declaration (a := []) (c := []) hcs rfl
  obtain ⟨q, hq⟩ := skipMisc_spaces (List.forall_mem_nil _) (.inr hcs) n ⟨1, 1⟩
  refine ⟨q, ?_⟩
  rw [skipFront, skipOptional_bind]
  show (if "<?xml ".toList.isPrefixOf ([] ++ '<' :: rest) = true then _
    else (do return (← skipMisc (n + 1) ⟨[] ++ '<' :: rest, ⟨1, 1⟩⟩).skipSpaces)) = _
  rw [hnot, hq]
  exact congrArg Except.ok (skipSpaces_eq hcs.stopsAt)

theorem of_skipFront {n : Nat} {front : List Char} (hc : c.head? = some '<')
    (h : skipFront n (.start (front ++ c)) = .ok ⟨c, p⟩) {m : Nat} (hm : n < m) (hb : EndsMisc b) :
    ∃ q, skipFront m (.start (front ++ b)) = .ok ⟨b, q⟩ := by
  obtain ⟨mark, rest, rfl, hmark⟩ := skipByteOrderMark_append front
  obtain ⟨p₀, hp₀⟩ := hmark c hc
  obtain ⟨q₀, hq₀⟩ := hmark b hb.markup
  rw [skipFront, hp₀] at h
  rw [skipFront, hq₀]
  obtain ⟨⟨cs₁, p₁⟩, hdeclaration, hrest⟩ := ok_of_bind h
  obtain ⟨k₂, hmisc, hend⟩ := ok_of_bind hrest
  obtain ⟨a, rfl, ha⟩ := of_skipMisc hmisc
  obtain ⟨s, hs, hspace, -⟩ := of_skipSpaces k₂
  rw [show k₂.skipSpaces = ⟨c, p⟩ from Except.ok.inj hend] at hs
  have hmore : ∀ q, ∃ q', (do return (← skipMisc m ⟨a ++ (s ++ b), q⟩).skipSpaces) =
      (.ok ⟨b, q'⟩ : Except Error Cursor) := by
    intro q
    obtain ⟨q', hq'⟩ := ha m s b q hm hspace (.inr hb)
    exact ⟨q', by rw [hq']; exact congrArg Except.ok (skipSpaces_eq hb.stopsAt)⟩
  rw [skipOptional] at hdeclaration
  rw [skipOptional_bind]
  split at hdeclaration
  · rename_i hstart
    obtain ⟨cs, hcs⟩ := startsWith_iff.1 hstart
    rw [show rest ++ c = "<?xml".toList ++ (' ' :: cs) from hcs] at hdeclaration
    obtain ⟨d, hd, hclosed, hlocal⟩ := of_skipDeclaration hdeclaration
    have hrest : rest = "<?xml".toList ++ (d ++ (a ++ s)) := by
      have htext : rest ++ c = "<?xml".toList ++ (d ++ (a ++ s)) ++ c := by
        rw [show rest ++ c = "<?xml".toList ++ (' ' :: cs) from hcs, hd, hs]
        simp only [List.append_assoc]
      exact List.append_cancel_right htext
    -- The end of the declaration is no part of its beginning.
    have hbegins : ∀ b, "<?xml ".toList.isPrefixOf (rest ++ b) =
        "<?xml ".toList.isPrefixOf rest := by
      intro b
      refine isPrefixOf_closed (d := '>') ?_ (by decide) b
      simp [hrest, hclosed]
    obtain ⟨q₁, hq₁⟩ := hlocal (a ++ (s ++ b)) q₀
    obtain ⟨q, hq⟩ := hmore q₁
    refine ⟨q, ?_⟩
    rw [startsWith, hbegins] at hstart
    rw [startsWith, hbegins, if_pos hstart, hrest]
    simp only [List.append_assoc]
    rw [hq₁]
    exact hq
  · rename_i hstart
    have hrest : rest = a ++ s := by
      have hcursors := congrArg Cursor.rest (Except.ok.inj hdeclaration)
      simp only [hs, ← List.append_assoc] at hcursors
      exact List.append_cancel_right hcursors
    have hstart' := not_startsWith_declaration hb (Bool.eq_false_iff.2 hstart)
    obtain ⟨q, hq⟩ := hmore q₀
    refine ⟨q, ?_⟩
    rw [startsWith, hstart', hrest, List.append_assoc]
    exact hq

end Cursor

/-! ## Documents -/

theorem parse_eq (text : String) : parse text = (do
    let k ← Cursor.skipFront (text.length + 1) (.start text.toList)
    if k.startsWith "<!DOCTYPE" then throw .documentType
    let (root?, k) ← if k.startsWith "<" then k.readElement (2 * text.length + 2) []
      else pure (none, k)
    let k ← k.skipMisc (text.length + 1)
    if !k.rest.isEmpty then throw (.unknownToken k.position)
    match root? with
    | some root => return root
    | none => throw .noRoot) := by
  simp only [parse, Cursor.skipFront, bind_assoc, pure_bind]
  exact (Cursor.skipOptional_bind _ _ _ _).symm

/-- A document is accepted when its root is read and only comments and instructions follow. -/
theorem parse_eq_ok_iff {text : String} {root : Node} :
    parse text = .ok root ↔ ∃ k k₁ k₂,
      Cursor.skipFront (text.length + 1) (.start text.toList) = .ok k ∧
      k.startsWith "<!DOCTYPE" = false ∧ k.startsWith "<" = true ∧
      k.readElement (2 * text.length + 2) [] = .ok (some root, k₁) ∧
      k₁.skipMisc (text.length + 1) = .ok k₂ ∧ k₂.rest = [] := by
  rw [parse_eq]
  constructor
  · intro h
    obtain ⟨k, hfront, hrest⟩ := ok_of_bind h
    simp only at hrest
    split at hrest
    · cases hrest
    · rename_i htype
      split at hrest
      · rename_i hmark
        obtain ⟨⟨root?, k₁⟩, hroot, hafter⟩ := ok_of_bind hrest
        obtain ⟨k₂, hmisc, hresult⟩ := ok_of_bind hafter
        simp only at hresult
        split at hresult
        · cases hresult
        · rename_i hend
          cases root? with
          | none => cases hresult
          | some node =>
              cases hresult
              refine ⟨k, k₁, k₂, hfront, by simpa using htype, hmark, hroot, hmisc, ?_⟩
              simpa using hend
      · obtain ⟨r, hr, hafter⟩ := ok_of_bind hrest
        cases hr
        obtain ⟨k₂, -, hresult⟩ := ok_of_bind hafter
        simp only at hresult
        split at hresult <;> cases hresult
  · rintro ⟨k, k₁, k₂, hfront, htype, hmark, hroot, hmisc, hend⟩
    rw [hfront]
    simp only [bind, Except.bind, htype, hmark, hroot, hmisc, hend, List.isEmpty_nil, Bool.not_true,
      Bool.false_eq_true, if_false, if_true]
    rfl

end DocStamp.Xml
