/-
# Whole documents

A document may begin with a declaration, spelt in any of the ways that
there are: white space of any kind and length between its parts,
quotation marks of either kind, and two parts that may be missing.
Whatever the spelling, it is passed over, and what is read is the root
element behind it (`parse_of_readElement`).
-/
import DocStamp.Proofs.Xml.Content

namespace DocStamp.Xml

/-! ## Declarations -/

/-- A declaration as it can be written. -/
structure Declaration where
  version : Spelling
  encoding : Option Spelling
  standalone : Option Spelling
  trailing : Spaces
  /-- No value holds a question mark, with which the end begins. -/
  version_open : '?' ∉ version.value
  encoding_open : ∀ a ∈ encoding, '?' ∉ a.value
  standalone_open : ∀ a ∈ standalone, '?' ∉ a.value

def optionText (name : String) : Option Spelling → List Char
  | none => []
  | some a => a.text name.toList

namespace Declaration

def body (d : Declaration) : List Char :=
  d.version.text "version".toList ++
    (optionText "encoding" d.encoding ++ (optionText "standalone" d.standalone ++ d.trailing.1))

def text (d : Declaration) : List Char := "<?xml".toList ++ (d.body ++ "?>".toList)

end Declaration

/-- Passing over white space in a declaration, where it may be missing only at the end. -/
theorem declarationSpaces_append (s : Spaces) {b : List Char} (hb : StopsAt isSpace b)
    (h : s.1 ≠ [] ∨ "?>".toList <+: b) (p : Position) :
    ∃ q, Cursor.declarationSpaces ⟨s.1 ++ b, p⟩ = .ok ⟨b, q⟩ := by
  obtain ⟨cs, hcs⟩ := s
  cases cs with
  | nil =>
      obtain ⟨more, rfl⟩ := h.resolve_left (by simp)
      exact ⟨p, rfl⟩
  | cons c cs =>
      have hc : isSpace c = true := hcs c List.mem_cons_self
      have hskip := Cursor.skipSpaces_append (p := p) hcs hb
      rw [List.cons_append] at hskip
      exact ⟨_, by simp [Cursor.declarationSpaces, hc, hskip]; rfl⟩

theorem Spelling.skipAttribute (a : Spelling) {name : List Char} (hname : Cursor.IsTagName name)
    (b : List Char) (p : Position) :
    ∃ q, Cursor.skipAttribute ⟨name ++ (a.tail ++ b), p⟩ = .ok ⟨b, q⟩ := by
  obtain ⟨at_, q, hread⟩ := a.readAttribute hname b p
  exact ⟨q, by rw [Cursor.skipAttribute, hread]; rfl⟩

theorem declaration_end (standalone : Option Spelling) (trailing : Spaces) (b : List Char)
    (p : Position) : ∃ k, Cursor.declarationSpaces
        ⟨optionText "standalone" standalone ++ (trailing.1 ++ ("?>".toList ++ b)), p⟩ = .ok k ∧
      k.startsWith "encoding" = false ∧ ∃ q, (do
        let k ← if k.startsWith "standalone" then k.skipAttribute else pure k
        k.skipSpaces.expectString "?>") = .ok ⟨b, q⟩ := by
  have hstop : StopsAt isSpace ("?>".toList ++ b) := stopsAt_cons (by decide) _
  cases standalone with
  | none =>
      obtain ⟨q, hq⟩ := declarationSpaces_append trailing hstop (.inr ⟨b, rfl⟩) p
      refine ⟨_, hq, rfl, q.after "?>".toList, ?_⟩
      have hnot : Cursor.startsWith ⟨"?>".toList ++ b, q⟩ "standalone" = false := rfl
      rw [hnot]
      show Cursor.expectString "?>" (Cursor.skipSpaces ⟨"?>".toList ++ b, q⟩) = _
      rw [Cursor.skipSpaces_eq hstop, Cursor.expectString_append]
  | some a =>
      have hname : Cursor.IsTagName "standalone".toList := by decide
      obtain ⟨q, hq⟩ := declarationSpaces_append a.before
        (b := "standalone".toList ++ (a.tail ++ (trailing.1 ++ ("?>".toList ++ b))))
        (stopsAt_cons (by decide) _) (.inl a.spaced) p
      have htext : optionText "standalone" (some a) ++ (trailing.1 ++ ("?>".toList ++ b)) =
          a.before.1 ++ ("standalone".toList ++ (a.tail ++ (trailing.1 ++ ("?>".toList ++ b)))) := by
        simp [optionText, Spelling.text]
      obtain ⟨q', hq'⟩ := a.skipAttribute hname (trailing.1 ++ ("?>".toList ++ b)) q
      rw [htext]
      refine ⟨_, hq, rfl, (q'.after trailing.1).after "?>".toList, ?_⟩
      rw [Cursor.startsWith_append, if_pos rfl, hq']
      show Cursor.expectString "?>" (Cursor.skipSpaces ⟨trailing.1 ++ ("?>".toList ++ b), q'⟩) = _
      rw [Cursor.skipSpaces_append trailing.2 hstop, Cursor.expectString_append]

namespace Declaration

theorem skipDeclaration (d : Declaration) (b : List Char) (p : Position) :
    ∃ q, Cursor.skipDeclaration ⟨d.text ++ b, p⟩ = .ok ⟨b, q⟩ := by
  have hversion : Cursor.IsTagName "version".toList := by decide
  have hencoding : Cursor.IsTagName "encoding".toList := by decide
  -- What follows the encoding, and what follows the version.
  let last := optionText "standalone" d.standalone ++ (d.trailing.1 ++ ("?>".toList ++ b))
  let rest := optionText "encoding" d.encoding ++ last
  have htext : d.text ++ b =
      "<?xml".toList ++ (d.version.before.1 ++ ("version".toList ++ (d.version.tail ++ rest))) := by
    simp [text, body, Spelling.text, rest, last]
  obtain ⟨q₁, hq₁⟩ := declarationSpaces_append d.version.before
    (b := "version".toList ++ (d.version.tail ++ rest)) (stopsAt_cons (by decide) _)
    (.inl d.version.spaced) (p.after "<?xml".toList)
  obtain ⟨q₂, hq₂⟩ := d.version.skipAttribute hversion rest q₁
  have hstart : Cursor.skipDeclaration ⟨d.text ++ b, p⟩ = (do
      let k ← Cursor.declarationSpaces ⟨rest, q₂⟩
      let k ← if k.startsWith "encoding" then do (← k.skipAttribute).declarationSpaces else pure k
      let k ← if k.startsWith "standalone" then k.skipAttribute else pure k
      k.skipSpaces.expectString "?>") := by
    have hadvance := Cursor.advance_append "<?xml".toList
      (d.version.before.1 ++ ("version".toList ++ (d.version.tail ++ rest))) p
    rw [← htext] at hadvance
    rw [Cursor.skipDeclaration, show 5 = "<?xml".toList.length from rfl, hadvance, hq₁]
    simp only [bind, Except.bind, Cursor.startsWith_append, Bool.not_true, Bool.false_eq_true,
      if_false, hq₂]
  rw [hstart]
  cases he : d.encoding with
  | none =>
      obtain ⟨k, hk, hnot, q, hq⟩ := declaration_end d.standalone d.trailing b q₂
      have hrest : rest = last := by simp [rest, he, optionText]
      refine ⟨q, ?_⟩
      rw [hrest, hk]
      simp only [bind, Except.bind, pure, Except.pure, hnot, Bool.false_eq_true, if_false] at hq ⊢
      exact hq
  | some a =>
      have hrest : rest = a.before.1 ++ ("encoding".toList ++ (a.tail ++ last)) := by
        simp [rest, he, optionText, Spelling.text]
      obtain ⟨q₃, hq₃⟩ := declarationSpaces_append a.before
        (b := "encoding".toList ++ (a.tail ++ last)) (stopsAt_cons (by decide) _)
        (.inl a.spaced) q₂
      obtain ⟨q₄, hq₄⟩ := a.skipAttribute hencoding last q₃
      obtain ⟨k, hk, -, q, hq⟩ := declaration_end d.standalone d.trailing b q₄
      refine ⟨q, ?_⟩
      rw [hrest, hq₃]
      simp only [bind, Except.bind, Cursor.startsWith_append, if_true, hq₄] at hq ⊢
      rw [hk]
      exact hq

/-- The characters of a declaration. -/
def IsOpen (c : Char) : Prop := isLegal c = true ∧ c ≠ '?'

instance (c : Char) : Decidable (IsOpen c) := by unfold IsOpen; infer_instance

theorem isOpen_of_isSpace {c : Char} (h : isSpace c = true) : IsOpen c :=
  ⟨isLegal_of_isSpace h, by rintro rfl; exact absurd h (by decide)⟩

theorem isOpen_text (a : Spelling) (h : '?' ∉ a.value) {name : List Char}
    (hname : ∀ c ∈ name, IsOpen c) : ∀ c ∈ a.text name, IsOpen c := by
  have hmark : IsOpen a.mark := by
    rcases a.isMark with h | h <;> rw [h] <;> decide
  intro c hc
  simp only [Spelling.text, Spelling.tail, List.mem_append, List.mem_cons, List.not_mem_nil,
    or_false] at hc
  rcases hc with hc | hc | hc | rfl | hc | rfl | hc | rfl
  · exact isOpen_of_isSpace (a.before.2 c hc)
  · exact hname c hc
  · exact isOpen_of_isSpace (a.left.2 c hc)
  · decide
  · exact isOpen_of_isSpace (a.right.2 c hc)
  · exact hmark
  · exact ⟨(a.legal c hc).1, fun e => h (e ▸ hc)⟩
  · exact hmark

theorem isOpen_optionText {name : String} (hname : ∀ c ∈ name.toList, IsOpen c)
    {a : Option Spelling} (h : ∀ x ∈ a, '?' ∉ x.value) : ∀ c ∈ optionText name a, IsOpen c := by
  cases a with
  | none => exact List.forall_mem_nil _
  | some a => exact isOpen_text a (h a rfl) hname

theorem isOpen_body (d : Declaration) : ∀ c ∈ d.body, IsOpen c := by
  intro c hc
  simp only [body, List.mem_append] at hc
  rcases hc with hc | hc | hc | hc
  · exact isOpen_text _ d.version_open (forall_mem_of_all (by decide)) c hc
  · exact isOpen_optionText (forall_mem_of_all (by decide)) d.encoding_open c hc
  · exact isOpen_optionText (forall_mem_of_all (by decide)) d.standalone_open c hc
  · exact isOpen_of_isSpace (d.trailing.2 c hc)

/-- A declaration with a line end or a tab behind its name is passed over as an instruction. -/
theorem skipInstruction (d : Declaration) (h : ∀ c ∈ d.version.before.1.head?, c ≠ ' ')
    (b : List Char) (p : Position) :
    ∃ q, Cursor.skipInstruction ⟨d.text ++ b, p⟩ = .ok ⟨b, q⟩ := by
  obtain ⟨s, ss, hs⟩ := List.exists_cons_of_ne_nil d.version.spaced
  have hspace : isSpace s = true := d.version.before.2 s (hs ▸ List.mem_cons_self)
  have hne : s ≠ ' ' := h s (hs ▸ rfl)
  -- The rest of the body, behind all the white space that it begins with.
  obtain ⟨more, hbody, hmore⟩ : ∃ more, d.body = d.version.before.1 ++ more ∧
      StopsAt isSpace (more ++ ("?>".toList ++ b)) :=
    ⟨_, by rw [body, Spelling.text, List.append_assoc],
      fun c hc => by cases hc; decide⟩
  have hopen : ∀ c ∈ more, IsOpen c := fun c hc =>
    d.isOpen_body c (hbody ▸ List.mem_append_right _ hc)
  have htext : d.text ++ b = '<' :: '?' :: 'x' :: 'm' :: 'l' ::
      (d.version.before.1 ++ (more ++ ("?>".toList ++ b))) := by
    simp [text, hbody]
  have hnot : Cursor.startsWith ⟨d.text ++ b, p⟩ "<?xml " = false := by
    rw [htext, hs]
    simp [Cursor.startsWith, List.isPrefixOf_cons_cons, Ne.symm hne]
  have hname : ∀ q, Cursor.readName
      ⟨['x', 'm', 'l'] ++ (d.version.before.1 ++ (more ++ ("?>".toList ++ b))), q⟩ =
      .ok ("xml", ⟨d.version.before.1 ++ (more ++ ("?>".toList ++ b)), q.after ['x', 'm', 'l']⟩) := by
    intro q
    refine Cursor.readName_append (by decide) (forall_mem_of_all (by decide)) ?_
    rw [hs]
    exact stopsAt_cons (not_isNameChar_of_isSpace hspace) _
  have huntil : ∀ q, Cursor.readUntil (fun cs => "?>".toList.isPrefixOf cs)
      (more ++ ("?>".toList ++ b)) q = .ok (more, ⟨"?>".toList ++ b, q.after more⟩) := by
    intro q
    refine Cursor.readUntil_append (fun x c y hy => ?_) ⟨'?', '>' :: b, rfl, by decide, rfl⟩
    obtain ⟨hlegal, hquestion⟩ := hopen c (hy ▸ List.mem_append_right _ List.mem_cons_self)
    exact ⟨hlegal, by simp [List.isPrefixOf_cons_cons, Ne.symm hquestion]⟩
  refine ⟨(((((p.next '<').next '?').after ['x', 'm', 'l']).after d.version.before.1).after
    more).after "?>".toList, ?_⟩
  rw [Cursor.skipInstruction, hnot]
  simp only [Bool.false_eq_true, if_false, htext, Cursor.advance]
  rw [show 'x' :: 'm' :: 'l' :: (d.version.before.1 ++ (more ++ ("?>".toList ++ b))) =
    ['x', 'm', 'l'] ++ (d.version.before.1 ++ (more ++ ("?>".toList ++ b))) from rfl, hname]
  simp only [bind, Except.bind, Cursor.skipSpaces_append d.version.before.2 hmore, huntil,
    Cursor.expectString_append]

end Declaration

/-! ## In front of the root -/

/-- What stands in front of the root element: nothing, or a declaration and white space. -/
def prologue : Option (Declaration × Spaces) → List Char
  | none => []
  | some (d, s) => d.text ++ s.1

/-- Markup at which comments and instructions end. -/
structure EndsMisc (cs : List Char) : Prop where
  instruction : "<?".toList.isPrefixOf cs = false
  comment : "<!--".toList.isPrefixOf cs = false
  markup : cs.head? = some '<'

theorem EndsMisc.stopsAt {cs : List Char} (h : EndsMisc cs) : StopsAt isSpace cs := by
  intro c hc
  rw [h.markup] at hc
  cases hc
  decide

theorem endsMisc_markup {c : Char} (hbang : c ≠ '!') (hquestion : c ≠ '?') (cs : List Char) :
    EndsMisc ('<' :: c :: cs) := by
  constructor
  · simp [List.isPrefixOf_cons_cons, Ne.symm hquestion]
  · simp [List.isPrefixOf_cons_cons, Ne.symm hbang]
  · rfl

theorem endsMisc_element {c : Char} (hc : isNameStart c = true) (cs : List Char) :
    EndsMisc ('<' :: c :: cs) := by
  have hbang : c ≠ '!' := by rintro rfl; exact absurd hc (by decide)
  have hquestion : c ≠ '?' := by rintro rfl; exact absurd hc (by decide)
  exact endsMisc_markup hbang hquestion cs

section

variable {cs : List Char} (hcs : EndsMisc cs)

include hcs

theorem skipMisc_ends (s : Spaces) (n : Nat) (p : Position) :
    ∃ q, Cursor.skipMisc (n + 1) ⟨s.1 ++ cs, p⟩ = .ok ⟨cs, q⟩ := by
  refine ⟨p.after s.1, ?_⟩
  simp only [Cursor.skipMisc, Cursor.skipSpaces_append s.2 hcs.stopsAt, Cursor.startsWith,
    hcs.comment, hcs.instruction, Bool.false_eq_true, if_false]

/-- Everything in front of the root is passed over: a declaration first, or else whatever an
instruction can be. -/
theorem skip_prologue (front : Option (Declaration × Spaces)) (n : Nat) (p : Position) :
    let k : Cursor := ⟨prologue front ++ cs, p⟩
    ∃ k' q, (if k.startsWith "<?xml " then k.skipDeclaration else pure k) = .ok k' ∧
      k'.skipMisc (n + 2) = .ok ⟨cs, q⟩ := by
  cases front with
  | none =>
      have hnot : Cursor.startsWith ⟨cs, p⟩ "<?xml " = false := by
        refine Bool.eq_false_iff.2 fun h => Bool.eq_false_iff.1 hcs.instruction ?_
        obtain ⟨more, hmore⟩ := List.isPrefixOf_iff_prefix.1 h
        exact List.isPrefixOf_iff_prefix.2 ⟨"xml ".toList ++ more, hmore⟩
      obtain ⟨q, hq⟩ := skipMisc_ends hcs ⟨[], List.forall_mem_nil _⟩ (n + 1) p
      refine ⟨_, q, ?_, hq⟩
      simp only [prologue, List.nil_append, hnot, Bool.false_eq_true, if_false]
      rfl
  | some front =>
      obtain ⟨d, s⟩ := front
      rw [show prologue (some (d, s)) = d.text ++ s.1 from rfl, List.append_assoc]
      by_cases hblank : Cursor.startsWith ⟨d.text ++ (s.1 ++ cs), p⟩ "<?xml " = true
      · obtain ⟨q₁, hq₁⟩ := d.skipDeclaration (s.1 ++ cs) p
        obtain ⟨q, hq⟩ := skipMisc_ends hcs s (n + 1) q₁
        exact ⟨_, q, (if_pos hblank).trans hq₁, hq⟩
      · obtain ⟨t, ts, ht⟩ := List.exists_cons_of_ne_nil d.version.spaced
        have hne : ∀ x ∈ d.version.before.1.head?, x ≠ ' ' := by
          rw [ht]
          rintro x ⟨⟩ rfl
          exact hblank (by simp [Cursor.startsWith, Declaration.text, Declaration.body,
            Spelling.text, ht])
        obtain ⟨q₁, hq₁⟩ := d.skipInstruction hne (s.1 ++ cs) p
        obtain ⟨q, hq⟩ := skipMisc_ends hcs s n q₁
        refine ⟨_, q, if_neg hblank, ?_⟩
        have hopens : d.text = '<' :: '?' :: 'x' :: 'm' :: 'l' :: (d.body ++ "?>".toList) := rfl
        have hspaces : Cursor.skipSpaces ⟨d.text ++ (s.1 ++ cs), p⟩ = ⟨d.text ++ (s.1 ++ cs), p⟩ :=
          Cursor.skipSpaces_eq (hopens ▸ stopsAt_cons (by decide) _)
        have hcomment : Cursor.startsWith ⟨d.text ++ (s.1 ++ cs), p⟩ "<!--" = false := by
          rw [hopens]
          rfl
        have hinstruction : Cursor.startsWith ⟨d.text ++ (s.1 ++ cs), p⟩ "<?" = true := by
          rw [hopens]
          rfl
        rw [Cursor.skipMisc]
        simp only [hspaces, hcomment, hinstruction, hq₁, Bool.false_eq_true, if_false, if_true]
        exact hq

/-- Behind the front of a document, a document type is refused, and a root element that is
read to the end is the result. -/
theorem parse_behind (front : Option (Declaration × Spaces)) :
    ∃ size q, cs.length ≤ size + 1 ∧
      (Cursor.startsWith ⟨cs, q⟩ "<!DOCTYPE" = true →
        parse (String.ofList (prologue front ++ cs)) = .error .documentType) ∧
      (Cursor.startsWith ⟨cs, q⟩ "<!DOCTYPE" = false → ∀ root q',
        Cursor.readElement (2 * (size + 1) + 2) [] ⟨cs, q⟩ = .ok (some root, ⟨[], q'⟩) →
          parse (String.ofList (prologue front ++ cs)) = .ok root) := by
  obtain ⟨ds, rfl⟩ : ∃ ds, cs = '<' :: ds := by
    cases cs with
    | nil => cases hcs.markup
    | cons c ds => exact ⟨ds, by rw [Option.some.inj hcs.markup]⟩
  have hmark : Cursor.skipByteOrderMark (.start (prologue front ++ '<' :: ds)) =
      ⟨prologue front ++ '<' :: ds, ⟨1, 1⟩⟩ := by
    cases front <;> rfl
  have hsize : (String.ofList (prologue front ++ '<' :: ds)).length =
      (prologue front).length + ds.length + 1 := by
    rw [String.length_ofList, List.length_append, List.length_cons]
    omega
  obtain ⟨k, q, hk, hq⟩ := skip_prologue hcs front ((prologue front).length + ds.length) ⟨1, 1⟩
  have hspaces : Cursor.skipSpaces ⟨'<' :: ds, q⟩ = ⟨'<' :: ds, q⟩ :=
    Cursor.skipSpaces_eq hcs.stopsAt
  have helement : Cursor.startsWith ⟨'<' :: ds, q⟩ "<" = true := by
    simp [Cursor.startsWith]
  have hend : ∀ q', Cursor.skipMisc ((prologue front).length + ds.length + 2) ⟨[], q'⟩ =
      .ok ⟨[], q'⟩ := fun _ => rfl
  refine ⟨(prologue front).length + ds.length, q, by simp, fun htype => ?_,
    fun htype root q' hroot => ?_⟩
  · unfold parse
    simp only [hsize, String.toList_ofList, hmark]
    by_cases hdeclared : Cursor.startsWith ⟨prologue front ++ '<' :: ds, ⟨1, 1⟩⟩ "<?xml " = true
    all_goals
      simp only [hdeclared, Bool.false_eq_true, if_true, if_false] at hk ⊢
      simp [hk, hq, hspaces, htype, bind, Except.bind, throw, throwThe, MonadExceptOf.throw]
  · have hpure : (pure root : Except Error Node) = .ok root := rfl
    unfold parse
    simp only [hsize, String.toList_ofList, hmark]
    by_cases hdeclared : Cursor.startsWith ⟨prologue front ++ '<' :: ds, ⟨1, 1⟩⟩ "<?xml " = true
    all_goals
      simp only [hdeclared, Bool.false_eq_true, if_true, if_false] at hk ⊢
      simp [hk, hq, hspaces, htype, helement, hroot, hend, hpure, bind, Except.bind]

end

theorem parse_of_readElement (front : Option (Declaration × Spaces)) {c : Char}
    (hc : isNameStart c = true) (cs : List Char) (depth : Nat) {root : Node}
    (hdepth : depth ≤ 2 * cs.length)
    (hroot : ∀ n p, depth ≤ n → ∃ q,
      Cursor.readElement n [] ⟨'<' :: c :: cs, p⟩ = .ok (some root, ⟨[], q⟩)) :
    parse (String.ofList (prologue front ++ '<' :: c :: cs)) = .ok root := by
  obtain ⟨size, q, hsize, -, hparse⟩ := parse_behind (endsMisc_element hc cs) front
  simp only [List.length_cons] at hsize
  obtain ⟨q', hq'⟩ := hroot (2 * (size + 1) + 2) q (by omega)
  have hbang : c ≠ '!' := by rintro rfl; exact absurd hc (by decide)
  have htype : Cursor.startsWith ⟨'<' :: c :: cs, q⟩ "<!DOCTYPE" = false := by
    simp [Cursor.startsWith, List.isPrefixOf_cons_cons, Ne.symm hbang]
  exact hparse htype root q' hq'

theorem parse_doctype (front : Option (Declaration × Spaces)) (rest : List Char) :
    parse (String.ofList (prologue front ++ ("<!DOCTYPE".toList ++ rest))) =
      .error .documentType := by
  have hends : EndsMisc ("<!DOCTYPE".toList ++ rest) := ⟨rfl, rfl, rfl⟩
  obtain ⟨size, q, -, hparse, -⟩ := parse_behind hends front
  exact hparse (Cursor.startsWith_append _ _ q)

end DocStamp.Xml
