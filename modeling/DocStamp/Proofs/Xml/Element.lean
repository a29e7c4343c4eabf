/-
# Elements and content, piece by piece

Content is read item by item up to the end tag: `readContent_eq` and
`readElement_eq` cut the two readers at the start tag (`readStartTag`)
and behind the first item (`readItem`).  With this, what was said of the
small readers holds of whole elements: an element that is read once is
read in the same way in front of any other text, at any position, and
with any larger bound on the recursion (`isElement_isContent`).

The positions of attributes are kept in a start tag for the sake of
errors.  Two tags that differ in nothing else have the same names.
-/
import DocStamp.Proofs.Xml.Local

namespace DocStamp.Xml

/-! ## Start tags -/

namespace TagBody

variable {b b' c : TagBody}

/-- What a start tag holds, without the positions. -/
def names (b : TagBody) : Scope × List TagName := (b.declared, b.attributes.map (·.1))

theorem declareShort_congr (hbc : b.names = c.names) {short value : String} {p : Position}
    (h : b.declareShort short value p = .ok b') (q : Position) :
    ∃ c', c.declareShort short value q = .ok c' ∧ b'.names = c'.names := by
  obtain ⟨hdeclared, hattributes⟩ := Prod.mk.inj hbc
  rw [declareShort, hdeclared] at h
  rw [declareShort]
  split at h
  · cases h
  · split at h
    · cases h
    · split at h
      · cases h
      · split at h
        · cases h
        · rw [if_neg ‹_›, if_neg ‹_›, if_neg ‹_›, if_neg ‹_›]
          split at h
          · obtain rfl := Except.ok.inj h
            rw [if_pos ‹_›]
            exact ⟨c, rfl, hbc⟩
          · obtain rfl := Except.ok.inj h
            rw [if_neg ‹_›]
            exact ⟨_, rfl, Prod.ext rfl hattributes⟩

theorem declareDefault_congr (hbc : b.names = c.names) {value : String} {p : Position}
    (h : b.declareDefault value p = .ok b') (q : Position) :
    ∃ c', c.declareDefault value q = .ok c' ∧ b'.names = c'.names := by
  obtain ⟨hdeclared, hattributes⟩ := Prod.mk.inj hbc
  rw [declareDefault, hdeclared] at h
  rw [declareDefault]
  split at h
  · cases h
  · split at h
    · cases h
    · rw [if_neg ‹_›, if_neg ‹_›]
      obtain rfl := Except.ok.inj h
      exact ⟨_, rfl, Prod.ext rfl hattributes⟩

theorem add_congr (hbc : b.names = c.names) {name : TagName} {value : String} {p : Position}
    (h : b.add name value p = .ok b') (q : Position) :
    ∃ c', c.add name value q = .ok c' ∧ b'.names = c'.names := by
  obtain ⟨hdeclared, hattributes⟩ := Prod.mk.inj hbc
  rw [add] at h ⊢
  split at h
  · rw [if_pos ‹_›]
    exact declareShort_congr hbc h q
  · rw [if_neg ‹_›]
    split at h
    · rw [if_pos ‹_›]
      exact declareDefault_congr hbc h q
    · rw [if_neg ‹_›]
      obtain rfl := Except.ok.inj h
      refine ⟨_, rfl, Prod.ext hdeclared ?_⟩
      show (b.attributes ++ [(name, p)]).map (·.1) = (c.attributes ++ [(name, q)]).map (·.1)
      rw [List.map_append, List.map_append, hattributes]
      rfl

theorem space_at {scope : Scope} {short : String} {p : Position} {s : Option String}
    (h : scope.space short p = .ok s) (q : Position) : scope.space short q = .ok s := by
  rw [Scope.space] at h ⊢
  split at h
  · exact h
  · split at h
    · rw [if_pos ‹_›]
      exact h
    · cases h

theorem attributeSpace_at {scope : Scope} {name : TagName} {p : Position} {s : Option String}
    (h : attributeSpace scope name p = .ok s) (q : Position) :
    attributeSpace scope name q = .ok s := by
  rw [attributeSpace] at h ⊢
  split at h
  · rw [if_pos ‹_›]
    exact h
  · rw [if_neg ‹_›]
    split at h
    · rw [if_pos ‹_›]
      exact h
    · rw [if_neg ‹_›]
      exact space_at h q

theorem checkAttributes_congr {scope : Scope} {seen : List Name}
    {as bs : List (TagName × Position)} (has : as.map (·.1) = bs.map (·.1))
    (h : checkAttributes scope seen as = .ok ()) : checkAttributes scope seen bs = .ok () := by
  induction as generalizing bs seen with
  | nil =>
      obtain rfl := List.map_eq_nil_iff.1 has.symm
      rfl
  | cons a as ih =>
      obtain ⟨x, xs, rfl, hx, hxs⟩ := List.map_eq_cons_iff.1 has.symm
      obtain ⟨name, p⟩ := a
      obtain ⟨name', q⟩ := x
      obtain rfl : name' = name := hx
      rw [checkAttributes] at h ⊢
      obtain ⟨s, hs, h⟩ := ok_of_bind h
      rw [attributeSpace_at hs q]
      simp only at h
      split at h
      · cases h
      · rename_i hseen
        simp only [bind, Except.bind, hseen]
        exact ih hxs.symm h

theorem close_congr (hbc : b.names = c.names) {around : Scope} {name : TagName} {p : Position}
    {r : Name × Scope} (h : b.close around name p = .ok r) (q : Position) :
    c.close around name q = .ok r := by
  obtain ⟨hdeclared, hattributes⟩ := Prod.mk.inj hbc
  rw [close, hdeclared] at h
  rw [close]
  obtain ⟨⟨⟩, hcheck, h⟩ := ok_of_bind h
  obtain ⟨s, hs, h⟩ := ok_of_bind h
  rw [checkAttributes_congr hattributes hcheck, space_at hs q]
  exact h

end TagBody

namespace Cursor

variable {k k' : Cursor} {cs : List Char} {p : Position}

/-- A start tag goes on, behind white space, with one of its two ends or an attribute. -/
theorem readTagBody_cons (n : Nat) (body : TagBody) {s : List Char}
    (hs : ∀ c ∈ s, isSpace c = true) {c : Char} (hc : isSpace c = false) (cs : List Char)
    (p : Position) :
    readTagBody (n + 1) body ⟨s ++ c :: cs, p⟩ =
      if c = '/' then (do
        return (body, .closed, ← expectChar '>' ⟨cs, (p.after s).next c⟩))
      else if c = '>' then .ok (body, .opened, ⟨cs, (p.after s).next c⟩)
      else if s = [] then .error (.blank (firstByte c) (p.after s))
      else (do
        let (a, k) ← readAttribute ⟨c :: cs, p.after s⟩
        let value := attributeChars (← resolve a.value a.valueAt)
        readTagBody n (← body.add a.name (String.ofList value) (p.after s)) k) := by
  have hspaces := skipSpaces_append (p := p) hs (stopsAt_cons hc cs)
  have hspaced : atSpace ⟨s ++ c :: cs, p⟩ = !s.isEmpty := by
    cases s with
    | nil => exact hc
    | cons d s => exact hs d List.mem_cons_self
  rw [readTagBody, hspaced, hspaces]
  by_cases hslash : c = '/'
  · subst hslash
    simp [advance]
  · by_cases hclose : c = '>'
    · subst hclose
      simp [advance]
    · cases s with
      | nil => simp [hslash, hclose]
      | cons d s => simp [hslash, hclose]

/-- Behind its name, the text is read as the rest of a start tag in front of any text.  The bound
is on the number of attributes. -/
def IsTagRest (a : List Char) (ending : TagEnd) (before after : TagBody) : Prop :=
  ∀ n (body : TagBody) b p, a.length < n → body.names = before.names → ∃ body' q,
    readTagBody n body ⟨a ++ b, p⟩ = .ok (body', ending, ⟨b, q⟩) ∧ body'.names = after.names

theorem isTagRest_closed {s : List Char} (hs : ∀ c ∈ s, isSpace c = true) (body : TagBody) :
    IsTagRest (s ++ ['/', '>']) .closed body body := by
  intro n body₁ b p hn hbody
  obtain ⟨n, rfl⟩ : ∃ m, n = m + 1 := ⟨n - 1, by omega⟩
  have hslash : isSpace '/' = false := by decide
  refine ⟨body₁, ((p.after s).next '/').next '>', ?_, hbody⟩
  rw [List.append_assoc, List.cons_append, readTagBody_cons n body₁ hs hslash, if_pos rfl]
  simp only [List.cons_append, List.nil_append, expectChar_cons, bind, Except.bind]
  rfl

theorem isTagRest_opened {s : List Char} (hs : ∀ c ∈ s, isSpace c = true) (body : TagBody) :
    IsTagRest (s ++ ['>']) .opened body body := by
  intro n body₁ b p hn hbody
  obtain ⟨n, rfl⟩ : ∃ m, n = m + 1 := ⟨n - 1, by omega⟩
  have hclose : isSpace '>' = false := by decide
  refine ⟨body₁, (p.after s).next '>', ?_, hbody⟩
  rw [List.append_assoc, List.cons_append, readTagBody_cons n body₁ hs hclose, if_neg (by decide),
    if_pos rfl]
  rfl

theorem isTagRest_attribute {s a rest : List Char} {ending : TagEnd}
    {before between after : TagBody} {r : RawAttribute} {ds : List Datum}
    (hs : ∀ c ∈ s, isSpace c = true) (hne : s ≠ []) {c : Char} (hc : isSpace c = false)
    (hslash : c ≠ '/') (hclose : c ≠ '>') (ha : a.head? = some c)
    (hread : ∀ b p, ∃ at_ q, readAttribute ⟨a ++ b, p⟩ = .ok (⟨r.name, r.value, at_⟩, ⟨b, q⟩))
    (hvalue : ∀ p, resolve r.value p = .ok ds)
    (hadd : before.add r.name (String.ofList (attributeChars ds)) p = .ok between)
    (hrest : IsTagRest rest ending between after) :
    IsTagRest (s ++ (a ++ rest)) ending before after := by
  obtain ⟨cs, rfl⟩ := List.head?_eq_some_iff.1 ha
  intro n body b p' hn hbody
  obtain ⟨n, rfl⟩ : ∃ m, n = m + 1 := ⟨n - 1, by omega⟩
  simp only [List.length_append, List.length_cons] at hn
  obtain ⟨at_, q, hread⟩ := hread (rest ++ b) (p'.after s)
  obtain ⟨body₁, hbody₁, hnames⟩ := TagBody.add_congr hbody.symm hadd (p'.after s)
  obtain ⟨body', q', htag, hafter⟩ := hrest n body₁ b q (by omega) hnames.symm
  refine ⟨body', q', ?_, hafter⟩
  rw [List.append_assoc, List.append_assoc, List.cons_append, readTagBody_cons n body hs hc,
    if_neg hslash, if_neg hclose, if_neg hne, ← List.cons_append, hread]
  simp only [bind, Except.bind, hvalue, hbody₁]
  exact htag

/-- A start tag is cut off by the end of the document, or it is read in the same way in front of
any text. -/
theorem of_readTagBody {n : Nat} {body body' : TagBody} {ending : TagEnd}
    (h : readTagBody n body k = .ok (body', ending, k')) :
    (ending = .cut ∧ (k.rest.length < n → k'.rest = [])) ∨
    (ending ≠ .cut ∧ ∃ a, k.rest = a ++ k'.rest ∧ a ≠ [] ∧ IsTagRest a ending body body') := by
  induction n generalizing k body with
  | zero =>
      cases h
      exact .inl ⟨rfl, fun hn => absurd hn (Nat.not_lt_zero _)⟩
  | succ n ih =>
      obtain ⟨text, p⟩ := k
      obtain ⟨s, hs, hspace, hstop⟩ := of_skipSpaces ⟨text, p⟩
      cases hrest : (skipSpaces ⟨text, p⟩).rest with
      | nil =>
          simp only [readTagBody, hrest] at h
          split at h
          · rename_i hempty
            cases h
            exact .inl ⟨rfl, fun _ => List.isEmpty_iff.1 hempty⟩
          · cases h
      | cons c cs =>
          rw [hrest] at hs hstop
          obtain rfl : text = s ++ c :: cs := hs
          rw [readTagBody_cons n body hspace (hstop c rfl)] at h
          split at h
          · rename_i hslash
            obtain ⟨k₁, hclose, h⟩ := ok_of_bind h
            cases h
            refine .inr ⟨by simp, s ++ ['/', '>'], ?_, by simp, isTagRest_closed hspace _⟩
            rw [hslash, show cs = '>' :: k'.rest from of_expectChar hclose]
            simp
          · split at h
            · rename_i hclose
              cases h
              refine .inr ⟨by simp, s ++ ['>'], ?_, by simp, isTagRest_opened hspace _⟩
              simp [hclose]
            · split at h
              · cases h
              · rename_i hslash hclose hne
                obtain ⟨⟨r, k₁⟩, hread, h⟩ := ok_of_bind h
                obtain ⟨ds, hds, h⟩ := ok_of_bind h
                obtain ⟨between, hadd, h⟩ := ok_of_bind h
                obtain ⟨a, ha, hane, hlocal⟩ := of_readAttribute hread
                have hvalue := resolve_of_resolveFrom hds (Nat.le_refl _)
                have hhead : a.head? = some c := by
                  obtain ⟨d, a, rfl⟩ := List.exists_cons_of_ne_nil hane
                  exact congrArg some (List.cons.inj ha).1.symm
                have hlength := congrArg List.length ha
                have hpos := List.length_pos_iff.2 hane
                simp only [List.length_cons, List.length_append] at hlength
                rcases ih h with ⟨hcut, hend⟩ | ⟨hcut, rest, hk₁, hrestne, hrest⟩
                · refine .inl ⟨hcut, fun hn => hend ?_⟩
                  simp only [List.length_append, List.length_cons] at hn
                  omega
                · refine .inr ⟨hcut, s ++ (a ++ rest), ?_, by simp [hne], ?_⟩
                  · rw [show c :: cs = a ++ k₁.rest from ha, hk₁]
                    simp
                  · exact isTagRest_attribute hspace hne (hstop c rfl) hslash hclose hhead hlocal
                      hvalue hadd hrest

end Cursor

/-- A start tag that is complete: the name as it is written, the name that it stands for, the
scope inside the element, and whether content follows. -/
structure StartTag where
  written : TagName
  name : Name
  scope : Scope
  opened : Bool

namespace Cursor

variable {k k' : Cursor} {cs : List Char} {p : Position}

/-- Reads a start tag, unless the document ends in it. -/
def readStartTag (around : Scope) (k : Cursor) : Except Error (Option StartTag × Cursor) := do
  let k := k.advance 1
  let (name, k') ← k.readTagName
  if name.space == "xmlns" then throw (.elementXmlns k.position)
  let (body, ending, k') ← readTagBody (k'.rest.length + 1) .empty k'
  if ending = .cut then return (none, k')
  let (full, scope) ← body.close around name k.position
  return (some ⟨name, full, scope, ending == .opened⟩, k')

theorem readElement_eq (n : Nat) (around : Scope) (k : Cursor) :
    readElement (n + 1) around k = (do
      let (tag?, k) ← readStartTag around k
      match tag? with
      | none => return (none, k)
      | some tag =>
          if tag.opened then do
            let (children, k) ← readContent n tag.scope tag.written k
            return (some (.element tag.name children), k)
          else return (some (.element tag.name []), k)) := by
  rw [readElement, readStartTag]
  cases (k.advance 1).readTagName with
  | error e => rfl
  | ok r =>
      obtain ⟨name, k₁⟩ := r
      simp only [bind, Except.bind]
      split
      · rfl
      · cases readTagBody (k₁.rest.length + 1) .empty k₁ with
        | error e => rfl
        | ok r =>
            obtain ⟨body, ending, k₂⟩ := r
            cases ending with
            | cut => rfl
            | closed =>
                simp only [reduceCtorEq, if_false]
                cases body.close around name (k.advance 1).position <;> rfl
            | opened =>
                simp only [reduceCtorEq, if_false]
                cases body.close around name (k.advance 1).position <;> rfl

/-- What stands behind an opening sign does not make it anything else than an element. -/
def BeginsElement (a : List Char) : Prop :=
  ∃ c a', a = c :: a' ∧ c ≠ '/' ∧ c ≠ '?' ∧ c ≠ '!'

theorem BeginsElement.append {a : List Char} (h : BeginsElement a) (b : List Char) :
    BeginsElement (a ++ b) := by
  obtain ⟨c, a, rfl, hc⟩ := h
  exact ⟨c, a ++ b, rfl, hc⟩

theorem beginsElement_of_name {a : List Char} (hne : a ≠ [])
    (hall : ∀ c ∈ a, isNameChar c = true) : BeginsElement a := by
  obtain ⟨c, a, rfl⟩ := List.exists_cons_of_ne_nil hne
  have hname : ∀ d, isNameChar d = false → c ≠ d := by
    rintro d hd rfl
    exact absurd (hall c List.mem_cons_self) (by simp [hd])
  exact ⟨c, a, rfl, hname '/' (by decide), hname '?' (by decide), hname '!' (by decide)⟩

/-- Behind an opening sign, the text is read as a start tag in front of any text. -/
structure IsStartTag (around : Scope) (a : List Char) (tag : StartTag) : Prop where
  begins : BeginsElement a
  reads : ∀ b p, ∃ q, readStartTag around ⟨'<' :: (a ++ b), p⟩ = .ok (some tag, ⟨b, q⟩)

theorem isStartTag_readStartTag {around : Scope} {tag : StartTag}
    (h : readStartTag around ⟨'<' :: cs, p⟩ = .ok (some tag, k')) :
    ∃ a, cs = a ++ k'.rest ∧ IsStartTag around a tag := by
  obtain ⟨⟨name, k₁⟩, hname, h⟩ := ok_of_bind h
  simp only at h
  split at h
  · cases h
  · rename_i hxmlns
    obtain ⟨⟨body, ending, k₂⟩, hbody, h⟩ := ok_of_bind h
    simp only at h
    split at h
    · cases h
    · rename_i hcut
      obtain ⟨⟨full, scope⟩, hclose, h⟩ := ok_of_bind h
      cases h
      obtain ⟨a, ha, hane, hall, hstop, hlocal⟩ := of_readTagName hname
      rcases of_readTagBody hbody with ⟨hend, -⟩ | ⟨-, rest, hk₁, hrestne, hrest⟩
      · exact absurd hend hcut
      · refine ⟨a ++ rest, ?_, (beginsElement_of_name hane hall).append rest, fun b p => ?_⟩
        · rw [show cs = a ++ k₁.rest from ha, hk₁, List.append_assoc]
        · rw [hk₁] at hstop
          have hstop' := stopsAt_front hrestne hstop b
          have hlength : rest.length < (rest ++ b).length + 1 := by
            rw [List.length_append]
            omega
          obtain ⟨body', q, hbody', hnames⟩ :=
            hrest ((rest ++ b).length + 1) .empty b ((p.next '<').after a) hlength rfl
          have hclose' := TagBody.close_congr hnames.symm hclose (p.next '<')
          refine ⟨q, ?_⟩
          have hopen : advance 1 ⟨'<' :: (a ++ rest ++ b), p⟩ = ⟨a ++ (rest ++ b), p.next '<'⟩ := by
            rw [List.append_assoc]
            rfl
          rw [readStartTag, hopen]
          simp only [hlocal _ _ hstop', bind, Except.bind, hxmlns, hbody', hcut, hclose', if_false]
          rfl

theorem rest_of_readStartTag {around : Scope} (h : readStartTag around k = .ok (none, k')) :
    k'.rest = [] := by
  obtain ⟨⟨name, k₁⟩, -, h⟩ := ok_of_bind h
  simp only at h
  split at h
  · cases h
  · obtain ⟨⟨body, ending, k₂⟩, hbody, h⟩ := ok_of_bind h
    simp only at h
    split at h
    · rename_i hcut
      cases h
      rcases of_readTagBody hbody with ⟨-, hend⟩ | ⟨hne, -⟩
      · exact hend (Nat.lt_succ_self _)
      · exact absurd hcut hne
    · obtain ⟨⟨full, scope⟩, -, h⟩ := ok_of_bind h
      cases h

theorem of_readEndTag {opened : TagName} (h : readEndTag opened ⟨"</".toList ++ cs, p⟩ = .ok k') :
    ∃ a, cs = a ++ k'.rest ∧
      ∀ b p, ∃ q, readEndTag opened ⟨"</".toList ++ (a ++ b), p⟩ = .ok ⟨b, q⟩ := by
  have hopen : ∀ cs p, advance 2 ⟨"</".toList ++ cs, p⟩ = ⟨cs, p.after "</".toList⟩ :=
    advance_append "</".toList
  simp only [readEndTag, hopen] at h ⊢
  obtain ⟨⟨name, k₁⟩, hname, h⟩ := ok_of_bind h
  obtain ⟨k₂, hclose, h⟩ := ok_of_bind h
  obtain ⟨a, ha, -, -, hstop, hlocal⟩ := of_readTagName hname
  obtain ⟨s, hs, hspace, -⟩ := of_skipSpaces k₁
  rw [of_expectChar hclose] at hs
  split at h
  · cases h
  · rename_i hopened
    cases h
    refine ⟨a ++ (s ++ ['>']), ?_, fun b p => ?_⟩
    · rw [show cs = a ++ k₁.rest from ha, hs]
      simp
    · rw [hs] at hstop
      have hstop' : StopsAt isNameChar (s ++ '>' :: b) :=
        stopsAt_spaces (fun _ => not_isNameChar_of_isSpace) ⟨s, hspace⟩ (stopsAt_cons (by decide) b)
      have hspaces := fun q => skipSpaces_append (p := q) hspace (b := '>' :: b)
        (stopsAt_cons (by decide) b)
      simp only [List.append_assoc, List.cons_append, List.nil_append, hlocal _ _ hstop', hspaces,
        expectChar_cons, bind, Except.bind, hopened]
      exact ⟨_, rfl⟩

end Cursor

/-! ## Items of content -/

/-- One item of content: a node of its own, or character data. -/
inductive Item where
  | node (n : Node)
  | text (s : String)

/-- Puts an item in front of nodes. -/
def Item.push : Item → List Node → List Node
  | .node n, nodes => n :: nodes
  | .text s, nodes => Node.consText s nodes

namespace Cursor

variable {k k' : Cursor} {cs : List Char} {p : Position}

/-- Reads one item of content, which is no end tag.  There is none when the document ends inside
a start tag. -/
def readItem (n : Nat) (scope : Scope) (k : Cursor) : Except Error (Option Item × Cursor) :=
  match k.rest with
  | [] => .error .unclosedRoot
  | ['<'] => .error (.unknownToken k.position)
  | '<' :: '/' :: _ => .error (.unknownToken k.position)
  | '<' :: '?' :: _ => do return (some (.node .instruction), ← k.skipInstruction)
  | '<' :: '!' :: _ =>
      if k.startsWith "<!--" then do return (some (.node .comment), ← k.skipComment)
      else if k.startsWith "<![CDATA[" then do
        let (s, k) ← k.readSection
        return (some (.text s), k)
      else .error (.unknownToken k.position)
  | '<' :: _ => do
      let (node?, k) ← readElement n scope k
      return (node?.map .node, k)
  | _ => do
      let (s, k) ← k.readText
      return (some (.text s), k)

theorem readItem_instruction (n : Nat) (scope : Scope) (cs : List Char) (p : Position) :
    readItem n scope ⟨"<?".toList ++ cs, p⟩ = (do
      return (some (.node .instruction), ← skipInstruction ⟨"<?".toList ++ cs, p⟩)) := rfl

theorem readItem_comment (n : Nat) (scope : Scope) (cs : List Char) (p : Position) :
    readItem n scope ⟨"<!--".toList ++ cs, p⟩ = (do
      return (some (.node .comment), ← skipComment ⟨"<!--".toList ++ cs, p⟩)) := rfl

theorem readItem_section (n : Nat) (scope : Scope) (cs : List Char) (p : Position) :
    readItem n scope ⟨"<![CDATA[".toList ++ cs, p⟩ = (do
      let (s, k) ← readSection ⟨"<![CDATA[".toList ++ cs, p⟩
      return (some (.text s), k)) := rfl

theorem readItem_element (n : Nat) (scope : Scope) {c : Char} (hslash : c ≠ '/')
    (hquestion : c ≠ '?') (hbang : c ≠ '!') (cs : List Char) (p : Position) :
    readItem n scope ⟨'<' :: c :: cs, p⟩ = (do
      let (node?, k) ← readElement n scope ⟨'<' :: c :: cs, p⟩
      return (node?.map .node, k)) := by
  simp [readItem, hslash, hquestion, hbang]

theorem readItem_text (n : Nat) (scope : Scope) {c : Char} (hc : c ≠ '<') (cs : List Char)
    (p : Position) :
    readItem n scope ⟨c :: cs, p⟩ = (do
      let (s, k) ← readText ⟨c :: cs, p⟩
      return (some (.text s), k)) := by
  simp [readItem, hc]

/-- Content is an end tag, or an item and more content. -/
theorem readContent_eq (n : Nat) (scope : Scope) (opened : TagName) (k : Cursor) :
    readContent (n + 1) scope opened k =
      if k.startsWith "</" then do return ([], ← k.readEndTag opened)
      else (do
        let (item?, k) ← readItem n scope k
        let (nodes, k) ← readContent n scope opened k
        return (item?.elim nodes (·.push nodes), k)) := by
  obtain ⟨cs, p⟩ := k
  have hstart : ∀ c cs, startsWith ⟨c :: cs, p⟩ "</" = (c == '<' && cs.head? == some '/') := by
    intro c cs
    cases cs with
    | nil => simp [startsWith, List.isPrefixOf]
    | cons d cs => simp [startsWith, List.isPrefixOf, Bool.beq_comm]
  cases cs with
  | nil => rfl
  | cons c cs =>
      rw [hstart]
      by_cases hc : c = '<'
      · subst hc
        cases cs with
        | nil => rfl
        | cons d cs =>
            by_cases hslash : d = '/'
            · subst hslash
              simp [readContent]
            · rw [if_neg (by simpa using hslash)]
              by_cases hquestion : d = '?'
              · subst hquestion
                simp only [readContent, readItem]
                cases skipInstruction ⟨'<' :: '?' :: cs, p⟩ <;> rfl
              · by_cases hbang : d = '!'
                · subst hbang
                  simp only [readContent, readItem]
                  split
                  · cases skipComment ⟨'<' :: '!' :: cs, p⟩ <;> rfl
                  · split
                    · cases readSection ⟨'<' :: '!' :: cs, p⟩ <;> rfl
                    · rfl
                · rw [readItem_element n scope hslash hquestion hbang,
                    readContent_markup n scope opened cs p hslash hquestion hbang]
                  cases readElement n scope ⟨'<' :: d :: cs, p⟩ with
                  | error e => rfl
                  | ok r =>
                      obtain ⟨node?, k⟩ := r
                      cases node? <;> rfl
      · rw [if_neg (by simpa using fun h => absurd h hc), readItem_text n scope hc,
          readContent_data n scope opened cs p hc]
        cases readText ⟨c :: cs, p⟩ <;> rfl

/-- How an item was read. -/
inductive ItemRead (n : Nat) (scope : Scope) (p : Position) (k' : Cursor) :
    List Char → Option Item → Prop
  | instruction {cs : List Char} : skipInstruction ⟨"<?".toList ++ cs, p⟩ = .ok k' →
      ItemRead n scope p k' ("<?".toList ++ cs) (some (.node .instruction))
  | comment {cs : List Char} : skipComment ⟨"<!--".toList ++ cs, p⟩ = .ok k' →
      ItemRead n scope p k' ("<!--".toList ++ cs) (some (.node .comment))
  | cdata {cs : List Char} {s : String} :
      readSection ⟨"<![CDATA[".toList ++ cs, p⟩ = .ok (s, k') →
      ItemRead n scope p k' ("<![CDATA[".toList ++ cs) (some (.text s))
  | element {c : Char} {cs : List Char} {node? : Option Node} : c ≠ '/' → c ≠ '?' → c ≠ '!' →
      readElement n scope ⟨'<' :: c :: cs, p⟩ = .ok (node?, k') →
      ItemRead n scope p k' ('<' :: c :: cs) (node?.map .node)
  | text {c : Char} {cs : List Char} {s : String} : c ≠ '<' →
      readText ⟨c :: cs, p⟩ = .ok (s, k') → ItemRead n scope p k' (c :: cs) (some (.text s))

theorem itemRead {n : Nat} {scope : Scope} {item? : Option Item}
    (h : readItem n scope ⟨cs, p⟩ = .ok (item?, k')) : ItemRead n scope p k' cs item? := by
  cases cs with
  | nil => cases h
  | cons c cs =>
      by_cases hc : c = '<'
      · subst hc
        cases cs with
        | nil => cases h
        | cons d cs =>
            by_cases hslash : d = '/'
            · subst hslash
              cases h
            · by_cases hquestion : d = '?'
              · subst hquestion
                obtain ⟨k₁, hk₁, h⟩ := ok_of_bind h
                cases h
                exact .instruction hk₁
              · by_cases hbang : d = '!'
                · subst hbang
                  simp only [readItem] at h
                  split at h
                  · rename_i hstart
                    obtain ⟨rest, hrest⟩ := startsWith_iff.1 hstart
                    rw [show '<' :: '!' :: cs = "<!--".toList ++ rest from hrest] at h ⊢
                    obtain ⟨k₁, hk₁, h⟩ := ok_of_bind h
                    cases h
                    exact .comment hk₁
                  · split at h
                    · rename_i hstart
                      obtain ⟨rest, hrest⟩ := startsWith_iff.1 hstart
                      rw [show '<' :: '!' :: cs = "<![CDATA[".toList ++ rest from hrest] at h ⊢
                      obtain ⟨⟨s, k₁⟩, hk₁, h⟩ := ok_of_bind h
                      cases h
                      exact .cdata hk₁
                    · cases h
                · rw [readItem_element n scope hslash hquestion hbang] at h
                  obtain ⟨⟨node?, k₁⟩, hk₁, h⟩ := ok_of_bind h
                  cases h
                  exact .element hslash hquestion hbang hk₁
      · rw [readItem_text n scope hc] at h
        obtain ⟨⟨s, k₁⟩, hk₁, h⟩ := ok_of_bind h
        cases h
        exact .text hc hk₁

theorem not_endTag_of_readItem {n : Nat} {scope : Scope} {r : Option Item × Cursor}
    (h : readItem n scope k = .ok r) : k.startsWith "</" = false := by
  refine Bool.eq_false_iff.2 fun hstart => ?_
  obtain ⟨cs, hcs⟩ := startsWith_iff.1 hstart
  obtain ⟨text, p⟩ := k
  obtain rfl : text = "</".toList ++ cs := hcs
  cases h

/-! ## Whole elements -/

/-- Behind an opening sign, the text is read as an element in front of any text. -/
structure IsElement (n : Nat) (scope : Scope) (a : List Char) (node : Node) : Prop where
  begins : BeginsElement a
  reads : ∀ m b p, n ≤ m → ∃ q,
    readElement m scope ⟨'<' :: (a ++ b), p⟩ = .ok (some node, ⟨b, q⟩)

/-- The text is read as an item in front of any text.  Behind character data only markup ends
the item. -/
structure IsItem (n : Nat) (scope : Scope) (a : List Char) (item : Item) : Prop where
  ne_nil : a ≠ []
  reads : ∀ m b p, n ≤ m → (a.head? = some '<' ∨ ∀ c ∈ b.head?, c = '<') → ∃ q,
    readItem m scope ⟨a ++ b, p⟩ = .ok (some item, ⟨b, q⟩)

/-- The text is read as content and an end tag in front of any text. -/
structure IsContent (n : Nat) (scope : Scope) (opened : TagName) (a : List Char)
    (nodes : List Node) : Prop where
  ne_nil : a ≠ []
  reads : ∀ m b p, n ≤ m → ∃ q, readContent m scope opened ⟨a ++ b, p⟩ = .ok (nodes, ⟨b, q⟩)

variable {n : Nat} {scope : Scope} {opened : TagName} {a c : List Char} {item : Item}
  {nodes : List Node}

theorem readItem_tag (n : Nat) (scope : Scope) {a : List Char} (hbegins : BeginsElement a)
    (b : List Char) (p : Position) :
    readItem n scope ⟨'<' :: (a ++ b), p⟩ = (do
      let (node?, k) ← readElement n scope ⟨'<' :: (a ++ b), p⟩
      return (node?.map .node, k)) := by
  obtain ⟨d, a, rfl, hslash, hquestion, hbang⟩ := hbegins
  exact readItem_element n scope hslash hquestion hbang (a ++ b) p

theorem IsElement.isItem {node : Node} (h : IsElement n scope a node) :
    IsItem n scope ('<' :: a) (.node node) := by
  refine ⟨by simp, fun m b p hm _ => ?_⟩
  obtain ⟨q, hq⟩ := h.reads m b p hm
  refine ⟨q, ?_⟩
  rw [List.cons_append, readItem_tag m scope h.begins, hq]
  rfl

theorem IsItem.isContent (h : IsItem n scope a item) (hc : IsContent n scope opened c nodes)
    (hend : a.head? = some '<' ∨ ∀ d ∈ c.head?, d = '<') :
    IsContent (n + 1) scope opened (a ++ c) (item.push nodes) := by
  refine ⟨by simp [h.ne_nil], fun m b p hm => ?_⟩
  obtain ⟨m, rfl⟩ : ∃ k, m = k + 1 := ⟨m - 1, by omega⟩
  have hend' : a.head? = some '<' ∨ ∀ d ∈ (c ++ b).head?, d = '<' := by
    obtain ⟨d, c, rfl⟩ := List.exists_cons_of_ne_nil hc.ne_nil
    exact hend
  obtain ⟨q, hitem⟩ := h.reads m (c ++ b) p (by omega) hend'
  obtain ⟨q', hcontent⟩ := hc.reads m b q (by omega)
  refine ⟨q', ?_⟩
  rw [List.append_assoc, readContent_eq, not_endTag_of_readItem hitem, hitem]
  simp only [Bool.false_eq_true, if_false, bind, Except.bind, hcontent]
  rfl

theorem isItem_of_markup {mark : List Char} (hmark : mark.head? = some '<')
    (h : ∀ m b p, ∃ q, readItem m scope ⟨mark ++ (a ++ b), p⟩ = .ok (some item, ⟨b, q⟩)) :
    IsItem n scope (mark ++ a) item ∧ (mark ++ a).head? = some '<' := by
  obtain ⟨mark, rfl⟩ := List.head?_eq_some_iff.1 hmark
  refine ⟨⟨by simp, fun m b p _ _ => ?_⟩, rfl⟩
  rw [List.append_assoc]
  exact h m b p

theorem isItem_of_isRaw {raw : List Char} {ds : List Datum} (h : IsRaw raw ds) (hne : raw ≠ []) :
    IsItem n scope raw (.text (String.ofList (dataChars ds))) := by
  obtain ⟨d, raw, rfl⟩ := List.exists_cons_of_ne_nil hne
  have hd : d ≠ '<' := (h.legal d List.mem_cons_self).2
  refine ⟨hne, fun m b p _ hb => ⟨p.after (d :: raw), ?_⟩⟩
  have hread := h.readText (hb.resolve_left fun h => hd (Option.some.inj h)) p
  rw [List.cons_append] at hread ⊢
  rw [readItem_text m scope hd, hread]
  rfl

theorem isItem_of_readItem (helement : ∀ {cs p node k'},
      readElement n scope ⟨'<' :: cs, p⟩ = .ok (some node, k') →
        ∃ a, cs = a ++ k'.rest ∧ IsElement n scope a node)
    (h : readItem n scope ⟨cs, p⟩ = .ok (some item, k')) :
    ∃ a, cs = a ++ k'.rest ∧ IsItem n scope a item ∧
      (a.head? = some '<' ∨ ∀ c ∈ k'.rest.head?, c = '<') := by
  generalize hitem : some item = item? at h
  cases itemRead h with
  | @instruction cs hread =>
      obtain rfl := Option.some.inj hitem
      obtain ⟨a, rfl, hlocal⟩ := of_skipInstruction hread
      obtain ⟨hitem, hhead⟩ : IsItem n scope ("<?".toList ++ a) (.node .instruction) ∧ _ := by
        refine isItem_of_markup rfl fun m b p => ?_
        obtain ⟨q, hq⟩ := hlocal b p
        exact ⟨q, by rw [readItem_instruction, hq]; rfl⟩
      exact ⟨_, (List.append_assoc _ _ _).symm, hitem, .inl hhead⟩
  | @comment cs hread =>
      obtain rfl := Option.some.inj hitem
      obtain ⟨a, rfl, hlocal⟩ := of_skipComment hread
      obtain ⟨hitem, hhead⟩ : IsItem n scope ("<!--".toList ++ a) (.node .comment) ∧ _ := by
        refine isItem_of_markup rfl fun m b p => ?_
        obtain ⟨q, hq⟩ := hlocal b p
        exact ⟨q, by rw [readItem_comment, hq]; rfl⟩
      exact ⟨_, (List.append_assoc _ _ _).symm, hitem, .inl hhead⟩
  | @cdata cs s hread =>
      obtain rfl := Option.some.inj hitem
      obtain ⟨a, rfl, hlocal⟩ := of_readSection hread
      obtain ⟨hitem, hhead⟩ : IsItem n scope ("<![CDATA[".toList ++ a) (.text s) ∧ _ := by
        refine isItem_of_markup rfl fun m b p => ?_
        obtain ⟨q, hq⟩ := hlocal b p
        exact ⟨q, by rw [readItem_section, hq]; rfl⟩
      exact ⟨_, (List.append_assoc _ _ _).symm, hitem, .inl hhead⟩
  | @element d cs node? _ _ _ hread =>
      obtain ⟨node, rfl, rfl⟩ := Option.map_eq_some_iff.1 hitem.symm
      obtain ⟨a, ha, hlocal⟩ := helement hread
      exact ⟨'<' :: a, congrArg ('<' :: ·) ha, hlocal.isItem, .inl rfl⟩
  | @text d cs s hd hread =>
      obtain rfl := Option.some.inj hitem
      obtain ⟨raw, ds, hraw, hdata, rfl, hend⟩ := of_readText hread
      have hne : raw ≠ [] := by
        rintro rfl
        exact hd (hend d (by rw [← show d :: cs = k'.rest from hraw]; rfl))
      exact ⟨raw, hraw, isItem_of_isRaw hdata hne, .inr hend⟩

/-- Only the end of the document cuts an element off. -/
theorem rest_of_readElement (h : readElement n scope k = .ok (none, k')) : k'.rest = [] := by
  cases n with
  | zero => cases h
  | succ n =>
      rw [readElement_eq] at h
      obtain ⟨⟨tag?, k₁⟩, htag, helement⟩ := ok_of_bind h
      cases tag? with
      | none =>
          cases helement
          exact rest_of_readStartTag htag
      | some tag =>
          simp only at helement
          split at helement
          · obtain ⟨r, -, hnode⟩ := ok_of_bind helement
            cases hnode
          · cases helement

theorem rest_of_readItem (h : readItem n scope ⟨cs, p⟩ = .ok (none, k')) : k'.rest = [] := by
  generalize hitem : (none : Option Item) = item? at h
  cases itemRead h with
  | @element c cs node? _ _ _ hread =>
      obtain rfl := Option.map_eq_none_iff.1 hitem.symm
      exact rest_of_readElement hread
  | instruction | comment | cdata | text => cases hitem

theorem IsStartTag.isElement {tag : StartTag} {children : List Node}
    (htag : IsStartTag scope a tag) (hopened : tag.opened = true)
    (hc : IsContent n tag.scope tag.written c children) :
    IsElement (n + 1) scope (a ++ c) (.element tag.name children) := by
  refine ⟨htag.begins.append c, fun m b p hm => ?_⟩
  obtain ⟨m, rfl⟩ : ∃ k, m = k + 1 := ⟨m - 1, by omega⟩
  obtain ⟨q, hq⟩ := htag.reads (c ++ b) p
  obtain ⟨q', hq'⟩ := hc.reads m b q (by omega)
  refine ⟨q', ?_⟩
  rw [List.append_assoc, readElement_eq, hq]
  simp only [bind, Except.bind, hopened, if_true, hq']
  rfl

theorem IsStartTag.isElement_closed {tag : StartTag} (htag : IsStartTag scope a tag)
    (hopened : tag.opened = false) : IsElement (n + 1) scope a (.element tag.name []) := by
  refine ⟨htag.begins, fun m b p hm => ?_⟩
  obtain ⟨m, rfl⟩ : ∃ k, m = k + 1 := ⟨m - 1, by omega⟩
  obtain ⟨q, hq⟩ := htag.reads b p
  refine ⟨q, ?_⟩
  rw [readElement_eq, hq]
  simp only [bind, Except.bind, hopened]
  rfl

/-- What was read as an element or as content is read in the same way in front of any text, at
any position, with any larger bound. -/
theorem isElement_isContent (n : Nat) :
    (∀ {scope cs p node k'}, readElement n scope ⟨'<' :: cs, p⟩ = .ok (some node, k') →
      ∃ a, cs = a ++ k'.rest ∧ IsElement n scope a node) ∧
    (∀ {scope opened cs p nodes k'}, readContent n scope opened ⟨cs, p⟩ = .ok (nodes, k') →
      ∃ a, cs = a ++ k'.rest ∧ IsContent n scope opened a nodes) := by
  induction n with
  | zero =>
      constructor
      · intro scope cs p node k' h
        cases h
      · intro scope opened cs p nodes k' h
        cases h
  | succ n ih =>
      obtain ⟨ihElement, ihContent⟩ := ih
      constructor
      · intro scope cs p node k' h
        rw [readElement_eq] at h
        obtain ⟨⟨tag?, k₁⟩, htag, helement⟩ := ok_of_bind h
        cases tag? with
        | none => cases helement
        | some tag =>
            obtain ⟨a, rfl, hlocal⟩ := isStartTag_readStartTag htag
            simp only at helement
            split at helement
            · rename_i hopened
              obtain ⟨⟨children, k₂⟩, hcontent, hnode⟩ := ok_of_bind helement
              cases hnode
              obtain ⟨c, hc, hchildren⟩ := ihContent hcontent
              refine ⟨a ++ c, ?_, hlocal.isElement hopened hchildren⟩
              rw [hc, List.append_assoc]
            · rename_i hopened
              cases helement
              exact ⟨a, rfl, hlocal.isElement_closed (by simpa using hopened)⟩
      · intro scope opened cs p nodes k' h
        rw [readContent_eq] at h
        split at h
        · rename_i hstart
          obtain ⟨rest, hrest⟩ := startsWith_iff.1 hstart
          obtain rfl : cs = "</".toList ++ rest := hrest
          obtain ⟨k₁, hend, h⟩ := ok_of_bind h
          cases h
          obtain ⟨a, rfl, hlocal⟩ := of_readEndTag hend
          refine ⟨"</".toList ++ a, (List.append_assoc _ _ _).symm, by simp, fun m b p hm => ?_⟩
          obtain ⟨m, rfl⟩ : ∃ k, m = k + 1 := ⟨m - 1, by omega⟩
          obtain ⟨q, hq⟩ := hlocal b p
          refine ⟨q, ?_⟩
          rw [List.append_assoc, readContent_eq, startsWith_append, if_pos rfl, hq]
          rfl
        · obtain ⟨⟨item?, k₁⟩, hread, hafter⟩ := ok_of_bind h
          obtain ⟨⟨more, k₂⟩, hmore, hnodes⟩ := ok_of_bind hafter
          cases hnodes
          obtain ⟨rest, q⟩ := k₁
          obtain ⟨c, rfl, hcontent⟩ := ihContent hmore
          cases item? with
          | none =>
              have hend := rest_of_readItem hread
              exact absurd (List.append_eq_nil_iff.1 hend).1 hcontent.ne_nil
          | some item =>
              obtain ⟨a, rfl, hitem, hmarkup⟩ := isItem_of_readItem ihElement hread
              refine ⟨a ++ c, (List.append_assoc _ _ _).symm, hitem.isContent hcontent ?_⟩
              obtain ⟨d, c, rfl⟩ := List.exists_cons_of_ne_nil hcontent.ne_nil
              exact hmarkup

theorem isItem_readItem (h : readItem n scope ⟨cs, p⟩ = .ok (some item, k')) :
    ∃ a, cs = a ++ k'.rest ∧ IsItem n scope a item ∧
      (a.head? = some '<' ∨ ∀ c ∈ k'.rest.head?, c = '<') :=
  isItem_of_readItem (isElement_isContent n).1 h

theorem isContent_readContent (h : readContent n scope opened ⟨cs, p⟩ = .ok (nodes, k')) :
    ∃ a, cs = a ++ k'.rest ∧ IsContent n scope opened a nodes :=
  (isElement_isContent n).2 h

end Cursor

end DocStamp.Xml
