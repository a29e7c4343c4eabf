/-
# Elements and what is in them

`ReadsAs depth scope content nodes` says that a text, as the content of
any element, is read as a list of nodes.  Its laws follow the ways to
write content: nothing, character data, and an element in front of more
content.
-/
import DocStamp.Proofs.Xml.CharacterData

namespace DocStamp.Xml

open Cursor (IsTagName IsMark)

/-! ## Attributes -/

abbrev Spaces := { cs : List Char // ∀ c ∈ cs, isSpace c = true }

theorem not_isNameChar_of_isSpace {c : Char} (h : isSpace c = true) : isNameChar c = false := by
  simp only [isSpace, Bool.or_eq_true, beq_iff_eq] at h
  rcases h with ((rfl | rfl) | rfl) | rfl <;> decide

theorem isLegal_of_isSpace {c : Char} (h : isSpace c = true) : isLegal c = true := by
  simp only [isSpace, Bool.or_eq_true, beq_iff_eq] at h
  rcases h with ((rfl | rfl) | rfl) | rfl <;> decide

theorem stopsAt_spaces {test : Char → Bool} (htest : ∀ c, isSpace c = true → test c = false)
    (s : Spaces) {b : List Char} (hb : StopsAt test b) : StopsAt test (s.1 ++ b) := by
  obtain ⟨cs, hcs⟩ := s
  cases cs with
  | nil => exact hb
  | cons c cs => exact stopsAt_cons (htest c (hcs c List.mem_cons_self)) _

theorem stopsAt_mark {test : Char → Bool} {c : Char} (h : IsMark c) (hdouble : test '"' = false)
    (hsingle : test '\x27' = false) (cs : List Char) : StopsAt test (c :: cs) := by
  rcases h with rfl | rfl
  · exact stopsAt_cons hdouble _
  · exact stopsAt_cons hsingle _

theorem isLegal_mark {c : Char} (h : IsMark c) : isLegal c = true := by
  rcases h with rfl | rfl <;> decide

theorem readAttribute_append {name : List Char} {tag : TagName}
    (hname : ∀ b p, StopsAt isNameChar b →
      Cursor.readTagName ⟨name ++ b, p⟩ = .ok (tag, ⟨b, p.after name⟩))
    (left right : Spaces) {mark : Char} (hmark : IsMark mark) {value : List Char}
    (hvalue : ∀ c ∈ value, isLegal c = true ∧ c ≠ mark ∧ c ≠ '<') (b : List Char) (p : Position) :
    ∃ at_ q, Cursor.readAttribute
        ⟨name ++ (left.1 ++ '=' :: (right.1 ++ mark :: (value ++ mark :: b))), p⟩ =
      .ok (⟨tag, value, at_⟩, ⟨b, q⟩) := by
  have hstop : StopsAt isNameChar (left.1 ++ '=' :: (right.1 ++ mark :: (value ++ mark :: b))) :=
    stopsAt_spaces (fun _ => not_isNameChar_of_isSpace) left (stopsAt_cons (by decide) _)
  have hequals : StopsAt isSpace ('=' :: (right.1 ++ mark :: (value ++ mark :: b))) :=
    stopsAt_cons (by decide) _
  have hopen : StopsAt isSpace (mark :: (value ++ mark :: b)) :=
    stopsAt_mark hmark (by decide) (by decide) _
  have hinside : ∀ c ∈ value, isLegal c = true ∧ (c == mark || c == '<') = false := by
    intro c hc
    obtain ⟨hlegal, hne, hlt⟩ := hvalue c hc
    exact ⟨hlegal, by simp [hne, hlt]⟩
  have huntil := fun q => Cursor.readUntil_head (p := q)
    (fun cs => cs.head? == some mark || cs.head? == some '<')
    (fun c => c == mark || c == '<') (by simp) hinside (isLegal_mark hmark) (by simp) b
  rw [Cursor.readAttribute, hname _ _ hstop]
  simp only [bind, Except.bind, pure, Except.pure, Cursor.skipSpaces_append left.2 hequals,
    Cursor.expectChar_cons, Cursor.skipSpaces_append right.2 hopen, Cursor.readQuote_cons hmark,
    huntil]
  exact ⟨_, _, rfl⟩

/-- An attribute without its name, as it can be written: white space in front, which is not
optional, and on both sides of the equals sign; a value in quotation marks of either kind. -/
structure Spelling where
  before : Spaces
  left : Spaces
  right : Spaces
  mark : Char
  value : List Char
  spaced : before.1 ≠ []
  isMark : IsMark mark
  legal : ∀ c ∈ value, isLegal c = true ∧ c ≠ mark ∧ c ≠ '<'

namespace Spelling

def tail (a : Spelling) : List Char := a.left.1 ++ '=' :: (a.right.1 ++ a.mark :: (a.value ++ [a.mark]))

def text (a : Spelling) (name : List Char) : List Char := a.before.1 ++ (name ++ a.tail)

theorem readAttribute (a : Spelling) {name : List Char} (hname : IsTagName name) (b : List Char)
    (p : Position) : ∃ at_ q, Cursor.readAttribute ⟨name ++ (a.tail ++ b), p⟩ =
      .ok (⟨⟨"", String.ofList name⟩, a.value, at_⟩, ⟨b, q⟩) := by
  have htail : a.tail ++ b =
      a.left.1 ++ '=' :: (a.right.1 ++ a.mark :: (a.value ++ a.mark :: b)) := by
    simp [tail]
  rw [htail]
  exact readAttribute_append (fun b p hb => Cursor.readTagName_append hname hb) a.left a.right
    a.isMark a.legal b p

end Spelling

/-! ## Tags -/

def startTag (name : List Char) : List Char := '<' :: (name ++ ['>'])

def endTag (name : List Char) : List Char := '<' :: '/' :: (name ++ ['>'])

theorem isTagName_cons {name : List Char} (h : IsTagName name) :
    ∃ c cs, name = c :: cs ∧ isNameStart c = true := by
  cases name with
  | nil => cases h.begins
  | cons c cs => exact ⟨c, cs, rfl, h.begins⟩

theorem readEndTag_append {name : List Char} (h : IsTagName name) (b : List Char) (p : Position) :
    ∃ q, Cursor.readEndTag ⟨"", String.ofList name⟩ ⟨'<' :: '/' :: (name ++ '>' :: b), p⟩ =
      .ok ⟨b, q⟩ := by
  have hname : ∀ q, Cursor.readTagName ⟨name ++ '>' :: b, q⟩ =
      .ok (⟨"", String.ofList name⟩, ⟨'>' :: b, q.after name⟩) :=
    fun q => Cursor.readTagName_append h (stopsAt_cons (by decide) _)
  have hspaces : ∀ q, Cursor.skipSpaces ⟨'>' :: b, q⟩ = ⟨'>' :: b, q⟩ :=
    fun q => Cursor.skipSpaces_eq (stopsAt_cons (by decide) _)
  simp [Cursor.readEndTag, Cursor.advance, hname, hspaces, Cursor.expectChar_cons, bind,
    Except.bind, pure, Except.pure]

theorem readTagBody_close (n : Nat) (body : TagBody) (b : List Char) (p : Position) :
    Cursor.readTagBody (n + 1) body ⟨'>' :: b, p⟩ = .ok (body, .opened, ⟨b, p.next '>'⟩) := by
  have hspaces : Cursor.skipSpaces ⟨'>' :: b, p⟩ = ⟨'>' :: b, p⟩ :=
    Cursor.skipSpaces_eq (stopsAt_cons (by decide) _)
  simp [Cursor.readTagBody, hspaces, Cursor.advance]

theorem readTagBody_attribute (a : Spelling) {name : List Char} (hname : IsTagName name)
    {body body' : TagBody}
    (hvalue : ∀ p, (resolve a.value p).map attributeChars = .ok a.value)
    (hadd : ∀ p, body.add ⟨"", String.ofList name⟩ (String.ofList a.value) p = .ok body')
    (n : Nat) (b : List Char) (p : Position) :
    ∃ q, Cursor.readTagBody (n + 1) body ⟨a.text name ++ b, p⟩ =
      Cursor.readTagBody n body' ⟨b, q⟩ := by
  obtain ⟨s, ss, hs⟩ := List.exists_cons_of_ne_nil a.spaced
  have hspace : isSpace s = true := a.before.2 s (hs ▸ List.mem_cons_self)
  obtain ⟨c, cs, rfl, hstart⟩ := isTagName_cons hname
  have hnotSpace : isSpace c = false := by
    cases h : isSpace c with
    | false => rfl
    | true => exact absurd (hname.goesOn c List.mem_cons_self) (by simp [not_isNameChar_of_isSpace h])
  have htext : a.text (c :: cs) ++ b = s :: (ss ++ (c :: (cs ++ (a.tail ++ b)))) := by
    simp [Spelling.text, hs]
  obtain ⟨q₀, hspaces⟩ : ∃ q₀, Cursor.skipSpaces ⟨s :: (ss ++ (c :: (cs ++ (a.tail ++ b)))), p⟩ =
      ⟨c :: (cs ++ (a.tail ++ b)), q₀⟩ :=
    ⟨_, Cursor.skipSpaces_append (hs ▸ a.before.2) (stopsAt_cons hnotSpace _)⟩
  have hslash : c ≠ '/' := by rintro rfl; exact absurd hstart (by decide)
  have hclose : c ≠ '>' := by rintro rfl; exact absurd hstart (by decide)
  obtain ⟨at_, q, hread⟩ := a.readAttribute hname b q₀
  rw [List.cons_append] at hread
  cases hresolve : resolve a.value at_ with
  | error e =>
      have hds := hvalue at_
      rw [hresolve] at hds
      cases hds
  | ok ds =>
      have hds := hvalue at_
      rw [hresolve] at hds
      refine ⟨q, ?_⟩
      rw [htext, Cursor.readTagBody]
      simp [-String.ofList_cons, Cursor.atSpace, hspace, hspaces, hread, hresolve,
        Except.ok.inj hds, hadd, bind, Except.bind]

/-! ## Content -/

section

variable (n : Nat) (scope : Scope) (opened : TagName) {c : Char} (cs : List Char) (p : Position)

theorem readContent_data (h : c ≠ '<') :
    Cursor.readContent (n + 1) scope opened ⟨c :: cs, p⟩ = (do
      let (s, k) ← Cursor.readText ⟨c :: cs, p⟩
      let (nodes, k) ← Cursor.readContent n scope opened k
      return (Node.consText s nodes, k)) := by
  rw [Cursor.readContent]
  split
  all_goals first
    | rfl
    | (rename_i heq; exact absurd (List.cons.inj heq).1 h)
    | (rename_i heq; cases heq)

theorem readContent_markup (hslash : c ≠ '/') (hquestion : c ≠ '?') (hbang : c ≠ '!') :
    Cursor.readContent (n + 1) scope opened ⟨'<' :: c :: cs, p⟩ = (do
      let (node?, k) ← Cursor.readElement n scope ⟨'<' :: c :: cs, p⟩
      let (nodes, k) ← Cursor.readContent n scope opened k
      return (node?.toList ++ nodes, k)) := by
  rw [Cursor.readContent]
  simp [hslash, hquestion, hbang]

theorem readContent_element (h : isNameStart c = true) :
    Cursor.readContent (n + 1) scope opened ⟨'<' :: c :: cs, p⟩ = (do
      let (node?, k) ← Cursor.readElement n scope ⟨'<' :: c :: cs, p⟩
      let (nodes, k) ← Cursor.readContent n scope opened k
      return (node?.toList ++ nodes, k)) := by
  have hslash : c ≠ '/' := by rintro rfl; exact absurd h (by decide)
  have hquestion : c ≠ '?' := by rintro rfl; exact absurd h (by decide)
  have hbang : c ≠ '!' := by rintro rfl; exact absurd h (by decide)
  exact readContent_markup n scope opened cs p hslash hquestion hbang

end

/-- As the content of any element in a scope, the text is read as the nodes. -/
def ReadsAs (depth : Nat) (scope : Scope) (content : List Char) (nodes : List Node) : Prop :=
  ∀ n name, depth ≤ n → IsTagName name → ∀ b p, ∃ q,
    Cursor.readContent n scope ⟨"", String.ofList name⟩
      ⟨content ++ '<' :: '/' :: (name ++ '>' :: b), p⟩ = .ok (nodes, ⟨b, q⟩)

theorem readsAs_nil (scope : Scope) : ReadsAs 1 scope [] [] := by
  intro n name hn hname b p
  obtain ⟨n, rfl⟩ : ∃ k, n = k + 1 := ⟨n - 1, by omega⟩
  obtain ⟨q, hq⟩ := readEndTag_append hname b p
  refine ⟨q, ?_⟩
  simp [Cursor.readContent, hq, bind, Except.bind, pure, Except.pure]

theorem readsAs_data (scope : Scope) {cs : List Char} (h : IsData cs) (hne : cs ≠ []) :
    ReadsAs 2 scope (escape cs) [.text (String.ofList cs)] := by
  intro n name hn hname b p
  obtain ⟨n, rfl⟩ : ∃ k, n = k + 2 := ⟨n - 2, by omega⟩
  obtain ⟨d, ds, hd⟩ := List.exists_cons_of_ne_nil (escape_ne_nil hne)
  have hlt : d ≠ '<' := (mem_escape (hd ▸ List.mem_cons_self)).1
  have hread := Cursor.readText_escape h ('/' :: (name ++ '>' :: b)) p
  obtain ⟨q, hend⟩ := readsAs_nil scope (n + 1) name (by omega) hname b (p.after (escape cs))
  rw [List.nil_append] at hend
  refine ⟨q, ?_⟩
  rw [hd, List.cons_append] at hread ⊢
  rw [readContent_data _ _ _ _ _ hlt]
  simp only [hread, ← hd, hend, bind, Except.bind, pure, Except.pure, Node.consText]

theorem readElement_append {name attributes content : List Char} (hname : IsTagName name)
    (hstop : StopsAt isNameChar (attributes ++ ['>'])) {body : TagBody}
    (hbody : ∀ n, attributes.length < n → ∀ b p, ∃ q,
      Cursor.readTagBody n .empty ⟨attributes ++ '>' :: b, p⟩ = .ok (body, .opened, ⟨b, q⟩))
    {around scope : Scope} {full : Name}
    (hclose : ∀ p, body.close around ⟨"", String.ofList name⟩ p = .ok (full, scope))
    {depth n : Nat} {children : List Node} (hcontent : ReadsAs depth scope content children)
    (hn : depth ≤ n) (b : List Char) (p : Position) :
    ∃ q, Cursor.readElement (n + 1) around
        ⟨'<' :: (name ++ (attributes ++ '>' :: (content ++ '<' :: '/' :: (name ++ '>' :: b)))), p⟩ =
      .ok (some (.element full children), ⟨b, q⟩) := by
  have hstop' : StopsAt isNameChar
      (attributes ++ '>' :: (content ++ '<' :: '/' :: (name ++ '>' :: b))) := by
    cases attributes with
    | nil => exact stopsAt_cons (by decide) _
    | cons c cs => exact stopsAt_cons (hstop c rfl) _
  have hlength : attributes.length <
      (attributes ++ '>' :: (content ++ '<' :: '/' :: (name ++ '>' :: b))).length + 1 := by
    rw [List.length_append]
    omega
  obtain ⟨q₁, hq₁⟩ := hbody _ hlength (content ++ '<' :: '/' :: (name ++ '>' :: b))
    ((p.next '<').after name)
  obtain ⟨q₂, hq₂⟩ := hcontent n name hn hname b q₁
  refine ⟨q₂, ?_⟩
  rw [Cursor.readElement]
  simp only [Cursor.advance, Cursor.readTagName_append hname hstop', hq₁, hclose, hq₂, bind,
    Except.bind, pure, Except.pure]
  rfl

/-- The name of elements without a short name. -/
def Scope.plainName (scope : Scope) (name : List Char) : Name :=
  ⟨(scope.find? fun d => d.1 == none).map (·.2), String.ofList name⟩

theorem close_empty (scope : Scope) (name : List Char) (p : Position) :
    TagBody.close .empty scope ⟨"", String.ofList name⟩ p =
      .ok (scope.plainName name, scope) := by
  have hspace : Scope.space scope "" p = .ok ((scope.find? fun d => d.1 == none).map (·.2)) := by
    simp only [Scope.space, beq_self_eq_true, if_true]
    cases scope.find? fun d => d.1 == none <;> rfl
  have hwithin : Scope.within scope [] = scope := by simp [Scope.within, Scope.declares]
  simp only [TagBody.close, TagBody.empty, hwithin, TagBody.checkAttributes, hspace,
    Scope.plainName, bind, Except.bind, pure, Except.pure]

theorem readsAs_element {scope : Scope} {name content more : List Char} (hname : IsTagName name)
    {depth depth' : Nat} {children nodes : List Node}
    (hcontent : ReadsAs depth scope content children) (hmore : ReadsAs depth' scope more nodes) :
    ReadsAs (depth + depth' + 2) scope (startTag name ++ (content ++ (endTag name ++ more)))
      (.element (scope.plainName name) children :: nodes) := by
  intro n outer hn houter b p
  obtain ⟨n, rfl⟩ : ∃ k, n = k + 2 := ⟨n - 2, by omega⟩
  have hbody : ∀ m, ([] : List Char).length < m → ∀ b p, ∃ q,
      Cursor.readTagBody m .empty ⟨[] ++ '>' :: b, p⟩ = .ok (.empty, .opened, ⟨b, q⟩) := by
    intro m hm b p
    obtain ⟨m, rfl⟩ : ∃ k, m = k + 1 := ⟨m - 1, by simp at hm; omega⟩
    exact ⟨_, readTagBody_close m .empty b p⟩
  obtain ⟨q₁, hq₁⟩ := readElement_append hname (stopsAt_cons (by decide) []) hbody
    (close_empty scope name) hcontent (n := n) (by omega)
    (more ++ '<' :: '/' :: (outer ++ '>' :: b)) p
  obtain ⟨q₂, hq₂⟩ := hmore (n + 1) outer (by omega) houter b q₁
  refine ⟨q₂, ?_⟩
  have htext : startTag name ++ (content ++ (endTag name ++ more)) ++
      '<' :: '/' :: (outer ++ '>' :: b) = '<' :: (name ++ ([] ++ '>' :: (content ++
        '<' :: '/' :: (name ++ '>' :: (more ++ '<' :: '/' :: (outer ++ '>' :: b)))))) := by
    simp [startTag, endTag]
  obtain ⟨c, cs, rfl, hstart⟩ := isTagName_cons hname
  rw [htext]
  rw [List.cons_append] at hq₁ ⊢
  rw [readContent_element _ _ _ _ _ hstart]
  simp only [hq₁, hq₂, bind, Except.bind, pure, Except.pure]
  rfl

end DocStamp.Xml
