/-
# What the small readers read

Each lemma is about a text `a ++ b`: the reader takes `a` and leaves `b`,
at the position behind `a`.  What `b` has to begin with, so that the
reader stops there, is a hypothesis.
-/
import DocStamp.Xml.Cursor

namespace DocStamp.Xml

def Position.after (p : Position) (cs : List Char) : Position := cs.foldl Position.next p

@[simp] theorem Position.after_nil (p : Position) : p.after [] = p := rfl

@[simp] theorem Position.after_cons (p : Position) (c : Char) (cs : List Char) :
    p.after (c :: cs) = (p.next c).after cs := rfl

theorem forall_mem_of_all {P : Char → Prop} [DecidablePred P] {cs : List Char}
    (h : cs.all (fun c => decide (P c)) = true) : ∀ c ∈ cs, P c := by
  intro c hc
  exact of_decide_eq_true (List.all_eq_true.1 h c hc)

/-- No character of the test comes first in the text. -/
def StopsAt (test : Char → Bool) (b : List Char) : Prop := ∀ c ∈ b.head?, test c = false

theorem stopsAt_cons {test : Char → Bool} {c : Char} (h : test c = false) (cs : List Char) :
    StopsAt test (c :: cs) := by simpa [StopsAt] using h

namespace Cursor

variable {a b : List Char} {p : Position}

theorem advance_append (a b : List Char) (p : Position) :
    advance a.length ⟨a ++ b, p⟩ = ⟨b, p.after a⟩ := by
  induction a generalizing p with
  | nil => rfl
  | cons c cs ih => exact ih (p.next c)

theorem takeWhile_append {test : Char → Bool} (ha : ∀ c ∈ a, test c = true)
    (hb : StopsAt test b) : takeWhile test (a ++ b) p = (a, ⟨b, p.after a⟩) := by
  induction a generalizing p with
  | nil =>
      cases b with
      | nil => rfl
      | cons c cs => simp [takeWhile, hb c rfl]
  | cons c cs ih =>
      have hcs : ∀ d ∈ cs, test d = true := fun d hd => ha d (List.mem_cons_of_mem _ hd)
      simp [takeWhile, ha c List.mem_cons_self, ih hcs]

theorem skipSpaces_append (ha : ∀ c ∈ a, isSpace c = true) (hb : StopsAt isSpace b) :
    skipSpaces ⟨a ++ b, p⟩ = ⟨b, p.after a⟩ := by
  simp only [skipSpaces, takeWhile_append ha hb]

theorem skipSpaces_eq (hb : StopsAt isSpace b) : skipSpaces ⟨b, p⟩ = ⟨b, p⟩ :=
  skipSpaces_append (List.forall_mem_nil _) hb

/-- Reading goes on where the test fails, and stops where it holds first. -/
theorem readUntil_append {stop : List Char → Bool}
    (ha : ∀ x c y, a = x ++ c :: y → isLegal c = true ∧ stop (c :: y ++ b) = false)
    (hb : ∃ c cs, b = c :: cs ∧ isLegal c = true ∧ stop (c :: cs) = true) :
    readUntil stop (a ++ b) p = .ok (a, ⟨b, p.after a⟩) := by
  induction a generalizing p with
  | nil =>
      obtain ⟨c, cs, rfl, hlegal, hstop⟩ := hb
      simp [readUntil, hlegal, hstop]
  | cons c cs ih =>
      obtain ⟨hlegal, hstop⟩ := ha [] c cs rfl
      have hcs := ih (p := p.next c) fun x d y h => ha (c :: x) d y (by rw [h]; rfl)
      rw [List.cons_append] at hstop
      simp [readUntil, hlegal, hstop, hcs]

theorem readUntil_head (stop : List Char → Bool) (test : Char → Bool)
    (hstop : ∀ c cs, stop (c :: cs) = test c)
    (ha : ∀ c ∈ a, isLegal c = true ∧ test c = false)
    {c : Char} (hlegal : isLegal c = true) (hc : test c = true) (cs : List Char) :
    readUntil stop (a ++ c :: cs) p = .ok (a, ⟨c :: cs, p.after a⟩) := by
  refine readUntil_append (fun x d y h => ?_) ⟨c, cs, rfl, hlegal, by rw [hstop, hc]⟩
  obtain ⟨hd, htest⟩ := ha d (h ▸ List.mem_append_right _ List.mem_cons_self)
  exact ⟨hd, by rw [List.cons_append, hstop, htest]⟩

theorem expectChar_cons (c : Char) (b : List Char) (p : Position) :
    expectChar c ⟨c :: b, p⟩ = .ok ⟨b, p.next c⟩ := by
  simp [expectChar, advance]

theorem startsWith_append (s : String) (b : List Char) (p : Position) :
    startsWith ⟨s.toList ++ b, p⟩ s = true :=
  List.isPrefixOf_iff_prefix.2 ⟨b, rfl⟩

theorem expectString_append (s : String) (b : List Char) (p : Position) :
    expectString s ⟨s.toList ++ b, p⟩ = .ok ⟨b, p.after s.toList⟩ := by
  rw [expectString, startsWith_append, if_pos rfl, ← String.length_toList, advance_append]

def IsMark (c : Char) : Prop := c = '"' ∨ c = '\x27'

theorem readQuote_cons {c : Char} (h : IsMark c) (b : List Char) (p : Position) :
    readQuote ⟨c :: b, p⟩ = .ok (c, ⟨b, p.next c⟩) := by
  rcases h with rfl | rfl <;> simp [readQuote, advance]

/-- A name without a colon. -/
structure IsTagName (name : List Char) : Prop where
  begins : beginsName name = true
  goesOn : ∀ c ∈ name, isNameChar c = true
  noColon : ':' ∉ name

instance (name : List Char) : Decidable (IsTagName name) :=
  decidable_of_iff (beginsName name = true ∧ name.all isNameChar = true ∧ ':' ∉ name)
    ⟨fun h => ⟨h.1, List.all_eq_true.1 h.2.1, h.2.2⟩,
      fun h => ⟨h.begins, List.all_eq_true.2 h.goesOn, h.noColon⟩⟩

theorem readTagName_append (ha : IsTagName a) (hb : StopsAt isNameChar b) :
    readTagName ⟨a ++ b, p⟩ = .ok (⟨"", String.ofList a⟩, ⟨b, p.after a⟩) := by
  have hfirst : a.takeWhile (· != ':') = a := by
    have hall : ∀ c ∈ a, (c != ':') = true := by
      intro c hc
      exact bne_iff_ne.2 fun h : c = ':' => ha.noColon (h ▸ hc)
    have htake : (a ++ []).takeWhile (· != ':') = a ++ [].takeWhile (· != ':') :=
      List.takeWhile_append_of_pos hall
    simpa using htake
  simp [readTagName, takeWhile_append ha.goesOn hb, hfirst, ha.begins]

theorem readName_append (hbegins : beginsName a = true) (ha : ∀ c ∈ a, isNameChar c = true)
    (hb : StopsAt isNameChar b) :
    readName ⟨a ++ b, p⟩ = .ok (String.ofList a, ⟨b, p.after a⟩) := by
  cases a with
  | nil => cases hbegins
  | cons c cs =>
      have hread := takeWhile_append (p := p) ha hb
      rw [List.cons_append] at hread
      have hc : isNameStart c = true := hbegins
      simp [readName, hc, hread]

end Cursor

end DocStamp.Xml
