/-
# Literal blocks

A literal block is a head line with marks, then the lines of the text,
each indented unless it is empty.  A text with several lines is taken
apart into the line breaks it begins with, its body, and the line breaks
it ends with; the marks tell the reader how many of the last there are.
-/
import DocStamp.Proofs.Yaml.Cursor

namespace DocStamp.Yaml

namespace Cursor

def Chomping.sign : Chomping → List Char
  | .strip => ['-']
  | .clip => []
  | .keep => ['+']

/-- What is left of the line breaks at the end. -/
def Chomping.left (chomping : Chomping) (first more : List Char) : List Char :=
  match chomping with
  | .strip => []
  | .clip => first
  | .keep => first ++ more

variable {from_ m : Mark} {b : List Char}

/-! ## The head line -/

/-- The digit of an indentation that cannot be seen. -/
def digitMark (deep : Bool) : List Char := if deep then ['2'] else []

theorem readBlockHeader_marks (deep : Bool) (chomping : Chomping) (b : List Char) (m : Mark) :
    readBlockHeader from_ ⟨digitMark deep ++ (chomping.sign ++ '\n' :: b), m⟩ =
      .ok (chomping, if deep then some 2 else none,
        ⟨'\n' :: b, m.after (digitMark deep ++ chomping.sign)⟩) := by
  cases deep <;> cases chomping <;> rfl

/-! ## Empty lines -/

section

variable {indent col n widest : Nat} {next : List Char}

theorem skipIndent_spaces (hm : m.column = 0)
    (hnext : col = indent ∨ col < indent ∧ StopsAt isSpace next) :
    skipIndent (some indent) ⟨spaces col ++ next, m⟩ = ⟨next, m.after (spaces col)⟩ := by
  have hall : ∀ c ∈ spaces col, (c == ' ') = true := fun c hc => beq_iff_eq.2 (mem_spaces hc)
  have hle : col ≤ indent := by omega
  have hstop : (next.take (indent - col)).takeWhile (· == ' ') = [] := by
    rcases hnext with rfl | ⟨hlt, hspace⟩
    · rw [Nat.sub_self]
      rfl
    · cases next with
      | nil =>
          rw [List.take_nil]
          rfl
      | cons c cs =>
          have hc : (c == ' ') = false := hspace c rfl
          obtain ⟨k, hk⟩ := Nat.exists_eq_add_one_of_ne_zero (by omega : indent - col ≠ 0)
          rw [hk, List.take_succ_cons, List.takeWhile_cons, hc, if_neg Bool.false_ne_true]
  have htake : ((spaces col ++ next).take (indent - m.column)).takeWhile (· == ' ') =
      spaces col := by
    rw [hm, Nat.sub_zero, List.take_append, length_spaces, List.take_of_length_le
      (Nat.le_trans (Nat.le_of_eq (length_spaces col)) hle), List.takeWhile_append_of_pos hall,
      hstop, List.append_nil]
  simp only [skipIndent, htake]
  exact skipN_append isBreak_of_mem_spaces next m

theorem skipIndent_stop {c : Char} (hc : isSpace c = false) (ind : Option Nat) :
    skipIndent ind ⟨c :: b, m⟩ = ⟨c :: b, m⟩ := by
  have hspace : (c == ' ') = false := hc
  cases ind with
  | none => simp only [skipIndent, read, takeWhile, hspace, Bool.false_eq_true, if_false]
  | some k =>
      have htake : ((c :: b).take (k - m.column)).takeWhile (· == ' ') = [] := by
        cases k - m.column with
        | zero => rfl
        | succ n => rw [List.take_succ_cons, List.takeWhile_cons, hspace, if_neg Bool.false_ne_true]
      simp only [skipIndent, htake]
      rfl

theorem readEmptyLines_break {c : Char} (hbreak : isBreak c = true) (hprint : isPrintable c = true)
    (ind : Option Nat) : readEmptyLines ind from_ (n + 1) widest ⟨c :: b, m⟩ =
      (readEmptyLines ind from_ n (max widest m.column) ⟨b, m.step c⟩).map
        fun r => (c :: r.1, r.2) := by
  have hspace : isSpace c = false := by
    rcases break_cases hbreak hprint with rfl | rfl | rfl <;> rfl
  have htab : charNext '\t' (c :: b) = false := by
    rcases break_cases hbreak hprint with rfl | rfl | rfl <;> rfl
  have hnext : breakNext (c :: b) = true := hbreak
  simp only [readEmptyLines, skipIndent_stop hspace, htab, hnext, List.isEmpty_cons, Bool.and_false,
    Bool.false_eq_true, if_false, Bool.not_true, Bool.or_self, readBreak_cons hbreak hprint]
  cases readEmptyLines ind from_ n (max widest m.column) ⟨b, m.step c⟩ with
  | error e => rfl
  | ok r => rfl

theorem readEmptyLines_line {ind : Option Nat} {k : Cursor} (hskip : skipIndent ind k = ⟨next, m⟩)
    (hbreak : StopsAt isBreak next) (htab : charNext '\t' next = false) :
    readEmptyLines ind from_ (n + 1) widest k = .ok ([], max widest m.column, ⟨next, m⟩) := by
  have hend : (next.isEmpty || !breakNext next) = true := by
    cases next with
    | nil => rfl
    | cons c cs =>
        have hc : breakNext (c :: cs) = false := hbreak c rfl
        rw [hc]
        rfl
  simp only [readEmptyLines, hskip, htab, hend, Bool.and_false, Bool.false_eq_true, if_false,
    if_true]
  rfl

theorem readEmptyLines_breaks (from_ : Mark) {bs : List Char}
    (hbs : ∀ c ∈ bs, isBreak c = true ∧ isPrintable c = true) (hm : m.column = 0)
    (hnext : col = indent ∨ col < indent ∧ StopsAt isSpace next)
    (hbreak : StopsAt isBreak next) (htab : charNext '\t' next = false)
    (hn : bs.length < n) (widest : Nat) :
    ∃ w, readEmptyLines (some indent) from_ n widest ⟨bs ++ (spaces col ++ next), m⟩ =
      .ok (bs, w, ⟨next, m.after (bs ++ spaces col)⟩) := by
  induction bs generalizing n m widest with
  | nil =>
      obtain ⟨n, rfl⟩ := Nat.exists_eq_add_one_of_ne_zero (Nat.ne_zero_of_lt hn)
      exact ⟨_, readEmptyLines_line (skipIndent_spaces hm hnext) hbreak htab⟩
  | cons c bs ih =>
      obtain ⟨n, rfl⟩ := Nat.exists_eq_add_one_of_ne_zero (Nat.ne_zero_of_lt hn)
      obtain ⟨hc, hprint⟩ := hbs c List.mem_cons_self
      have hcolumn : (m.step c).column = 0 := by
        rw [Mark.step_of_break hc]
        rfl
      obtain ⟨w, hmore⟩ := ih (fun d hd => hbs d (List.mem_cons_of_mem c hd)) hcolumn
        (Nat.lt_of_succ_lt_succ hn) _
      refine ⟨w, ?_⟩
      rw [List.cons_append, readEmptyLines_break hc hprint, hmore]
      rfl

/-! ## Lines -/

variable {chomping : Chomping}

/-- A line, the break behind it, empty lines, and the indentation of the next line. -/
theorem readBlockLines_line {line bs first more t : List Char} {c : Char} {blank : Bool}
    {k : Cursor} (hline : ∀ d ∈ line, isBreak d = false)
    (hc : isBreak c = true ∧ isPrintable c = true)
    (hbs : ∀ d ∈ bs, isBreak d = true ∧ isPrintable d = true) (hm : m.column = indent)
    (hnext : col = indent ∨ col < indent ∧ StopsAt isSpace next)
    (hbreak : StopsAt isBreak next) (htab : charNext '\t' next = false)
    (hmore : ∀ blank, readBlockLines false chomping indent from_ n [c] bs blank
      ⟨next, m.after (line ++ c :: (bs ++ spaces col))⟩ = .ok (t, k)) :
    readBlockLines false chomping indent from_ (n + 1) first more blank
        ⟨line ++ c :: (bs ++ (spaces col ++ next)), m⟩ =
      .ok (first ++ more ++ (line ++ t), k) := by
  have hhere : (decide (m.column = indent) &&
      !(line ++ c :: (bs ++ (spaces col ++ next))).isEmpty) = true := by
    rw [decide_eq_true hm]
    simp
  have hread : read (fun d => !isBreak d) ⟨line ++ c :: (bs ++ (spaces col ++ next)), m⟩ =
      (line, ⟨c :: (bs ++ (spaces col ++ next)), m.after line⟩) := by
    refine read_append (fun d hd => ?_) (stopsAt_cons ?_ _)
    · rw [hline d hd]
      exact ⟨rfl, rfl⟩
    · rw [hc.1]
      rfl
  have hcolumn : ((m.after line).step c).column = 0 := by
    rw [Mark.step_of_break hc.1]
    rfl
  have hlen : bs.length < (bs ++ (spaces col ++ next)).length + 1 := by
    rw [List.length_append]
    omega
  obtain ⟨w, hempty⟩ := readEmptyLines_breaks from_ hbs hcolumn hnext hbreak htab hlen 0
  have hjoint : ∀ blankHere, joinLines false first more blank blankHere = first ++ more :=
    fun _ => rfl
  rw [Mark.after_append, Mark.after_cons] at hmore
  simp only [readBlockLines, hhere, hread, readBreak_cons hc.1 hc.2, hempty, hmore, hjoint, ok_bind,
    if_true, List.append_assoc]
  rfl

theorem readBlockLines_end {first more : List Char} {blank : Bool} (hm : m.column ≠ indent) :
    readBlockLines false chomping indent from_ (n + 1) first more blank ⟨b, m⟩ =
      .ok (chomping.left first more, ⟨b, m⟩) := by
  have hcolumn : (decide (m.column = indent) && !b.isEmpty) = false := by
    rw [decide_eq_false hm, Bool.false_and]
  cases chomping <;> simp only [readBlockLines, hcolumn, Bool.false_eq_true, if_false] <;> rfl

theorem indentLines_line (indent : Nat) {line : List Char}
    (hline : ∀ d ∈ line, isBreak d = false) (cs : List Char) :
    indentLines indent false (line ++ cs) = line ++ indentLines indent false cs := by
  induction line with
  | nil => rfl
  | cons c line ih =>
      rw [List.cons_append, indentLines, hline c List.mem_cons_self,
        ih fun d hd => hline d (List.mem_cons_of_mem c hd)]
      rfl

theorem indentLines_breaks {bs : List Char} (hne : bs ≠ []) (hbs : ∀ d ∈ bs, isBreak d = true)
    (fresh : Bool) (cs : List Char) :
    indentLines indent fresh (bs ++ cs) = bs ++ indentLines indent true cs := by
  induction bs generalizing fresh with
  | nil => exact absurd rfl hne
  | cons c bs ih =>
      rw [List.cons_append, indentLines, hbs c List.mem_cons_self, if_pos rfl]
      cases bs with
      | nil => rfl
      | cons d bs =>
          rw [ih (List.cons_ne_nil d bs) fun e he => hbs e (List.mem_cons_of_mem c he)]
          rfl

theorem indentLines_fresh {cs : List Char} (hne : cs ≠ []) (hcs : StopsAt isBreak cs) :
    indentLines indent true cs = spaces indent ++ indentLines indent false cs := by
  obtain ⟨c, cs, rfl⟩ := List.exists_cons_of_ne_nil hne
  rw [indentLines, indentLines, hcs c rfl]
  rfl

/-- The part of a text between the line breaks it begins with and those it ends with. -/
structure IsBody (cs : List Char) : Prop where
  ne_nil : cs ≠ []
  begins : StopsAt isBreak cs
  ends : ∀ c ∈ cs.getLast?, isBreak c = false
  printable : ∀ c ∈ cs, isPrintable c = true

theorem IsBody.behind_breaks {cs bs body : List Char} (h : IsBody (cs ++ (bs ++ body)))
    (hne : bs ≠ []) (hbs : ∀ c ∈ bs, isBreak c = true) (hbody : StopsAt isBreak body) :
    IsBody body := by
  have hlast : body ≠ [] := by
    rintro rfl
    have hends := h.ends (bs.getLast hne) (by
      rw [List.append_nil, List.getLast?_append, List.getLast?_eq_some_getLast hne]
      rfl)
    rw [hbs _ (List.getLast_mem hne)] at hends
    cases hends
  refine ⟨hlast, hbody, ?_, ?_⟩
  · intro c hc
    refine h.ends c ?_
    rw [List.getLast?_append, List.getLast?_append, Option.mem_def.1 hc]
    rfl
  · intro c hc
    exact h.printable c (List.mem_append_right cs (List.mem_append_right bs hc))

theorem IsBody.stopsAt {body : List Char} (h : IsBody body) {test : Char → Bool}
    (htest : StopsAt test body) (indent : Nat) (b : List Char) :
    StopsAt test (indentLines indent false body ++ b) := by
  obtain ⟨c, cs, rfl⟩ := List.exists_cons_of_ne_nil h.ne_nil
  have hshape := indentLines_line indent (List.forall_mem_singleton.2 (h.begins c rfl)) cs
  rw [List.singleton_append] at hshape
  rw [hshape]
  exact stopsAt_cons (htest c rfl) _

theorem IsBody.noTab {body : List Char} (h : IsBody body) (indent : Nat) (b : List Char) :
    charNext '\t' (indentLines indent false body ++ b) = false := by
  refine charNext_of_stopsAt (h.stopsAt (fun c hc => beq_false_of_ne ?_) indent b)
  rintro rfl
  cases h.printable '\t' (List.mem_of_mem_head? hc)

theorem readBlockLines_body (chomping : Chomping) (from_ : Mark) {bs : List Char} {c : Char}
    (hc : isBreak c = true ∧ isPrintable c = true)
    (hbs : ∀ d ∈ bs, isBreak d = true ∧ isPrintable d = true)
    (hcol : col < indent) (hspace : StopsAt isSpace next)
    (hbreak : StopsAt isBreak next) (htab : charNext '\t' next = false) (body : List Char)
    (hbody : IsBody body) :
    ∀ n m first more blank, body.length < n → m.column = indent →
      readBlockLines false chomping indent from_ n first more blank
          ⟨indentLines indent false body ++ c :: (bs ++ (spaces col ++ next)), m⟩ =
        .ok (first ++ more ++ (body ++ chomping.left [c] bs),
          ⟨next, m.after (indentLines indent false body ++ c :: (bs ++ spaces col))⟩) := by
  induction body using runs_induction isBreak with
  | last run hrun =>
      intro n m first more blank hn hm
      -- One step for the line, one to see that the next line lies further left.
      have hlen := List.length_pos_iff.2 hbody.ne_nil
      obtain ⟨n, rfl⟩ := Nat.exists_eq_add_one_of_ne_zero (Nat.ne_zero_of_lt hn)
      obtain ⟨n, rfl⟩ := Nat.exists_eq_add_one_of_ne_zero (by omega : n ≠ 0)
      have hshape := indentLines_line indent hrun []
      rw [List.append_nil, indentLines, List.append_nil] at hshape
      rw [hshape]
      refine readBlockLines_line hrun hc hbs hm (.inr ⟨hcol, hspace⟩) hbreak htab ?_
      intro blank
      refine readBlockLines_end ?_
      have hcolumn : (m.after (run ++ (c :: bs ++ spaces col))).column = col := by
        rw [Mark.after_append, Mark.column_after_breaks (List.cons_ne_nil c bs)
          (List.forall_mem_cons.2 ⟨hc.1, fun d hd => (hbs d hd).1⟩) isBreak_of_mem_spaces,
          length_spaces]
      exact fun h => Nat.ne_of_lt hcol (hcolumn.symm.trans h)
  | gap run gap rest hrun hne hgap hrest ih =>
      intro n m first more blank hn hm
      obtain ⟨n, rfl⟩ := Nat.exists_eq_add_one_of_ne_zero (Nat.ne_zero_of_lt hn)
      have hmore := hbody.behind_breaks hne hgap hrest
      have hstart := hmore.stopsAt hrest indent (c :: (bs ++ (spaces col ++ next)))
      have hfirst := hmore.noTab indent (c :: (bs ++ (spaces col ++ next)))
      obtain ⟨d, ds, rfl⟩ := List.exists_cons_of_ne_nil hne
      have hgaps : ∀ e ∈ d :: ds, isBreak e = true ∧ isPrintable e = true := fun e he =>
        ⟨hgap e he, hbody.printable e (List.mem_append_right run (List.mem_append_left rest he))⟩
      have hlen : rest.length < n := by
        rw [List.length_append, List.length_append, List.length_cons] at hn
        omega
      have hcolumn : (m.after (run ++ d :: (ds ++ spaces indent))).column = indent := by
        rw [Mark.after_append, ← List.cons_append,
          Mark.column_after_breaks hne hgap isBreak_of_mem_spaces, length_spaces]
      have hshape : indentLines indent false (run ++ (d :: ds ++ rest)) =
          run ++ d :: (ds ++ (spaces indent ++ indentLines indent false rest)) := by
        rw [indentLines_line indent hrun, indentLines_breaks hne hgap,
          indentLines_fresh hmore.ne_nil hrest]
        rfl
      have hread : readBlockLines false chomping indent from_ (n + 1) first more blank ⟨_, m⟩ = _ :=
        readBlockLines_line hrun (hgaps d List.mem_cons_self)
          (fun e he => hgaps e (List.mem_cons_of_mem d he)) hm (.inl rfl) hstart hfirst
          fun blank => ih hmore n _ [d] ds blank hlen hcolumn
      rw [hshape]
      simp only [List.append_assoc, List.cons_append, Mark.after_append, Mark.after_cons] at hread ⊢
      exact hread

/-! ## The whole block -/

theorem ends_cases (cs : List Char) :
    (∀ c ∈ cs, isBreak c = true) ∨
      ∃ front c bs, cs = front ++ c :: bs ∧ isBreak c = false ∧ ∀ d ∈ bs, isBreak d = true := by
  induction cs with
  | nil => exact .inl (List.forall_mem_nil _)
  | cons c cs ih =>
      rcases ih with hall | ⟨front, d, bs, rfl, hd, hbs⟩
      · cases hc : isBreak c with
        | true => exact .inl (List.forall_mem_cons.2 ⟨hc, hall⟩)
        | false => exact .inr ⟨[], c, cs, rfl, hc, hall⟩
      · exact .inr ⟨c :: front, d, bs, rfl, hd, hbs⟩

/-- A text is made of line breaks only, or it has a body. -/
theorem body_cases {cs : List Char} (hprint : ∀ c ∈ cs, isPrintable c = true) :
    (∀ c ∈ cs, isBreak c = true) ∨
      ∃ bs body ends, cs = bs ++ (body ++ ends) ∧ (∀ c ∈ bs, isBreak c = true) ∧ IsBody body ∧
        ∀ c ∈ ends, isBreak c = true := by
  refine (ends_cases cs).imp id ?_
  rintro ⟨front, c, ends, rfl, hc, hends⟩
  have hsplit : (front ++ [c]).takeWhile isBreak ++ (front ++ [c]).dropWhile isBreak =
      front ++ [c] := List.takeWhile_append_dropWhile
  have hbs : ∀ d ∈ (front ++ [c]).takeWhile isBreak, isBreak d = true :=
    List.all_eq_true.1 List.all_takeWhile
  have hlast : c ∈ (front ++ [c]).dropWhile isBreak := by
    have hmem : c ∈ front ++ [c] := List.mem_append_right front List.mem_cons_self
    rw [← hsplit] at hmem
    refine (List.mem_append.1 hmem).resolve_left fun h => ?_
    rw [hbs c h] at hc
    cases hc
  have hshape : front ++ c :: ends = front ++ [c] ++ ends := by
    rw [List.append_assoc]
    rfl
  refine ⟨_, _, ends, ?_, hbs, ⟨List.ne_nil_of_mem hlast, ?_, ?_, ?_⟩, hends⟩
  · rw [← List.append_assoc, hsplit, hshape]
  · intro d hd
    have hhead := List.head?_dropWhile_not isBreak (front ++ [c])
    rw [Option.mem_def.1 hd] at hhead
    exact hhead
  · intro d hd
    have hgetLast : (front ++ [c]).getLast? = some c := List.getLast?_concat
    rw [← hsplit, List.getLast?_append, Option.mem_def.1 hd] at hgetLast
    cases hgetLast
    exact hc
  · intro d hd
    refine hprint d ?_
    rw [hshape, ← hsplit]
    exact List.mem_append_left ends (List.mem_append_right _ hd)

/-- The break at the end of a literal block, which belongs to the text or only ends the line. -/
def closing : List Char → List Char
  | [] => ['\n']
  | c :: cs => c :: cs

/-- The chomping that keeps exactly the line breaks at the end of a text. -/
def chompingFor : List Char → Chomping
  | [] => .strip
  | [_] => .clip
  | _ :: _ :: _ => .keep

theorem literalMarks_breaks {cs : List Char} (hne : cs ≠ []) (hcs : ∀ c ∈ cs, isBreak c = true) :
    literalMarks cs = digitMark true ++ Chomping.keep.sign := by
  have hhead : (cs.head?.any fun c => isSpace c || isBreak c) = true := by
    obtain ⟨c, cs, rfl⟩ := List.exists_cons_of_ne_nil hne
    simp [hcs c List.mem_cons_self]
  have hmem : ∀ c ∈ cs.reverse, isBreak c = true := fun c hc => hcs c (List.mem_reverse.1 hc)
  rw [literalMarks, hhead]
  cases hrev : cs.reverse with
  | nil => exact absurd (List.reverse_eq_nil_iff.1 hrev) hne
  | cons c rest =>
      rw [hrev] at hmem
      cases rest with
      | nil => simp [hmem c List.mem_cons_self, digitMark, Chomping.sign]
      | cons d rest =>
          simp [hmem c List.mem_cons_self, hmem d (List.mem_cons_of_mem c List.mem_cons_self),
            digitMark, Chomping.sign]

theorem literalMarks_body {front ends : List Char} {e : Char} (hlast : front.getLast? = some e)
    (he : isBreak e = false) (hends : ∀ c ∈ ends, isBreak c = true) :
    literalMarks (front ++ ends) =
      digitMark (front.head?.any fun c => isSpace c || isBreak c) ++ (chompingFor ends).sign := by
  have hhead : (front ++ ends).head? = front.head? := by
    cases front with
    | nil => cases hlast
    | cons c front => rfl
  obtain ⟨es, hrev⟩ : ∃ es, front.reverse = e :: es := by
    rw [← List.head?_reverse] at hlast
    cases hrev : front.reverse with
    | nil =>
        rw [hrev] at hlast
        cases hlast
    | cons d es =>
        rw [hrev] at hlast
        cases hlast
        exact ⟨es, rfl⟩
  rw [literalMarks, hhead, List.reverse_append, hrev]
  refine congrArg (digitMark _ ++ ·) ?_
  cases ends with
  | nil => simp [he, chompingFor, Chomping.sign]
  | cons c ends =>
      cases ends with
      | nil => simp [he, hends c List.mem_cons_self, chompingFor, Chomping.sign]
      | cons d ends =>
          have hmem : ∀ x ∈ (c :: d :: ends).reverse, isBreak x = true := fun x hx =>
            hends x (List.mem_reverse.1 hx)
          have hlong : (c :: d :: ends).reverse.length = ends.length + 2 := by simp
          cases hback : (c :: d :: ends).reverse with
          | nil =>
              rw [hback] at hlong
              cases hlong
          | cons p back =>
              rw [hback] at hlong hmem
              cases back with
              | nil => simp at hlong
              | cons q back =>
                  have hq := hmem q (List.mem_cons_of_mem p List.mem_cons_self)
                  simp [hmem p List.mem_cons_self, hq, chompingFor, Chomping.sign]

theorem left_chompingFor {ends bs : List Char} {c : Char} (h : closing ends = c :: bs) :
    (chompingFor ends).left [c] bs = ends := by
  cases ends with
  | nil => rfl
  | cons d ends =>
      cases h
      cases bs <;> rfl

theorem indentLines_ends {ends : List Char} (hends : ∀ c ∈ ends, isBreak c = true)
    (fresh : Bool) (cs : List Char) :
    indentLines indent fresh (cs ++ ends) = indentLines indent fresh cs ++ ends := by
  induction cs generalizing fresh with
  | nil =>
      cases ends with
      | nil => rfl
      | cons c ends =>
          have hall : indentLines indent fresh (c :: ends ++ []) = _ :=
            indentLines_breaks (List.cons_ne_nil c ends) hends fresh []
          rwa [List.append_nil, indentLines, List.append_nil] at hall
  | cons c cs ih =>
      rw [List.cons_append, indentLines, indentLines, ih, ih]
      split
      · rfl
      · rw [List.append_assoc]
        rfl

/-- The indentation that is told, if any. -/
def toldIndent (deep : Bool) (around : Nat) : Option Nat := if deep then some (around + 2) else none

theorem readBlock_head (deep : Bool) (chomping : Chomping) (around : Nat) (b : List Char)
    (m : Mark) :
    readBlock false around ⟨'|' :: (digitMark deep ++ (chomping.sign ++ '\n' :: b)), m⟩ =
      readEmptyLines (toldIndent deep around) m (b.length + 1) 0
          ⟨b, m.after ('|' :: (digitMark deep ++ (chomping.sign ++ ['\n'])))⟩ >>= fun e =>
        readBlockLines false chomping
            ((toldIndent deep around).getD (max (max e.2.1 (around + 1)) 1)) m
            (e.2.2.rest.length + 1) [] e.1 false e.2.2 >>= fun r =>
          .ok (⟨.scalar (String.ofList r.1) .literal, m, r.2.mark⟩, r.2) := by
  have hskip : skip ⟨'|' :: (digitMark deep ++ (chomping.sign ++ '\n' :: b)), m⟩ =
      ⟨digitMark deep ++ (chomping.sign ++ '\n' :: b), m.step '|'⟩ := skip_cons rfl _ _
  have hline : ∀ m', (skipGaps ⟨'\n' :: b, m'⟩).skipComment = ⟨'\n' :: b, m'⟩ := fun _ => rfl
  have htold : (if deep then some 2 else none).map
      (fun d => if 0 ≤ (around : Int) then (around : Int).toNat + d else d) =
        toldIndent deep around := by
    cases deep <;> rfl
  have hleast : ((around : Int) + 1).toNat = around + 1 := by omega
  have hbreak : breakNext ('\n' :: b) = true := rfl
  have hafter : ((m.step '|').after (digitMark deep ++ chomping.sign)).step '\n' =
      m.after ('|' :: (digitMark deep ++ (chomping.sign ++ ['\n']))) := by
    rw [← List.append_assoc, Mark.after_cons, Mark.after_append _ (digitMark deep ++ chomping.sign)]
    rfl
  simp only [readBlock, hskip, readBlockHeader_marks, ok_bind, hline, hbreak, htold, hleast,
    skipBreak_newline, hafter, Bool.not_true, Bool.false_eq_true, if_false]
  rfl

theorem writeLiteral_breaks {cs : List Char} (hne : cs ≠ []) (hcs : ∀ c ∈ cs, isBreak c = true) :
    writeLiteral indent cs = '|' :: (digitMark true ++ (Chomping.keep.sign ++ '\n' :: cs)) := by
  have hlines : indentLines indent true cs = cs := indentLines_ends hcs true []
  have hlast : cs.getLast?.any isBreak = true := by
    rw [List.getLast?_eq_some_getLast hne]
    exact hcs _ (List.getLast_mem hne)
  rw [writeLiteral, literalMarks_breaks hne hcs, hlines, hlast, if_pos rfl, List.append_nil,
    List.cons_append, List.append_assoc]

theorem writeLiteral_body {bs body ends : List Char} (hbs : ∀ c ∈ bs, isBreak c = true)
    (hbody : IsBody body) (hends : ∀ c ∈ ends, isBreak c = true) :
    writeLiteral indent (bs ++ (body ++ ends)) =
      '|' :: (digitMark ((bs ++ body).head?.any fun c => isSpace c || isBreak c) ++
        ((chompingFor ends).sign ++
          '\n' :: (bs ++ (spaces indent ++ (indentLines indent false body ++ closing ends))))) := by
  have hlast : (bs ++ body).getLast? = some (body.getLast hbody.ne_nil) := by
    rw [List.getLast?_append, List.getLast?_eq_some_getLast hbody.ne_nil]
    rfl
  have hbreak := hbody.ends _ (List.getLast?_eq_some_getLast hbody.ne_nil)
  have hfresh : indentLines indent true (body ++ ends) =
      spaces indent ++ (indentLines indent false body ++ ends) := by
    rw [indentLines_fresh (List.append_ne_nil_of_left_ne_nil hbody.ne_nil ends)
      (hbody.begins.append hbody.ne_nil ends), indentLines_ends hends]
  have hlines : indentLines indent true (bs ++ (body ++ ends)) =
      bs ++ (spaces indent ++ (indentLines indent false body ++ ends)) := by
    rw [← hfresh]
    cases bs with
    | nil => rfl
    | cons c bs => exact indentLines_breaks (List.cons_ne_nil c bs) hbs true _
  have hclose : ends ++ (if (bs ++ (body ++ ends)).getLast?.any isBreak then [] else ['\n']) =
      closing ends := by
    cases ends with
    | nil =>
        rw [List.append_nil, hlast, Option.any_some, hbreak]
        rfl
    | cons c ends =>
        have hend : ((bs ++ (body ++ c :: ends)).getLast?.any isBreak) = true := by
          rw [← List.append_assoc, List.getLast?_append,
            List.getLast?_eq_some_getLast (List.cons_ne_nil c ends)]
          exact hends _ (List.getLast_mem (List.cons_ne_nil c ends))
        rw [hend, if_pos rfl, List.append_nil]
        rfl
  rw [writeLiteral, hlines, ← List.append_assoc bs body, literalMarks_body hlast hbreak hends,
    List.append_assoc bs body, ← hclose]
  simp only [List.append_assoc, List.cons_append]

/-- The line breaks in front of the body are read, and its indentation is found or was told. -/
theorem readEmptyLines_body (around : Nat) {bs body : List Char} {deep : Bool} (from_ : Mark)
    (hprint : ∀ c ∈ bs, isPrintable c = true) (hbs : ∀ c ∈ bs, isBreak c = true)
    (hbody : IsBody body)
    (hdeep : ((bs ++ body).head?.any fun c => isSpace c || isBreak c) = deep) (hm : m.column = 0)
    (hn : bs.length < n) (b : List Char) :
    ∃ w, readEmptyLines (toldIndent deep around) from_ n 0
          ⟨bs ++ (spaces (around + 2) ++ (indentLines (around + 2) false body ++ b)), m⟩ =
        .ok (bs, w, ⟨indentLines (around + 2) false body ++ b,
          m.after (bs ++ spaces (around + 2))⟩) ∧
      (toldIndent deep around).getD (max (max w (around + 1)) 1) = around + 2 := by
  have hbreak := hbody.stopsAt hbody.begins (around + 2) b
  have htab := hbody.noTab (around + 2) b
  cases deep with
  | true =>
      obtain ⟨w, hread⟩ := readEmptyLines_breaks from_ (fun c hc => ⟨hbs c hc, hprint c hc⟩) hm
        (.inl rfl) hbreak htab hn 0
      exact ⟨w, hread, rfl⟩
  | false =>
      cases bs with
      | cons c bs =>
          rw [List.cons_append, List.head?_cons, Option.any_some, hbs c List.mem_cons_self,
            Bool.or_true] at hdeep
          cases hdeep
      | nil =>
          obtain ⟨n, rfl⟩ := Nat.exists_eq_add_one_of_ne_zero (Nat.ne_zero_of_lt hn)
          have hskip : skipIndent none
              ⟨spaces (around + 2) ++ (indentLines (around + 2) false body ++ b), m⟩ =
                ⟨indentLines (around + 2) false body ++ b, m.after (spaces (around + 2))⟩ := by
            have hspace : StopsAt (· == ' ') body := by
              intro c hc
              rw [List.nil_append, Option.mem_def.1 hc, Option.any_some,
                Bool.or_eq_false_iff] at hdeep
              exact hdeep.1
            exact congrArg Prod.snd
              (read_spaces rfl (around + 2) (hbody.stopsAt hspace (around + 2) b) m)
          refine ⟨_, readEmptyLines_line hskip hbreak htab, ?_⟩
          rw [List.nil_append, column_after_spaces, hm, toldIndent, if_neg Bool.false_ne_true,
            Option.getD_none]
          omega

theorem length_le_indentLines (fresh : Bool) (cs : List Char) :
    cs.length ≤ (indentLines indent fresh cs).length := by
  induction cs generalizing fresh with
  | nil => exact Nat.zero_le _
  | cons c cs ih =>
      unfold indentLines
      split
      · exact Nat.succ_le_succ (ih true)
      · have := ih false
        rw [List.length_append, List.length_cons, List.length_cons]
        omega

theorem column_after_lines {bs : List Char} (hbs : ∀ c ∈ bs, isBreak c = true) (hm : m.column = 0)
    (n : Nat) : (m.after (bs ++ spaces n)).column = n := by
  cases bs with
  | nil => rw [List.nil_append, column_after_spaces, hm, Nat.zero_add]
  | cons c bs =>
      rw [Mark.column_after_breaks (List.cons_ne_nil c bs) hbs isBreak_of_mem_spaces, length_spaces]

theorem readBlock_breaks {around : Nat} {cs : List Char} (hne : cs ≠ [])
    (hcs : ∀ c ∈ cs, isBreak c = true ∧ isPrintable c = true) (hcol : col ≤ around)
    (hspace : StopsAt isSpace next) (hbreak : StopsAt isBreak next)
    (htab : charNext '\t' next = false) (m : Mark) :
    readBlock false around ⟨writeLiteral (around + 2) cs ++ (spaces col ++ next), m⟩ =
      .ok (⟨.scalar (String.ofList cs) .literal, m,
          m.after (writeLiteral (around + 2) cs ++ spaces col)⟩,
        ⟨next, m.after (writeLiteral (around + 2) cs ++ spaces col)⟩) := by
  have hall : ∀ c ∈ cs, isBreak c = true := fun c hc => (hcs c hc).1
  have hlen : cs.length < (cs ++ (spaces col ++ next)).length + 1 := by
    rw [List.length_append]
    omega
  have hline : (m.after ('|' :: (digitMark true ++ (Chomping.keep.sign ++ ['\n'])))).column = 0 :=
    rfl
  obtain ⟨w, hempty⟩ := readEmptyLines_breaks m hcs hline
    (.inr ⟨Nat.lt_succ_of_le (Nat.le_succ_of_le hcol), hspace⟩) hbreak htab hlen 0
  have hcolumn : ((m.after ('|' :: (digitMark true ++ (Chomping.keep.sign ++ ['\n'])))).after
      (cs ++ spaces col)).column ≠ around + 2 := by
    rw [Mark.column_after_breaks hne hall isBreak_of_mem_spaces, length_spaces]
    omega
  have hread := readBlock_head true .keep around (cs ++ (spaces col ++ next)) m
  rw [toldIndent, if_pos rfl, hempty, ok_bind, Option.getD_some, readBlockLines_end hcolumn,
    ok_bind] at hread
  rw [writeLiteral_breaks hne hall]
  simp only [Mark.after_append, Mark.after_cons, List.append_assoc, List.cons_append,
    Mark.after_nil] at hread ⊢
  exact hread

theorem readBlock_body {around : Nat} {bs body ends : List Char} (hbody : IsBody body)
    (hbs : ∀ c ∈ bs, isBreak c = true ∧ isPrintable c = true)
    (hends : ∀ c ∈ ends, isBreak c = true ∧ isPrintable c = true) (hcol : col ≤ around)
    (hspace : StopsAt isSpace next) (hbreak : StopsAt isBreak next)
    (htab : charNext '\t' next = false) (m : Mark) :
    readBlock false around
        ⟨writeLiteral (around + 2) (bs ++ (body ++ ends)) ++ (spaces col ++ next), m⟩ =
      .ok (⟨.scalar (String.ofList (bs ++ (body ++ ends))) .literal, m,
          m.after (writeLiteral (around + 2) (bs ++ (body ++ ends)) ++ spaces col)⟩,
        ⟨next, m.after (writeLiteral (around + 2) (bs ++ (body ++ ends)) ++ spaces col)⟩) := by
  obtain ⟨c, cs, hclose, hc, hcs⟩ : ∃ c cs, closing ends = c :: cs ∧
      (isBreak c = true ∧ isPrintable c = true) ∧
        ∀ d ∈ cs, isBreak d = true ∧ isPrintable d = true := by
    cases ends with
    | nil => exact ⟨'\n', [], rfl, ⟨rfl, rfl⟩, List.forall_mem_nil _⟩
    | cons c cs =>
        exact ⟨c, cs, rfl, hends c List.mem_cons_self,
          fun d hd => hends d (List.mem_cons_of_mem c hd)⟩
  generalize hdeep : ((bs ++ body).head?.any fun c => isSpace c || isBreak c) = deep
  have hallBreaks : ∀ d ∈ bs, isBreak d = true := fun d hd => (hbs d hd).1
  have hwrite : writeLiteral (around + 2) _ = _ :=
    writeLiteral_body hallBreaks hbody fun d hd => (hends d hd).1
  have hline : (m.after ('|' :: (digitMark deep ++ ((chompingFor ends).sign ++ ['\n'])))).column =
      0 := by
    cases deep <;> cases chompingFor ends <;> rfl
  have hlen : bs.length < (bs ++ (spaces (around + 2) ++ (indentLines (around + 2) false body ++
      c :: (cs ++ (spaces col ++ next))))).length + 1 := by
    rw [List.length_append]
    omega
  obtain ⟨w, hempty, hindent⟩ := readEmptyLines_body around m (fun d hd => (hbs d hd).2)
    hallBreaks hbody hdeep hline hlen (c :: (cs ++ (spaces col ++ next)))
  have hlines := readBlockLines_body (chompingFor ends) m hc hcs
    (Nat.lt_succ_of_le (Nat.le_succ_of_le hcol)) hspace hbreak htab body hbody
    ((indentLines (around + 2) false body ++ c :: (cs ++ (spaces col ++ next))).length + 1) _ []
    bs false (by
      rw [List.length_append]
      exact Nat.lt_succ_of_le (Nat.le_add_right_of_le (length_le_indentLines false body)))
    (column_after_lines hallBreaks hline (around + 2))
  have hread := readBlock_head deep (chompingFor ends) around (bs ++ (spaces (around + 2) ++
    (indentLines (around + 2) false body ++ c :: (cs ++ (spaces col ++ next))))) m
  simp only [hempty, ok_bind, hindent, hlines, left_chompingFor hclose] at hread
  rw [hdeep, hclose] at hwrite
  rw [hwrite]
  simp only [Mark.after_append, Mark.after_cons, List.append_assoc, List.cons_append,
    Mark.after_nil, List.nil_append] at hread ⊢
  exact hread

theorem indentLines_concat {c : Char} (hc : isBreak c = true) (indent : Nat) (fresh : Bool)
    (cs : List Char) :
    indentLines indent fresh (cs ++ [c]) = indentLines indent fresh cs ++ [c] := by
  induction cs generalizing fresh with
  | nil => exact if_pos hc
  | cons d ds ih =>
      simp only [List.cons_append, indentLines, ih]
      split
      · rfl
      · rw [List.append_assoc, List.cons_append]

theorem column_after_literal (indent : Nat) (cs : List Char) (m : Mark) (col : Nat) :
    (m.after (writeLiteral indent cs ++ spaces col)).column = col := by
  obtain ⟨w, c, hc, hw⟩ : ∃ w c, isBreak c = true ∧ writeLiteral indent cs = w ++ [c] := by
    unfold writeLiteral
    split
    next h =>
      obtain ⟨c, hlast, hc⟩ := (Option.any_eq_true _ _).1 h
      obtain ⟨ds, rfl⟩ := List.getLast?_eq_some_iff.1 hlast
      refine ⟨'|' :: literalMarks (ds ++ [c]) ++ '\n' :: indentLines indent true ds, c, hc, ?_⟩
      simp only [indentLines_concat hc, List.append_nil, List.append_assoc, List.cons_append]
    next => exact ⟨_, '\n', rfl, rfl⟩
  rw [hw, List.append_assoc]
  exact column_after_line hc m w col

/-- A text that is written as a literal block is read as it was before. -/
theorem readBlock_literal {around : Nat} {cs : List Char} (hne : cs ≠ [])
    (hprint : ∀ c ∈ cs, isPrintable c = true) (hcol : col ≤ around) (hnext : StopsAt isWhite next)
    (m : Mark) :
    readBlock false around ⟨writeLiteral (around + 2) cs ++ (spaces col ++ next), m⟩ =
      .ok (⟨.scalar (String.ofList cs) .literal, m,
          m.after (writeLiteral (around + 2) cs ++ spaces col)⟩,
        ⟨next, m.after (writeLiteral (around + 2) cs ++ spaces col)⟩) := by
  have hbreak : StopsAt isBreak next := hnext.mono fun _ => isBreak_of_not_white
  have hspace : StopsAt isSpace next := hnext.mono fun _ => isSpace_of_not_white
  have htab := charNext_of_stopsAt (hnext.mono fun _ => not_tab_of_not_white)
  rcases body_cases hprint with hall | ⟨bs, body, ends, rfl, hbs, hbody, hends⟩
  · exact readBlock_breaks hne (fun c hc => ⟨hall c hc, hprint c hc⟩) hcol hspace hbreak htab m
  · exact readBlock_body hbody
      (fun c hc => ⟨hbs c hc, hprint c (List.mem_append_left _ hc)⟩)
      (fun c hc => ⟨hends c hc,
        hprint c (List.mem_append_right bs (List.mem_append_right body hc))⟩)
      hcol hspace hbreak htab m

end

end Cursor

end DocStamp.Yaml
