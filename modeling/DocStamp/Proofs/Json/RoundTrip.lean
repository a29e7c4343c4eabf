/-
# What is written is read back

`Reads read depth w a` says that a reader takes the text `w` for the
value `a`, whatever follows, as long as it ends a value.  There is one
lemma for each way to write a value: strings, numbers, lists, records as
objects and alternatives.  Readers are put together from readers, so the
lemmas are put together in the same way.
-/
import DocStamp.Json.Reader
import DocStamp.Json.Write

namespace DocStamp.Json

/-! ## Strings -/

theorem hexDigit?_digitChar : ∀ d < 16, hexDigit? (Nat.digitChar d) = some d := by
  decide

theorem readNumbered_control {c : Char} (h : isControl c = true) (cs : List Char) :
    readNumbered ('0' :: '0' :: Nat.digitChar (c.toNat / 16) :: Nat.digitChar (c.toNat % 16) :: cs) =
      .ok (c, cs) := by
  have hlt : c.toNat < 32 := by simpa [isControl] using h
  have hzero : hexDigit? '0' = some 0 := by decide
  have hunit : readUnit ('0' :: '0' :: Nat.digitChar (c.toNat / 16) ::
      Nat.digitChar (c.toNat % 16) :: cs) = .ok (c.toNat, cs) := by
    have hsum : 4096 * 0 + 256 * 0 + 16 * (c.toNat / 16) + c.toNat % 16 = c.toNat := by omega
    simp only [readUnit, hzero, hexDigit?_digitChar (c.toNat / 16) (by omega),
      hexDigit?_digitChar (c.toNat % 16) (by omega), hsum]
  have htrailing : isTrailing c.toNat = false := by
    simp [isTrailing]
    omega
  have hleading : isLeading c.toNat = false := by
    simp [isLeading]
    omega
  simp [readNumbered, hunit, htrailing, hleading, bind, Except.bind, pure, Except.pure]

theorem readChars_writeChar (c : Char) (n : Nat) (cs : List Char) :
    readChars (n + 1) (writeChar c ++ cs) = do
      let (more, rest) ← readChars n cs
      return (c :: more, rest) := by
  unfold writeChar
  -- The seven characters with letters of their own come first.
  iterate 7
    split
    · subst c
      rfl
  split
  · rename_i h
    simp [readChars, readEscape, readNumbered_control h cs, bind, Except.bind]
  · rename_i hquote hback _ _ _ _ _ hcontrol
    simp [readChars, hquote, hback, hcontrol]

theorem readChars_flatMap (cs : List Char) {n : Nat} (h : cs.length < n) (rest : List Char) :
    readChars n (cs.flatMap writeChar ++ '"' :: rest) = .ok (cs, rest) := by
  induction cs generalizing n with
  | nil =>
      obtain ⟨n, rfl⟩ := Nat.exists_eq_add_of_lt h
      rfl
  | cons c cs ih =>
      obtain ⟨n, rfl⟩ : ∃ k, n = k + 1 := ⟨n - 1, by omega⟩
      rw [List.flatMap_cons, List.append_assoc, readChars_writeChar, ih (by simpa using h)]
      rfl

theorem writeChar_ne_nil (c : Char) : writeChar c ≠ [] := by
  unfold writeChar
  repeat' split
  all_goals simp

theorem readString_flatMap (s : String) (rest : List Char) :
    readString (s.toList.flatMap writeChar ++ '"' :: rest) = .ok (s, rest) := by
  have hlength : s.toList.length ≤ (s.toList.flatMap writeChar).length := by
    induction s.toList with
    | nil => simp
    | cons c cs ih =>
        have hpos := List.length_pos_iff.2 (writeChar_ne_nil c)
        simp only [List.flatMap_cons, List.length_append, List.length_cons]
        omega
  have hfuel : s.toList.length < (s.toList.flatMap writeChar ++ '"' :: rest).length := by
    rw [List.length_append, List.length_cons]
    omega
  rw [readString, readChars_flatMap _ hfuel]
  simp [bind, Except.bind, pure, Except.pure]

/-! ## Texts of values -/

/-- What may follow a value: nothing, or a character that ends it. -/
def Ends (rest : List Char) : Prop := ∀ c ∈ rest.head?, c = ',' ∨ c = ']' ∨ c = '\x7d'

theorem ends_nil : Ends [] := by simp [Ends]

theorem ends_comma (cs : List Char) : Ends (',' :: cs) := by simp [Ends]

theorem ends_bracket (cs : List Char) : Ends (']' :: cs) := by simp [Ends]

theorem ends_brace (cs : List Char) : Ends ('\x7d' :: cs) := by simp [Ends]

/-- The text of a value begins with a character that is no space and ends no list. -/
def Starts (w : List Char) : Prop := ∃ c cs, w = c :: cs ∧ isSpace c = false ∧ c ≠ ']'

theorem skipSpaces_cons {c : Char} (h : isSpace c = false) (cs : List Char) :
    skipSpaces (c :: cs) = c :: cs := by
  simp [skipSpaces, h]

/-- A text that a reader takes for a value. -/
structure Reads {α : Type} (read : Reader α) (depth : Nat) (w : List Char) (a : α) : Prop where
  starts : Starts w
  reads : ∀ {rest}, Ends rest → read depth (w ++ rest) = .ok (a, rest)

section

variable {α β : Type} {read : Reader α} {depth : Nat} {w : List Char} {a : α}

theorem Reads.parse (h : Reads read levels w a) : Json.parse read (String.ofList w) = .ok a := by
  have hread := h.reads ends_nil
  rw [List.append_nil] at hread
  simp [Json.parse, hread, bind, Except.bind, pure, Except.pure, skipSpaces]

theorem Reads.map (h : Reads read depth w a) (f : α → β) :
    Reads (fun depth cs => do
      let (a, rest) ← read depth cs
      return (f a, rest)) depth w (f a) :=
  ⟨h.starts, fun hrest => by simp [h.reads hrest, bind, Except.bind, pure, Except.pure]⟩

theorem Reads.field {σ : Type} {set : σ → α → σ} (h : Reads read depth w a) (name : String)
    (required : Bool) (s : σ) :
    Reads ((Field.of name required read set).read s) depth w (set s a) :=
  h.map (set s)

theorem Reads.carrying {make : α → β} (h : Reads read depth w a) (name : String) :
    Reads (Variant.carrying name read make).read depth w (make a) :=
  h.map make

theorem writeString_append (s : String) (rest : List Char) :
    writeString s ++ rest = '"' :: (s.toList.flatMap writeChar ++ '"' :: rest) := by
  simp [writeString]

theorem string_writeString (expected s : String) (depth : Nat) (rest : List Char) :
    string expected depth (writeString s ++ rest) = .ok (s, rest) := by
  simp only [writeString_append, string, skipSpaces_cons (c := '"') (by decide),
    readString_flatMap]

theorem reads_string (expected s : String) (depth : Nat) :
    Reads (string expected) depth (writeString s) s :=
  ⟨⟨'"', _, rfl, by decide, by decide⟩, fun {rest} _ => string_writeString expected s depth rest⟩

/-! ## Numbers -/

theorem le_ofDigitChars (cs : List Char) (n : Nat) : n ≤ Nat.ofDigitChars 10 cs n := by
  induction cs generalizing n with
  | nil => simp
  | cons c cs ih =>
      rw [Nat.ofDigitChars_cons]
      exact Nat.le_trans (by omega) (ih _)

theorem absorb_eq {cs : List Char} {n : Nat} (h : Nat.ofDigitChars 10 cs n ≤ greatestSignificand) :
    absorb n cs = (Nat.ofDigitChars 10 cs n, []) := by
  induction cs generalizing n with
  | nil => rfl
  | cons c cs ih =>
      rw [Nat.ofDigitChars_cons] at h ⊢
      have hle : 10 * n + digitValue c ≤ greatestSignificand := Nat.le_trans (le_ofDigitChars cs _) h
      rw [absorb, if_pos hle]
      exact ih h

theorem head?_toDigits {n : Nat} (h : 0 < n) : (Nat.toDigits 10 n).head? ≠ some '0' := by
  induction n using Nat.strongRecOn with
  | ind n ih =>
      by_cases hlt : n < 10
      · rw [Nat.toDigits_of_lt_base hlt]
        simpa using Nat.ne_of_gt h
      · have hhead := ih (n / 10) (by omega) (by omega)
        obtain ⟨d, ds, hd⟩ := List.exists_cons_of_ne_nil (Nat.toDigits_ne_nil (n := n / 10) (b := 10))
        rw [hd] at hhead
        rw [Nat.toDigits_of_base_le (by decide) (by omega), hd]
        simpa using hhead

theorem Ends.head? {rest : List Char} (h : Ends rest) :
    ∀ c ∈ rest.head?, c.isDigit = false ∧ isExponentMark c = false ∧ c ≠ '.' := by
  intro c hc
  rcases h c hc with rfl | rfl | rfl <;> decide

theorem readNumber_toDigits {n : Nat} (h : n ≤ greatestSignificand) {rest : List Char}
    (hrest : Ends rest) :
    readNumber false (Nat.toDigits 10 n ++ rest) = .ok (.integer n, rest) := by
  have hdigit : ∀ c ∈ Nat.toDigits 10 n, c.isDigit = true := fun c hc =>
    Nat.isDigit_of_mem_toDigits (by decide) (by decide) hc
  have htake : (Nat.toDigits 10 n ++ rest).takeWhile Char.isDigit = Nat.toDigits 10 n := by
    rw [List.takeWhile_append_of_pos hdigit]
    cases rest with
    | nil => simp
    | cons c cs => simp [(hrest.head? c rfl).1]
  have hdrop : (Nat.toDigits 10 n ++ rest).dropWhile Char.isDigit = rest := by
    rw [List.dropWhile_append_of_pos hdigit]
    cases rest with
    | nil => simp
    | cons c cs => simp [(hrest.head? c rfl).1]
  have hzero : ¬ ((Nat.toDigits 10 n).head? = some '0' ∧ 1 < (Nat.toDigits 10 n).length) := by
    rintro ⟨hhead, hlong⟩
    rcases Nat.eq_zero_or_pos n with rfl | hpos
    · simp at hlong
    · exact head?_toDigits hpos hhead
  have habsorb : absorb 0 (Nat.toDigits 10 n) = (n, []) := by
    rw [absorb_eq] <;> simp [h]
  unfold readNumber
  simp only [htake, hdrop, List.isEmpty_iff, Nat.toDigits_ne_nil, hzero, habsorb, if_false]
  cases rest with
  | nil => rfl
  | cons c cs =>
      obtain ⟨-, hmark, hpoint⟩ := hrest.head? c rfl
      simp only [hmark, wholeNumber, Bool.false_eq_true, ne_eq, not_true, or_self, if_false]
      rfl

theorem nat32_ofNat {n : Nat} (h : n < 0x100000000) : nat32 (.integer n) = .ok n := by
  simp only [nat32]
  rw [if_pos (by omega), Int.toNat_natCast]

theorem isSpace_of_isDigit {d : Char} (h : d.isDigit = true) : isSpace d = false := by
  cases hspace : isSpace d with
  | false => rfl
  | true =>
      simp only [isSpace, Bool.or_eq_true, decide_eq_true_eq] at hspace
      rcases hspace with ((rfl | rfl) | rfl) | rfl <;> cases h

theorem natural_of_readNumber {d : Char} (hdigit : d.isDigit = true) {cs rest : List Char}
    {x : Number} (hread : readNumber false (d :: cs) = .ok (x, rest)) {n : Nat}
    (hnat : nat32 x = .ok n) (depth : Nat) : natural depth (d :: cs) = .ok (n, rest) := by
  have hminus : d ≠ '-' := fun e => by subst e; cases hdigit
  simp only [natural, skipSpaces_cons (isSpace_of_isDigit hdigit)]
  split
  · rename_i e
    exact absurd (List.cons.inj e).1 hminus
  · simp [hdigit, hread, hnat, bind, Except.bind, pure, Except.pure]

theorem reads_natural {n : Nat} (h : n < 0x100000000) (depth : Nat) :
    Reads natural depth (writeNat n) n := by
  obtain ⟨d, ds, hd⟩ := List.exists_cons_of_ne_nil (Nat.toDigits_ne_nil (n := n) (b := 10))
  have hdigit : d.isDigit = true := Nat.isDigit_of_mem_toDigits (by decide) (by decide)
    (hd ▸ List.mem_cons_self : d ∈ Nat.toDigits 10 n)
  have hclose : d ≠ ']' := fun e => by subst e; cases hdigit
  refine ⟨⟨d, ds, hd, isSpace_of_isDigit hdigit, hclose⟩, fun {rest} hrest => ?_⟩
  have hfits : n ≤ greatestSignificand := by
    unfold greatestSignificand
    omega
  have hread := readNumber_toDigits hfits hrest
  rw [hd] at hread
  rw [writeNat, hd]
  exact natural_of_readNumber hdigit hread (nat32_ofNat h) depth

/-! ## Optional values and lists -/

theorem reads_null (read : Reader α) (depth : Nat) (write : α → List Char) :
    Reads (optional read) depth (writeOption write none) none :=
  ⟨⟨'n', _, rfl, by decide, by decide⟩, fun _ => rfl⟩

theorem Reads.optional (h : Reads read depth w a) (hn : w.head? ≠ some 'n') :
    Reads (Json.optional read) depth w (some a) := by
  refine ⟨h.starts, fun {rest} hrest => ?_⟩
  have hread := h.reads hrest
  obtain ⟨c, cs, rfl, hspace, -⟩ := h.starts
  have hc : c ≠ 'n' := by simpa using hn
  simp only [Json.optional, List.cons_append, skipSpaces_cons hspace] at hread ⊢
  split
  · rename_i e
    exact absurd (List.cons.inj e).1 hc
  · simp [hread, bind, Except.bind, pure, Except.pure]

/-- Behind the first value, every other one has a comma in front. -/
theorem commas_cons (v : List Char) (vs : List (List Char)) :
    commas (v :: vs) = v ++ vs.flatMap (',' :: ·) := by
  induction vs generalizing v with
  | nil => simp [commas]
  | cons w vs ih => simp [commas, ih]

theorem nextElement_first (hw : Starts w) (rest : List Char) :
    nextElement true (w ++ rest) = .ok (true, w ++ rest) := by
  obtain ⟨c, cs, rfl, hspace, hc⟩ := hw
  simp only [nextElement, List.cons_append, skipSpaces_cons hspace]
  split <;> simp_all

theorem nextElement_comma (hw : Starts w) (rest : List Char) :
    nextElement false (',' :: (w ++ rest)) = .ok (true, w ++ rest) := by
  obtain ⟨c, cs, rfl, hspace, hc⟩ := hw
  rw [List.cons_append, nextElement, skipSpaces_cons (by decide)]
  simp [skipSpaces_cons hspace, hc]

/-- The first element is read as if there were a comma in front of it. -/
theorem elements_first (hw : Starts w) (n : Nat) (rest : List Char) :
    elements read depth (n + 1) true (w ++ rest) =
      elements read depth (n + 1) false (',' :: (w ++ rest)) := by
  simp only [elements, nextElement_first hw, nextElement_comma hw]

theorem elements_flatMap {write : α → List Char} {as : List α}
    (h : ∀ a ∈ as, Reads read depth (write a) a) {n : Nat} (hn : as.length < n)
    (rest : List Char) :
    elements read depth n false ((as.map write).flatMap (',' :: ·) ++ ']' :: rest) =
      .ok (as, ']' :: rest) := by
  induction as generalizing n with
  | nil =>
      obtain ⟨n, rfl⟩ := Nat.exists_eq_add_of_lt hn
      rfl
  | cons a as ih =>
      obtain ⟨n, rfl⟩ : ∃ k, n = k + 1 := ⟨n - 1, by omega⟩
      have ha := h a List.mem_cons_self
      have hmore := ih (fun b hb => h b (List.mem_cons_of_mem _ hb)) (by simpa using hn)
      have hends : Ends ((as.map write).flatMap (',' :: ·) ++ ']' :: rest) := by
        cases as with
        | nil => exact ends_bracket rest
        | cons b bs => exact ends_comma _
      simp only [List.map_cons, List.flatMap_cons, List.cons_append, List.append_assoc, elements,
        nextElement_comma ha.starts, ha.reads hends, hmore, bind, Except.bind, pure, Except.pure,
        if_true]

theorem length_le_flatMap (vs : List (List Char)) :
    vs.length ≤ (vs.flatMap (',' :: ·)).length := by
  induction vs with
  | nil => simp
  | cons v vs ih =>
      simp only [List.flatMap_cons, List.length_append, List.length_cons]
      omega

theorem elements_commas {write : α → List Char} {as : List α}
    (h : ∀ a ∈ as, Reads read depth (write a) a) (rest : List Char) :
    elements read depth ((commas (as.map write) ++ ']' :: rest).length + 1) true
        (commas (as.map write) ++ ']' :: rest) =
      .ok (as, ']' :: rest) := by
  cases as with
  | nil => rfl
  | cons a as =>
      have hstarts := (h a List.mem_cons_self).starts
      have hfuel := length_le_flatMap (as.map write)
      rw [List.map_cons, commas_cons, List.append_assoc, elements_first hstarts, ← List.append_assoc,
        ← List.cons_append, ← List.cons_append]
      refine elements_flatMap h ?_ rest
      simp only [List.length_map, List.length_cons, List.length_append] at hfuel ⊢
      omega

theorem descend_eq (h : 2 ≤ depth) : descend depth = .ok (depth - 1) := if_neg (by omega)

theorem reads_list {write : α → List Char} {as : List α} (hdepth : 2 ≤ depth)
    (h : ∀ a ∈ as, Reads read (depth - 1) (write a) a) :
    Reads (list read) depth (writeList (as.map write)) as := by
  refine ⟨⟨'[', _, rfl, by decide, by decide⟩, fun {rest} _ => ?_⟩
  have hclose : closeList (']' :: rest) = .ok rest := rfl
  simp only [writeList, List.cons_append, List.append_assoc, List.nil_append, list,
    skipSpaces_cons (c := '[') (by decide), descend_eq hdepth, elements_commas h, hclose, bind,
    Except.bind, pure, Except.pure]

end

/-! ## Records -/

namespace Record

variable {σ : Type} {r : Record σ} {depth : Nat}

theorem byName_first (n : Nat) (seen : List String) (s : σ) (e : String × List Char)
    (rest : List Char) :
    r.byName depth (n + 1) true seen s (writeEntry e ++ rest) =
      r.byName depth (n + 1) false seen s (',' :: (writeEntry e ++ rest)) := rfl

theorem byName_entry {f : Field σ} (hfind : r.fields.find? (·.name == f.name) = some f)
    {seen : List String} (hseen : f.name ∉ seen) {s s' : σ} {w : List Char}
    (h : Reads (f.read s) depth w s') {rest : List Char} (hrest : Ends rest) (n : Nat) :
    r.byName depth (n + 1) false seen s (',' :: (writeEntry (f.name, w) ++ rest)) =
      r.byName depth n false (f.name :: seen) s' rest := by
  have hkey : nextKey false (',' :: (writeEntry (f.name, w) ++ rest)) =
      .ok (true, f.name.toList.flatMap writeChar ++ '"' :: ':' :: (w ++ rest)) := by
    rw [writeEntry, List.append_assoc, writeString_append]
    rfl
  have hcolon : colon (':' :: (w ++ rest)) = .ok (w ++ rest) := rfl
  have hcontains : seen.contains f.name = false := by simpa using hseen
  rw [byName, hkey]
  simp only [bind, Except.bind, readString_flatMap, hfind, hcontains, hcolon, h.reads hrest, if_true]
  rfl

/-- Texts of values for fields, one after the other, and what they make of a record. -/
inductive Fills (depth : Nat) : List (Field σ) → List (String × List Char) → σ → σ → Prop where
  | nil (s : σ) : Fills depth [] [] s s
  | cons {f : Field σ} {fs : List (Field σ)} {w : List Char} {ws : List (String × List Char)}
      {s s' s'' : σ} (head : Reads (f.read s) depth w s') (tail : Fills depth fs ws s' s'') :
      Fills depth (f :: fs) ((f.name, w) :: ws) s s''

theorem byName_flatMap {fs : List (Field σ)} {ws : List (String × List Char)} {s s' : σ}
    (h : Fills depth fs ws s s')
    (hfind : ∀ f ∈ fs, r.fields.find? (·.name == f.name) = some f) {seen : List String}
    (hnodup : (fs.map Field.name ++ seen).Nodup) {n : Nat} (hn : ws.length < n)
    (rest : List Char) :
    r.byName depth n false seen s ((ws.map writeEntry).flatMap (',' :: ·) ++ '\x7d' :: rest) =
      .ok ((s', (fs.map Field.name).reverse ++ seen), '\x7d' :: rest) := by
  induction h generalizing n seen with
  | nil =>
      obtain ⟨n, rfl⟩ := Nat.exists_eq_add_of_lt hn
      rfl
  | @cons f fs w ws s s₁ s' head tail ih =>
      obtain ⟨n, rfl⟩ : ∃ k, n = k + 1 := ⟨n - 1, by omega⟩
      have hends : Ends ((ws.map writeEntry).flatMap (',' :: ·) ++ '\x7d' :: rest) := by
        cases ws with
        | nil => exact ends_brace rest
        | cons v vs => exact ends_comma _
      rw [List.map_cons, List.cons_append] at hnodup
      have hseen : f.name ∉ seen := fun hmem =>
        (List.nodup_cons.1 hnodup).1 (List.mem_append_right _ hmem)
      have hmore := ih (fun g hg => hfind g (List.mem_cons_of_mem _ hg))
        (List.perm_middle.nodup_iff.2 hnodup) (by simpa using hn)
      rw [List.map_cons, List.flatMap_cons, List.append_assoc, List.cons_append,
        byName_entry (hfind f List.mem_cons_self) hseen head hends, hmore]
      simp

theorem find?_name {fs : List (Field σ)} (hnodup : (fs.map Field.name).Nodup) {f : Field σ}
    (hf : f ∈ fs) : fs.find? (·.name == f.name) = some f := by
  induction fs with
  | nil => cases hf
  | cons g fs ih =>
      rw [List.map_cons, List.nodup_cons] at hnodup
      rcases List.mem_cons.1 hf with rfl | hf
      · simp
      · have hne : g.name ≠ f.name := fun e => hnodup.1 (e ▸ List.mem_map_of_mem hf)
        rw [List.find?_cons_of_neg (by simpa using hne), ih hnodup.2 hf]

theorem reads_object {ws : List (String × List Char)} {start s : σ} (hnodup : r.names.Nodup)
    (hdepth : 2 ≤ depth) (h : Fills (depth - 1) r.fields ws start s) :
    Reads (r.read start) depth (writeObject ws) s := by
  refine ⟨⟨'\x7b', _, rfl, by decide, by decide⟩, fun {rest} _ => ?_⟩
  have hread : r.byName (depth - 1) ((commas (ws.map writeEntry) ++ '\x7d' :: rest).length + 1)
      true [] start (commas (ws.map writeEntry) ++ '\x7d' :: rest) =
      .ok ((s, r.names.reverse), '\x7d' :: rest) := by
    have hnil : (r.names ++ []).Nodup := by rwa [List.append_nil]
    have hall {n : Nat} := byName_flatMap h (fun f hf => find?_name hnodup hf) hnil (n := n)
    rw [List.append_nil] at hall
    cases ws with
    | nil => exact hall (n := rest.length + 2) (Nat.succ_pos _) rest
    | cons w ws =>
        have hfuel := length_le_flatMap (ws.map writeEntry)
        rw [List.map_cons, commas_cons, List.append_assoc, byName_first, ← List.append_assoc,
          ← List.cons_append, ← List.cons_append]
        refine hall ?_ rest
        simp only [List.length_map, List.length_cons, List.length_append] at hfuel ⊢
        omega
  have hall : r.fields.find? (fun f => f.required && !r.names.reverse.contains f.name) = none := by
    refine List.find?_eq_none.2 fun f hf => ?_
    have hmem : f.name ∈ r.names := List.mem_map_of_mem hf
    simp [hmem]
  have hclose : closeObject ('\x7d' :: rest) = .ok rest := rfl
  simp only [writeObject, List.cons_append, List.append_assoc, List.nil_append, read,
    skipSpaces_cons (c := '\x7b') (by decide), descend_eq hdepth, bind, Except.bind, pure,
    Except.pure, hread, hall, hclose]

theorem reads_empty (hoptional : ∀ f ∈ r.fields, f.required = false) (hdepth : 2 ≤ depth)
    (start : σ) : Reads (r.read start) depth (writeObject []) start := by
  refine ⟨⟨'\x7b', _, rfl, by decide, by decide⟩, fun {rest} _ => ?_⟩
  have hread : r.byName (depth - 1) (('\x7d' :: rest).length + 1) true [] start ('\x7d' :: rest) =
      .ok ((start, []), '\x7d' :: rest) := rfl
  have hall : r.fields.find? (fun f => f.required && !List.contains [] f.name) = none :=
    List.find?_eq_none.2 fun f hf => by simp [hoptional f hf]
  have hclose : closeObject ('\x7d' :: rest) = .ok rest := rfl
  have htext : writeObject [] ++ rest = '\x7b' :: '\x7d' :: rest := rfl
  simp only [htext, read, skipSpaces_cons (c := '\x7b') (by decide), descend_eq hdepth, bind,
    Except.bind, pure, Except.pure, hread, hall, hclose]

/-- The same texts without the names, read in order. -/
theorem inOrder_flatMap {fs : List (Field σ)} {ws : List (String × List Char)} {s s' : σ}
    (h : Fills depth fs ws s s') (counted : String) (short : Bool) (i : Nat) (rest : List Char) :
    inOrder counted short depth i fs false s
        ((ws.map Prod.snd).flatMap (',' :: ·) ++ ']' :: rest) = .ok (s', ']' :: rest) := by
  induction h generalizing i with
  | nil => rfl
  | @cons f fs w ws s s₁ s' head tail ih =>
      have hends : Ends ((ws.map Prod.snd).flatMap (',' :: ·) ++ ']' :: rest) := by
        cases ws with
        | nil => exact ends_bracket rest
        | cons v vs => exact ends_comma _
      simp only [List.map_cons, List.flatMap_cons, List.cons_append, List.append_assoc, inOrder,
        nextElement_comma head.starts, head.reads hends, ih, bind, Except.bind, if_true]

theorem reads_tuple {fs : List (Field σ)} {ws : List (String × List Char)} {start s : σ}
    (hdepth : 2 ≤ depth) (h : Fills (depth - 1) fs ws start s) (expected : String) :
    Reads (tuple expected fs start) depth (writeList (ws.map Prod.snd)) s := by
  refine ⟨⟨'[', _, rfl, by decide, by decide⟩, fun {rest} _ => ?_⟩
  have hread : inOrder expected false (depth - 1) 0 fs true start
      (commas (ws.map Prod.snd) ++ ']' :: rest) = .ok (s, ']' :: rest) := by
    have hall := inOrder_flatMap h expected false 0 rest
    cases h with
    | nil => exact hall
    | cons head tail =>
        rw [List.map_cons, commas_cons, List.append_assoc]
        simpa only [List.map_cons, List.flatMap_cons, List.cons_append, List.append_assoc, inOrder,
          nextElement_comma head.starts, nextElement_first head.starts] using hall
  have hclose : closeList (']' :: rest) = .ok rest := rfl
  simp only [writeList, List.cons_append, List.append_assoc, List.nil_append, tuple,
    skipSpaces_cons (c := '[') (by decide), descend_eq hdepth, hread, hclose, bind, Except.bind,
    pure, Except.pure]

end Record

/-! ## Alternatives -/

namespace Variant

variable {α : Type} {variants : List (Variant α)} {v : Variant α} {depth : Nat}

theorem readName_writeString (hfind : variants.find? (·.name == v.name) = some v)
    (rest : List Char) : readName variants (writeString v.name ++ rest) = .ok (v, rest) := by
  simp only [readName, string_writeString, bind, Except.bind, hfind, pure, Except.pure]

theorem reads_bare (hfind : variants.find? (·.name == v.name) = some v) {a : α}
    (hbare : v.bare = some a) : Reads (readOne variants) depth (writeString v.name) a := by
  refine ⟨⟨'"', _, rfl, by decide, by decide⟩, fun {rest} _ => ?_⟩
  have hname := readName_writeString hfind rest
  rw [writeString_append] at hname ⊢
  simp only [readOne, skipSpaces_cons (c := '"') (by decide), hname, bind, Except.bind, hbare, pure,
    Except.pure]

theorem reads_object (hfind : variants.find? (·.name == v.name) = some v) (hdepth : 2 ≤ depth)
    {w : List Char} {a : α} (h : Reads v.read (depth - 1) w a) :
    Reads (readOne variants) depth (writeObject [(v.name, w)]) a := by
  refine ⟨⟨'\x7b', _, rfl, by decide, by decide⟩, fun {rest} _ => ?_⟩
  have hname := readName_writeString hfind (':' :: (w ++ '\x7d' :: rest))
  have hcolon : colon (':' :: (w ++ '\x7d' :: rest)) = .ok (w ++ '\x7d' :: rest) := rfl
  have hspaces : skipSpaces ('\x7d' :: rest) = '\x7d' :: rest := rfl
  have htext : writeObject [(v.name, w)] ++ rest =
      '\x7b' :: (writeString v.name ++ ':' :: (w ++ '\x7d' :: rest)) := by
    simp [writeObject, commas, writeEntry]
  simp only [htext, readOne, skipSpaces_cons (c := '\x7b') (by decide), descend_eq hdepth, hname, hcolon,
    h.reads (ends_brace rest), hspaces, bind, Except.bind, pure, Except.pure]

end Variant

end DocStamp.Json
