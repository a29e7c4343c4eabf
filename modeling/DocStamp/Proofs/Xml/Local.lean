/-
# A reader looks at no more than what it takes

When a piece of markup is read, the text behind it plays no part, and
neither does the position where it stands: the same piece is read in the
same way in front of any other text.  For each reader there is a lemma
that finds the piece `a` that was taken, and says so.  Where a reader
stops at the first character that it does not take, what follows has to
stop it as well (`StopsAt`).

Nothing is asked of the text but that it was read.
-/
import DocStamp.Proofs.Xml.CharacterData
import DocStamp.Proofs.Xml.Content

namespace DocStamp.Xml

theorem ok_of_bind {ε α β : Type} {x : Except ε α} {f : α → Except ε β} {b : β}
    (h : x >>= f = .ok b) : ∃ a, x = .ok a ∧ f a = .ok b := by
  cases x with
  | error e => cases h
  | ok a => exact ⟨a, rfl, h⟩

namespace Cursor

variable {k k' : Cursor} {a b cs : List Char} {p : Position}

/-! ## Runs of characters -/

theorem of_takeWhile {test : Char → Bool} (h : takeWhile test cs p = (a, k')) :
    cs = a ++ k'.rest ∧ (∀ c ∈ a, test c = true) ∧ StopsAt test k'.rest := by
  induction cs generalizing a p with
  | nil =>
      obtain ⟨rfl, rfl⟩ := Prod.mk.inj h
      exact ⟨rfl, List.forall_mem_nil _, by simp [StopsAt]⟩
  | cons c cs ih =>
      rw [takeWhile] at h
      split at h
      · rename_i hc
        obtain ⟨rfl, hk⟩ := Prod.mk.inj h
        obtain ⟨hcs, hall, hstop⟩ := ih (p := p.next c) (Prod.ext rfl hk)
        refine ⟨congrArg (c :: ·) hcs, ?_, hstop⟩
        intro d hd
        rcases List.mem_cons.1 hd with rfl | hd
        · exact hc
        · exact hall d hd
      · rename_i hc
        obtain ⟨rfl, rfl⟩ := Prod.mk.inj h
        exact ⟨rfl, List.forall_mem_nil _, stopsAt_cons (by simpa using hc) cs⟩

theorem of_skipSpaces (k : Cursor) : ∃ s, k.rest = s ++ k.skipSpaces.rest ∧
    (∀ c ∈ s, isSpace c = true) ∧ StopsAt isSpace k.skipSpaces.rest :=
  ⟨_, of_takeWhile (Prod.eta (takeWhile isSpace k.rest k.position)).symm⟩

theorem of_readUntil {stop : List Char → Bool} (h : readUntil stop cs p = .ok (a, k')) :
    cs = a ++ k'.rest ∧
      (∀ x c y, a = x ++ c :: y → isLegal c = true ∧ stop (c :: y ++ k'.rest) = false) ∧
      (∀ c rest, k'.rest = c :: rest → isLegal c = true ∧ stop (c :: rest) = true) := by
  induction cs generalizing a p with
  | nil =>
      obtain ⟨rfl, rfl⟩ := Prod.mk.inj (Except.ok.inj h)
      exact ⟨rfl, by simp, by simp⟩
  | cons c cs ih =>
      rw [readUntil] at h
      split at h
      · cases h
      · rename_i hlegal
        have hc : isLegal c = true := by simpa using hlegal
        split at h
        · rename_i hstop
          obtain ⟨rfl, rfl⟩ := Prod.mk.inj (Except.ok.inj h)
          refine ⟨rfl, by simp, ?_⟩
          rintro d rest hrest
          obtain ⟨rfl, rfl⟩ := List.cons.inj hrest
          exact ⟨hc, hstop⟩
        · rename_i hstop
          split at h
          · rename_i read k hread
            obtain ⟨rfl, rfl⟩ := Prod.mk.inj (Except.ok.inj h)
            obtain ⟨hcs, hinside, hend⟩ := ih hread
            refine ⟨congrArg (c :: ·) hcs, ?_, hend⟩
            intro x d y hsplit
            cases x with
            | nil =>
                obtain ⟨rfl, rfl⟩ := List.cons.inj hsplit
                rw [List.cons_append, ← hcs]
                exact ⟨hc, by simpa using hstop⟩
            | cons e x => exact hinside x d y (List.cons.inj hsplit).2
          · cases h

theorem readUntil_all {stop : List Char → Bool} {test : Char → Bool}
    (hstop : ∀ c cs, stop (c :: cs) = test c) (ha : ∀ c ∈ a, isLegal c = true ∧ test c = false)
    (p : Position) : readUntil stop a p = .ok (a, ⟨[], p.after a⟩) := by
  induction a generalizing p with
  | nil => rfl
  | cons c cs ih =>
      obtain ⟨hlegal, htest⟩ := ha c List.mem_cons_self
      have hcs := ih (fun d hd => ha d (List.mem_cons_of_mem c hd)) (p.next c)
      simp [readUntil, hlegal, hstop, htest, hcs]

theorem of_expectChar {c : Char} (h : k.expectChar c = .ok k') : k.rest = c :: k'.rest := by
  obtain ⟨cs, p⟩ := k
  cases cs with
  | nil => cases h
  | cons d cs =>
      simp only [expectChar] at h
      split at h
      · rename_i hd
        obtain rfl := Except.ok.inj h
        rw [hd]
        rfl
      · cases h

theorem advance_of_append (a : List Char) (h : k.rest = a ++ b) :
    k.advance a.length = ⟨b, k.position.after a⟩ := by
  obtain ⟨cs, p⟩ := k
  obtain rfl := h
  exact advance_append a b p

theorem startsWith_iff {s : String} : k.startsWith s = true ↔ ∃ b, k.rest = s.toList ++ b := by
  rw [startsWith, List.isPrefixOf_iff_prefix]
  constructor
  · rintro ⟨b, hb⟩
    exact ⟨b, hb.symm⟩
  · rintro ⟨b, hb⟩
    exact ⟨b, hb.symm⟩

theorem of_expectString {s : String} (h : k.expectString s = .ok k') :
    k.rest = s.toList ++ k'.rest := by
  rw [expectString] at h
  split at h
  · rename_i hs
    obtain ⟨b, hb⟩ := startsWith_iff.1 hs
    rw [← String.length_toList, advance_of_append s.toList hb] at h
    obtain rfl := Except.ok.inj h
    exact hb
  · cases h

theorem of_readQuote {c : Char} (h : k.readQuote = .ok (c, k')) :
    IsMark c ∧ k.rest = c :: k'.rest := by
  obtain ⟨cs, p⟩ := k
  cases cs with
  | nil => cases h
  | cons d cs =>
      simp only [readQuote] at h
      split at h
      · rename_i hd
        obtain ⟨rfl, rfl⟩ := Prod.mk.inj (Except.ok.inj h)
        exact ⟨by simpa [IsMark] using hd, rfl⟩
      · cases h

/-- What stops a reader inside of a text is not changed by what follows. -/
theorem stopsAt_front {test : Char → Bool} (ha : a ≠ []) (h : StopsAt test (a ++ cs))
    (b : List Char) : StopsAt test (a ++ b) := by
  obtain ⟨c, rest, rfl⟩ := List.exists_cons_of_ne_nil ha
  exact stopsAt_cons (h c rfl) _

theorem isPrefixOf_append {s l : List Char} (h : s.length ≤ l.length) (b : List Char) :
    s.isPrefixOf (l ++ b) = s.isPrefixOf l := by
  rw [Bool.eq_iff_iff, List.isPrefixOf_iff_prefix, List.isPrefixOf_iff_prefix]
  constructor
  · intro hs
    exact List.prefix_of_prefix_length_le hs (List.prefix_append l b) h
  · intro hs
    exact hs.trans (List.prefix_append l b)

theorem isPrefixOf_closed {s l : List Char} {d : Char} (hd : d ∈ l) (hs : d ∉ s) (b : List Char) :
    s.isPrefixOf (l ++ b) = s.isPrefixOf l := by
  by_cases hlength : s.length ≤ l.length
  · exact isPrefixOf_append hlength b
  · have hnot : ∀ b, s.isPrefixOf (l ++ b) = false := by
      intro b
      refine Bool.eq_false_iff.2 fun hpre => hs ?_
      exact (List.prefix_of_prefix_length_le (List.prefix_append l b)
        (List.isPrefixOf_iff_prefix.1 hpre) (by omega)).subset hd
    rw [hnot, ← List.append_nil l, hnot]

theorem of_readTo {mark : String} {k₁ : Cursor} (hne : mark.toList ≠ [])
    (hlegal : ∀ c ∈ mark.toList, isLegal c = true)
    (hread : readUntil (fun cs => mark.toList.isPrefixOf cs) cs p = .ok (a, k₁))
    (hend : k₁.expectString mark = .ok k') :
    cs = a ++ (mark.toList ++ k'.rest) ∧ ∀ b q,
      readUntil (fun cs => mark.toList.isPrefixOf cs) (a ++ (mark.toList ++ b)) q =
        .ok (a, ⟨mark.toList ++ b, q.after a⟩) := by
  obtain ⟨hcs, hinside, -⟩ := of_readUntil hread
  have hrest := of_expectString hend
  refine ⟨by rw [hcs, hrest], fun b q => readUntil_append (fun x c y hsplit => ?_) ?_⟩
  · obtain ⟨hc, hstop⟩ := hinside x c y hsplit
    rw [hrest, ← List.append_assoc, isPrefixOf_append (by simp; omega)] at hstop
    rw [← List.append_assoc, isPrefixOf_append (by simp; omega)]
    exact ⟨hc, hstop⟩
  · obtain ⟨c, rest, hmark⟩ := List.exists_cons_of_ne_nil hne
    refine ⟨c, rest ++ b, by rw [hmark]; rfl, hlegal c (hmark ▸ List.mem_cons_self), ?_⟩
    rw [← List.cons_append, ← hmark, List.isPrefixOf_iff_prefix]
    exact List.prefix_append _ b

/-! ## Comments, instructions and sections -/

theorem of_skipComment (h : skipComment ⟨"<!--".toList ++ cs, p⟩ = .ok k') :
    ∃ a, cs = a ++ k'.rest ∧ ∀ b p, ∃ q, skipComment ⟨"<!--".toList ++ (a ++ b), p⟩ = .ok ⟨b, q⟩ := by
  have hopen : ∀ cs p, advance 4 ⟨"<!--".toList ++ cs, p⟩ = ⟨cs, p.after "<!--".toList⟩ :=
    advance_append "<!--".toList
  simp only [skipComment, hopen] at h ⊢
  obtain ⟨⟨text, k₁⟩, hread, h⟩ := ok_of_bind h
  obtain ⟨k₂, hend, h⟩ := ok_of_bind h
  obtain ⟨hcs, hlocal⟩ := of_readTo (by simp) (forall_mem_of_all (by decide)) hread hend
  split at h
  · cases h
  · rename_i hdashes
    obtain rfl := Except.ok.inj h
    refine ⟨text ++ "-->".toList, by rw [hcs, List.append_assoc], fun b p => ?_⟩
    simp only [List.append_assoc, hlocal, expectString_append, bind, Except.bind, hdashes]
    exact ⟨_, rfl⟩

theorem of_readSection {s : String} (h : readSection ⟨"<![CDATA[".toList ++ cs, p⟩ = .ok (s, k')) :
    ∃ a, cs = a ++ k'.rest ∧
      ∀ b p, ∃ q, readSection ⟨"<![CDATA[".toList ++ (a ++ b), p⟩ = .ok (s, ⟨b, q⟩) := by
  have hopen : ∀ cs p, advance 9 ⟨"<![CDATA[".toList ++ cs, p⟩ = ⟨cs, p.after "<![CDATA[".toList⟩ :=
    advance_append "<![CDATA[".toList
  simp only [readSection, hopen] at h ⊢
  obtain ⟨⟨text, k₁⟩, hread, h⟩ := ok_of_bind h
  obtain ⟨k₂, hend, h⟩ := ok_of_bind h
  obtain ⟨hcs, hlocal⟩ := of_readTo (by simp) (forall_mem_of_all (by decide)) hread hend
  obtain ⟨rfl, rfl⟩ := Prod.mk.inj (Except.ok.inj h)
  refine ⟨text ++ "]]>".toList, by rw [hcs, List.append_assoc], fun b p => ?_⟩
  simp only [List.append_assoc, hlocal, expectString_append, bind, Except.bind]
  exact ⟨_, rfl⟩

theorem of_readName {s : String} (h : k.readName = .ok (s, k')) :
    ∃ a, k.rest = a ++ k'.rest ∧ StopsAt isNameChar k'.rest ∧ beginsName a = true ∧
      (∀ c ∈ a, isNameChar c = true) ∧ s = String.ofList a := by
  obtain ⟨cs, p⟩ := k
  cases cs with
  | nil => cases h
  | cons c cs =>
      simp only [readName] at h
      split at h
      · rename_i hc
        obtain ⟨rfl, rfl⟩ := Prod.mk.inj (Except.ok.inj h)
        obtain ⟨htext, hall, hstop⟩ := of_takeWhile (Prod.eta (takeWhile isNameChar (c :: cs) p)).symm
        refine ⟨_, htext, hstop, ?_, hall, rfl⟩
        have hname : isNameChar c = true := by simp [isNameChar, hc]
        simp [takeWhile, hname, beginsName, hc]
      · cases h

theorem of_skipInstruction (h : skipInstruction ⟨"<?".toList ++ cs, p⟩ = .ok k') :
    ∃ a, cs = a ++ k'.rest ∧ ∀ b p, ∃ q, skipInstruction ⟨"<?".toList ++ (a ++ b), p⟩ = .ok ⟨b, q⟩ := by
  have hopen : ∀ cs p, advance 2 ⟨"<?".toList ++ cs, p⟩ = ⟨cs, p.after "<?".toList⟩ :=
    advance_append "<?".toList
  simp only [skipInstruction, hopen, startsWith] at h ⊢
  split at h
  · cases h
  · rename_i hdeclaration
    obtain ⟨⟨name, k₁⟩, hname, h⟩ := ok_of_bind h
    obtain ⟨⟨text, k₂⟩, hread, hend⟩ := ok_of_bind h
    obtain ⟨a, hcs, hstop, hbegins, hall, rfl⟩ := of_readName hname
    obtain ⟨s, hspaces, hs, hnot⟩ := of_skipSpaces k₁
    obtain ⟨htext, hlocal⟩ := of_readTo (by simp) (forall_mem_of_all (by decide)) hread hend
    rw [htext] at hnot hspaces
    rw [hspaces] at hstop hcs
    obtain rfl : cs = a ++ (s ++ (text ++ ("?>".toList ++ k'.rest))) := hcs
    refine ⟨a ++ (s ++ (text ++ "?>".toList)), by simp, fun b p => ?_⟩
    -- The end mark is no part of the beginning of a declaration.
    have hclosed : ∀ b, "<?xml ".toList.isPrefixOf
        ("<?".toList ++ (a ++ (s ++ (text ++ ("?>".toList ++ b))))) =
        "<?xml ".toList.isPrefixOf ("<?".toList ++ (a ++ (s ++ (text ++ "?>".toList)))) := by
      intro b
      rw [← isPrefixOf_closed (l := "<?".toList ++ (a ++ (s ++ (text ++ "?>".toList)))) (d := '>')
        (by simp) (by decide) b]
      simp only [List.append_assoc]
    have hdeclaration' := Bool.eq_false_iff.2 hdeclaration
    rw [hclosed] at hdeclaration'
    have hname' := fun q => readName_append (p := q) hbegins hall
      (stopsAt_front (a := s ++ (text ++ "?>".toList)) (by simp) (by simpa using hstop) b)
    have hspaces' := fun q => skipSpaces_append (p := q) hs
      (stopsAt_front (a := text ++ "?>".toList) (by simp) (by simpa using hnot) b)
    simp only [List.append_assoc] at hname' hspaces'
    simp only [List.append_assoc, hclosed, hdeclaration', hname', hspaces', hlocal,
      expectString_append, bind, Except.bind]
    exact ⟨_, rfl⟩

end Cursor

/-! ## Character data -/

section

variable {a b cs rest : List Char} {ds : List Datum}

theorem occursIn_iff {pattern : List Char} :
    Text.occursIn pattern cs = true ↔ pattern <:+: cs := by
  induction cs with
  | nil => rw [Text.occursIn, List.isEmpty_iff, List.infix_nil]
  | cons c cs ih =>
      rw [Text.occursIn, Bool.or_eq_true, List.isPrefixOf_iff_prefix, ih, List.infix_cons_iff]

theorem of_endReference? {r r' : Reference} (h : endReference? r cs = some (r', rest)) :
    r' = r ∧ cs = ';' :: rest := by
  unfold endReference? at h
  split at h
  · obtain ⟨rfl, rfl⟩ := Prod.mk.inj (Option.some.inj h)
    exact ⟨rfl, rfl⟩
  · cases h

theorem takeWhile_semicolon {test : Char → Bool} (htest : test ';' = false)
    (h : cs.drop (cs.takeWhile test).length = ';' :: rest) (b : List Char) :
    (cs ++ b).takeWhile test = cs.takeWhile test ∧
      (cs ++ b).drop (cs.takeWhile test).length = ';' :: (rest ++ b) := by
  have hcs : cs = cs.takeWhile test ++ ';' :: rest := by
    have hsplit := List.prefix_iff_eq_append.1 (List.takeWhile_prefix (l := cs) test)
    rw [h] at hsplit
    exact hsplit.symm
  generalize hw : cs.takeWhile test = w at h hcs
  have hall : ∀ c ∈ w, test c = true := by
    rw [← hw]
    exact List.all_eq_true.1 List.all_takeWhile
  subst hcs
  constructor
  · rw [List.append_assoc, List.takeWhile_append_of_pos hall]
    simp [htest]
  · rw [List.append_assoc, List.drop_left]
    rfl

theorem numbered?_append {base : Nat} {r : Reference} (hbase : (digitValue? base ';').isSome = false)
    (h : numbered? base cs = some (r, rest)) (b : List Char) :
    numbered? base (cs ++ b) = some (r, rest ++ b) ∧ rest.length < cs.length := by
  simp only [numbered?] at h ⊢
  split at h
  · cases h
  · rename_i hdigits
    obtain ⟨c, hc, hend⟩ := Option.bind_eq_some_iff.1 h
    obtain ⟨rfl, hdrop⟩ := of_endReference? hend
    obtain ⟨htake, hdrop'⟩ := takeWhile_semicolon hbase hdrop b
    have hlength := congrArg List.length hdrop
    rw [List.length_drop, List.length_cons] at hlength
    rw [htake, hdrop', if_neg hdigits, hc]
    exact ⟨rfl, by omega⟩

theorem reference?_append {r : Reference} (h : reference? cs = some (r, rest)) (b : List Char) :
    reference? (cs ++ b) = some (r, rest ++ b) ∧ rest.length < cs.length := by
  fun_cases reference? cs with
  | case1 cs =>
      obtain ⟨happend, hlength⟩ := numbered?_append (by decide) h b
      exact ⟨happend, by simp only [List.length_cons]; omega⟩
  | case2 cs hx =>
      rw [reference?.eq_2 cs hx] at h
      obtain ⟨happend, hlength⟩ := numbered?_append (by decide) h b
      refine ⟨?_, by simp only [List.length_cons]; omega⟩
      rw [List.cons_append, reference?.eq_2]
      · exact happend
      · intro more hmore
        obtain ⟨c, cs, rfl⟩ := List.exists_cons_of_length_pos (by omega : 0 < cs.length)
        exact hx cs (by rw [(List.cons.inj hmore).1])
  | case3 cs hx hsharp hbegins =>
      rw [reference?.eq_3 cs hx hsharp, if_pos hbegins] at h
      obtain ⟨rfl, hdrop⟩ := of_endReference? h
      obtain ⟨htake, hdrop'⟩ := takeWhile_semicolon (by decide) hdrop b
      have hlength := congrArg List.length hdrop
      rw [List.length_drop, List.length_cons] at hlength
      obtain ⟨c, cs, rfl⟩ := List.exists_cons_of_length_pos (by omega : 0 < cs.length)
      have hsharp' : ∀ more, c :: cs ++ b = '#' :: more → False := by
        intro more hmore
        exact hsharp cs (by rw [(List.cons.inj hmore).1])
      have hbegins' : beginsName (c :: cs ++ b) = true := hbegins
      rw [reference?.eq_3 _ (fun more hmore => hsharp' _ hmore) hsharp', if_pos hbegins']
      simp only [htake, hdrop']
      exact ⟨rfl, by omega⟩
  | case4 cs hx hsharp hbegins =>
      rw [reference?.eq_3 cs hx hsharp, if_neg hbegins] at h
      cases h

/-- What is resolved of a text is resolved as well where the text goes on, at any position. -/
theorem resolveFrom_append {n : Nat} {p : Position} (h : resolveFrom n a p = .ok ds)
    (hn : a.length ≤ n) {m : Nat} (hm : a.length + b.length ≤ m) (q : Position) :
    ∃ m' q', b.length ≤ m' ∧
      resolveFrom m (a ++ b) q = (resolveFrom m' b q').map (ds ++ ·) := by
  have hmap : ∀ (d : Datum) (ds : List Datum) (r : Except Error (List Datum)),
      (do return d :: (← r.map (ds ++ ·))) = r.map (d :: ds ++ ·) := by
    intro d ds r
    cases r <;> rfl
  have hnil : ∀ r : Except Error (List Datum), r = r.map ([] ++ ·) := by
    intro r
    cases r <;> rfl
  induction n generalizing a ds p m q with
  | zero =>
      obtain rfl := List.length_eq_zero_iff.1 (Nat.le_zero.1 hn)
      obtain rfl := Except.ok.inj h
      exact ⟨m, q, by simpa using hm, hnil _⟩
  | succ n ih =>
      cases a with
      | nil =>
          obtain rfl := Except.ok.inj h
          exact ⟨m, q, by simpa using hm, hnil _⟩
      | cons c cs =>
          simp only [List.length_cons] at hn hm
          obtain ⟨m, rfl⟩ : ∃ k, m = k + 1 := ⟨m - 1, by omega⟩
          rw [List.cons_append]
          simp only [resolveFrom] at h ⊢
          split at h
          · rename_i hc
            rw [if_pos hc]
            split at h
            · cases h
            · cases h
            · rename_i d rest hreference
              obtain ⟨ds, hds, h⟩ := ok_of_bind h
              obtain rfl := Except.ok.inj h
              obtain ⟨happend, hlength⟩ := reference?_append hreference b
              rw [happend]
              obtain ⟨m', q', hm', hrest⟩ := ih hds (by omega) (m := m) (by omega) _
              exact ⟨m', q', hm', by rw [← hmap, ← hrest]⟩
          · rename_i hc
            rw [if_neg hc]
            obtain ⟨ds, hds, h⟩ := ok_of_bind h
            obtain rfl := Except.ok.inj h
            obtain ⟨m', q', hm', hrest⟩ := ih hds (by omega) (m := m) (by omega) _
            exact ⟨m', q', hm', by rw [← hmap, ← hrest]⟩

theorem resolve_of_resolveFrom {n : Nat} {p : Position} (h : resolveFrom n a p = .ok ds)
    (hn : a.length ≤ n) (q : Position) : resolve a q = .ok ds := by
  obtain ⟨m, q', -, happend⟩ := resolveFrom_append (b := []) h hn (Nat.le_refl _) q
  have hend : resolveFrom m [] q' = .ok [] := by cases m <;> rfl
  rw [List.append_nil, hend] at happend
  rw [resolve]
  exact happend.trans (congrArg Except.ok (List.append_nil ds))

/-- Character data as it is written, up to the next markup, and what it stands for. -/
structure IsRaw (raw : List Char) (ds : List Datum) : Prop where
  legal : ∀ c ∈ raw, isLegal c = true ∧ c ≠ '<'
  noEnd : ¬ "]]>".toList <:+: raw
  resolves : ∀ p, resolve raw p = .ok ds

/-- Character data that is cut, but not within a reference, is character data on both sides. -/
theorem IsRaw.cut (h : IsRaw (a ++ b) ds) {p : Position} {ds₁ : List Datum}
    (ha : resolve a p = .ok ds₁) : IsRaw a ds₁ ∧ ∃ ds₂, IsRaw b ds₂ := by
  have hleft : IsRaw a ds₁ := by
    refine ⟨fun c hc => h.legal c (List.mem_append_left b hc), fun hend => ?_, fun q => ?_⟩
    · exact h.noEnd (hend.trans (List.prefix_append a b).isInfix)
    · exact resolve_of_resolveFrom ha (Nat.le_refl _) q
  obtain ⟨m, q, hm, happend⟩ := resolveFrom_append (b := b) ha (Nat.le_refl _) (Nat.le_refl _) p
  have hds := h.resolves p
  rw [resolve, List.length_append, happend] at hds
  cases hb : resolveFrom m b q with
  | error e =>
      rw [hb] at hds
      cases hds
  | ok ds₂ =>
      refine ⟨hleft, ds₂, fun c hc => h.legal c (List.mem_append_right a hc), fun hend => ?_, ?_⟩
      · exact h.noEnd (hend.trans (List.suffix_append a b).isInfix)
      · exact resolve_of_resolveFrom hb hm

theorem IsRaw.readText (h : IsRaw a ds) (hb : ∀ c ∈ b.head?, c = '<') (p : Position) :
    Cursor.readText ⟨a ++ b, p⟩ = .ok (String.ofList (dataChars ds), ⟨b, p.after a⟩) := by
  have hlegal : ∀ c ∈ a, isLegal c = true ∧ (c == '<') = false := by
    intro c hc
    obtain ⟨hc, hlt⟩ := h.legal c hc
    exact ⟨hc, beq_eq_false_iff_ne.2 hlt⟩
  have hread : Cursor.readUntil (fun cs => cs.head? == some '<') (a ++ b) p =
      .ok (a, ⟨b, p.after a⟩) := by
    cases b with
    | nil =>
        rw [List.append_nil]
        exact Cursor.readUntil_all (by simp) hlegal p
    | cons c b =>
        obtain rfl := hb c rfl
        exact Cursor.readUntil_head _ (· == '<') (by simp) hlegal rfl rfl b
  have hend : Text.occursIn "]]>".toList a = false :=
    Bool.eq_false_iff.2 fun hend => h.noEnd (occursIn_iff.1 hend)
  simp only [Cursor.readText, hread, hend, h.resolves, bind, Except.bind, pure, Except.pure,
    Bool.false_eq_true, if_false]

theorem of_readText {k k' : Cursor} {s : String} (h : k.readText = .ok (s, k')) :
    ∃ raw ds, k.rest = raw ++ k'.rest ∧ IsRaw raw ds ∧ s = String.ofList (dataChars ds) ∧
      ∀ c ∈ k'.rest.head?, c = '<' := by
  obtain ⟨⟨raw, k₁⟩, hread, h⟩ := ok_of_bind h
  obtain ⟨htext, hinside, hend⟩ := Cursor.of_readUntil hread
  simp only at h
  split at h
  · cases h
  · rename_i hsection
    obtain ⟨ds, hds, h⟩ := ok_of_bind h
    obtain ⟨rfl, rfl⟩ := Prod.mk.inj (Except.ok.inj h)
    refine ⟨raw, ds, htext, ⟨fun c hc => ?_, fun hinfix => ?_, ?_⟩, rfl, fun c hc => ?_⟩
    · obtain ⟨x, y, rfl⟩ := List.append_of_mem hc
      obtain ⟨hlegal, hstop⟩ := hinside x c y rfl
      exact ⟨hlegal, by simpa using hstop⟩
    · exact hsection (occursIn_iff.2 hinfix)
    · exact resolve_of_resolveFrom hds (Nat.le_refl _)
    · obtain ⟨rest, hrest⟩ := List.head?_eq_some_iff.1 hc
      have hstop := (hend c rest hrest).2
      simpa using hstop

end

/-! ## Tags -/

/-- The tag name that a run of name characters spells. -/
def tagNameOf? (read : List Char) : Option TagName :=
  let first := read.takeWhile (· != ':')
  match read.drop first.length with
  | [] => if beginsName first then some ⟨"", String.ofList first⟩ else none
  | _ :: second =>
      if second.contains ':' then none
      else if (first.isEmpty || beginsName first) && beginsName second then
        some ⟨String.ofList first, String.ofList second⟩
      else none

namespace Cursor

variable {k k' : Cursor} {a b cs : List Char} {p : Position}

theorem readTagName_eq (k : Cursor) :
    k.readTagName = (tagNameOf? (takeWhile isNameChar k.rest k.position).1).elim
      (.error (.name k.position)) fun name => .ok (name, (takeWhile isNameChar k.rest k.position).2) := by
  simp only [readTagName, tagNameOf?]
  generalize takeWhile isNameChar k.rest k.position = r
  cases r.1.drop (r.1.takeWhile (· != ':')).length with
  | nil =>
      simp only
      split <;> rfl
  | cons c second =>
      simp only
      split
      · rfl
      · split <;> rfl

theorem of_readTagName {name : TagName} (h : k.readTagName = .ok (name, k')) :
    ∃ a, k.rest = a ++ k'.rest ∧ a ≠ [] ∧ (∀ c ∈ a, isNameChar c = true) ∧
      StopsAt isNameChar k'.rest ∧ ∀ b p, StopsAt isNameChar b →
        readTagName ⟨a ++ b, p⟩ = .ok (name, ⟨b, p.after a⟩) := by
  obtain ⟨htext, hall, hstop⟩ :=
    of_takeWhile (Prod.eta (takeWhile isNameChar k.rest k.position)).symm
  rw [readTagName_eq] at h
  cases hname : tagNameOf? (takeWhile isNameChar k.rest k.position).1 with
  | none =>
      rw [hname] at h
      cases h
  | some found =>
      rw [hname] at h
      obtain ⟨rfl, rfl⟩ := Prod.mk.inj (Except.ok.inj h)
      refine ⟨_, htext, ?_, hall, hstop, fun b p hb => ?_⟩
      · intro hnil
        rw [hnil] at hname
        cases hname
      · rw [readTagName_eq, takeWhile_append hall hb]
        simp only [hname, Option.elim_some]

theorem of_readAttribute {r : RawAttribute} (h : k.readAttribute = .ok (r, k')) :
    ∃ a, k.rest = a ++ k'.rest ∧ a ≠ [] ∧ ∀ b p, ∃ at_ q,
      readAttribute ⟨a ++ b, p⟩ = .ok (⟨r.name, r.value, at_⟩, ⟨b, q⟩) := by
  obtain ⟨⟨name, k₁⟩, hname, h⟩ := ok_of_bind h
  obtain ⟨k₂, hequals, h⟩ := ok_of_bind h
  obtain ⟨⟨mark, k₃⟩, hquote, h⟩ := ok_of_bind h
  obtain ⟨⟨value, k₄⟩, hvalue, h⟩ := ok_of_bind h
  obtain ⟨k₅, hclose, h⟩ := ok_of_bind h
  obtain ⟨rfl, rfl⟩ := Prod.mk.inj (Except.ok.inj h)
  obtain ⟨a, htext, hne, -, hstop, hlocal⟩ := of_readTagName hname
  obtain ⟨s₁, hs₁, hspace₁, hnot₁⟩ := of_skipSpaces k₁
  obtain ⟨s₂, hs₂, hspace₂, hnot₂⟩ := of_skipSpaces k₂
  obtain ⟨hmark, hopen⟩ := of_readQuote hquote
  obtain ⟨hread, hinside, hend⟩ := of_readUntil hvalue
  rw [of_expectChar hequals] at hs₁
  rw [hs₂, hopen, hread, of_expectChar hclose] at hs₁
  have hall : ∀ c ∈ value, isLegal c = true ∧ c ≠ mark ∧ c ≠ '<' := by
    intro c hc
    obtain ⟨x, y, rfl⟩ := List.append_of_mem hc
    obtain ⟨hlegal, hstop⟩ := hinside x c y rfl
    exact ⟨hlegal, by simpa using hstop⟩
  refine ⟨a ++ (s₁ ++ '=' :: (s₂ ++ mark :: (value ++ [mark]))), by rw [htext, hs₁]; simp,
    by simp [hne], fun b p => ?_⟩
  have hread := readAttribute_append hlocal ⟨s₁, hspace₁⟩ ⟨s₂, hspace₂⟩ hmark hall b p
  simpa only [List.append_assoc, List.cons_append, List.nil_append] using hread

end Cursor

end DocStamp.Xml
