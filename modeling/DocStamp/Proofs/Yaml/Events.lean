/-
# The events of a written document

The tokens of a value, with any tokens behind them, make the parser give
the events of the value and go back to the state that it was to return
to.  A list behind a key ends where the next token is no dash.
-/
import DocStamp.Proofs.Yaml.Tokens
import DocStamp.Yaml.Event.Parse

namespace DocStamp.Yaml

def Properties.none : Properties := ⟨.none, .none⟩

mutual

/-- The events of a value. -/
def Value.events : Value → List EventKind
  | .null => [.scalar .none "null" .plain]
  | .text s => [.scalar .none s (layoutOf s).style]
  | .list items => .sequenceStart .none :: (Value.itemEvents items ++ [.sequenceEnd])
  | .map entries => .mappingStart .none :: (Value.entryEvents entries ++ [.mappingEnd])

def Value.itemEvents : List Value → List EventKind
  | [] => []
  | item :: items => item.events ++ Value.itemEvents items

def Value.entryEvents : List (String × Value) → List EventKind
  | [] => []
  | (key, value) :: entries =>
      .scalar .none key .plain :: (value.events ++ Value.entryEvents entries)

end

namespace Parser

/-- A parser gives events of these kinds and becomes another. -/
inductive Emits : Parser → List EventKind → Parser → Prop
  | refl (p : Parser) : Emits p [] p
  | step {p q r : Parser} {e : Event} {ks : List EventKind} : p.state ≠ .done →
      p.step = .ok (e, q) → Emits q ks r → Emits p (e.kind :: ks) r

/-- A step gives the first of some events, and the others follow. -/
def Yields (r : Step) (ks : List EventKind) (q : Parser) : Prop :=
  ∃ e p ks', r = .ok (e, p) ∧ ks = e.kind :: ks' ∧ Emits p ks' q

section

variable {p q r : Parser} {ks ks' : List EventKind}

theorem Emits.trans (h : Emits p ks q) (h' : Emits q ks' r) : Emits p (ks ++ ks') r := by
  induction h with
  | refl p => exact h'
  | step hstate hstep _ ih => exact .step hstate hstep (ih h')

theorem Yields.emits (hstate : p.state ≠ .done) (h : Yields p.step ks q) : Emits p ks q := by
  obtain ⟨e, p', ks', hstep, rfl, hemits⟩ := h
  exact .step hstate hstep hemits

theorem Yields.trans {s : Step} (h : Yields s ks q) (h' : Emits q ks' r) :
    Yields s (ks ++ ks') r := by
  obtain ⟨e, p, more, hstep, rfl, hemits⟩ := h
  exact ⟨e, p, more ++ ks', hstep, rfl, hemits.trans h'⟩

theorem yields_one {s : Step} {e : Event} (h : s = .ok (e, q)) : Yields s [e.kind] q :=
  ⟨e, q, [], h, rfl, .refl q⟩

theorem yields_cons {s : Step} {e : Event} (h : s = .ok (e, p)) (hstate : p.state ≠ .done)
    (h' : Yields p.step ks q) : Yields s (e.kind :: ks) q :=
  ⟨e, p, ks, h, rfl, h'.emits hstate⟩

end

/-! ## Tokens in front of the parser -/

theorem exists_token {ts : List Token} {k : TokenKind} {ks : List TokenKind}
    (h : ts.map Token.kind = k :: ks) :
    ∃ a b ts', ts = ⟨k, a, b⟩ :: ts' ∧ ts'.map Token.kind = ks := by
  obtain ⟨⟨k, a, b⟩, ts', rfl, rfl, hts⟩ := List.map_eq_cons_iff.1 h
  exact ⟨a, b, ts', rfl, hts⟩

/-- The tokens that may show that a value is missing. -/
def missing (indentless : Bool) : List TokenKind :=
  if indentless then [.key, .value, .blockEnd] else [.blockEntry, .key, .value, .blockEnd]

theorem kinds_cons (indentless : Bool) (v : Value) :
    ∃ k ks, v.kinds indentless = k :: ks ∧ (missing indentless).contains k = false ∧
      opensDocument k = false := by
  have hscalar : ∀ s style, (missing indentless).contains (.scalar s style) = false := by
    intro s style
    cases indentless <;> rfl
  cases v with
  | null => exact ⟨_, _, rfl, hscalar _ _, rfl⟩
  | text s => exact ⟨_, _, rfl, hscalar _ _, rfl⟩
  | list items =>
      cases items with
      | nil => exact ⟨_, _, rfl, by cases indentless <;> rfl, rfl⟩
      | cons item items => cases indentless <;> exact ⟨_, _, rfl, rfl, rfl⟩
  | map entries =>
      cases entries with
      | nil => exact ⟨_, _, rfl, by cases indentless <;> rfl, rfl⟩
      | cons e entries => exact ⟨_, _, rfl, by cases indentless <;> rfl, rfl⟩

/-- The next token is no dash, so a list without a block of its own ends here. -/
def EndsItems (ts : List Token) : Prop := ∃ t ts', ts = t :: ts' ∧ t.kind ≠ .blockEntry

section

variable {ts rest : List Token} {t : Token} {error : Option Error} {state back : State}
  {states : List State} {m : Mark} {marks : List Mark} {handles : List (String × String)}

/-- In front of the tokens of a value the parser gives the events of the value. -/
def Parses (indentless : Bool) (v : Value) : Prop :=
  ∀ ⦃ts rest error state back states marks handles⦄,
    ts.map Token.kind = v.kinds indentless → (indentless = true → EndsItems rest) →
      Yields (node ⟨ts ++ rest, error, state, back :: states, marks, handles⟩ true indentless)
        v.events ⟨rest, error, back, states, marks, handles⟩

/-- A value behind a dash, a key's mark or a colon. -/
theorem Parses.valueOrEmpty {indentless : Bool} {v : Value} {ends : List TokenKind}
    (hv : Parses indentless v) (hts : ts.map Token.kind = v.kinds indentless)
    (hrest : indentless = true → EndsItems rest) (hends : ends ⊆ missing indentless) (t' : Token) :
    Yields (valueOrEmpty ⟨t :: (ts ++ rest), error, state, states, marks, handles⟩ t' ends back
      indentless) v.events ⟨rest, error, back, states, marks, handles⟩ := by
  have hnode : Yields (node ⟨ts ++ rest, error, state, back :: states, marks, handles⟩ true
    indentless) v.events ⟨rest, error, back, states, marks, handles⟩ := hv hts hrest
  obtain ⟨k, ks, hkinds, hk, -⟩ := kinds_cons indentless v
  obtain ⟨a, b, more, rfl, -⟩ := exists_token (hts.trans hkinds)
  have hpresent : ends.contains k = false := by
    refine Bool.eq_false_iff.2 fun hmem => ?_
    rw [List.contains_iff_mem.2 (hends (List.contains_iff_mem.1 hmem))] at hk
    cases hk
  have hpeek : peek (skip ⟨t :: (⟨k, a, b⟩ :: more ++ rest), error, state, states, marks,
      handles⟩) = .ok ⟨k, a, b⟩ := rfl
  rw [Parser.valueOrEmpty]
  simp only [hpeek, ok_bind, hpresent]
  exact hnode

theorem parses_scalar {indentless : Bool} {v : Value} {s : String} {style : Style}
    (hkinds : v.kinds indentless = [.scalar s style])
    (hevents : v.events = [.scalar .none s style]) : Parses indentless v := by
  intro ts rest error state back states marks handles hts hrest
  obtain ⟨a, b, more, rfl, hmore⟩ := exists_token (hts.trans hkinds)
  obtain rfl : more = [] := List.map_eq_nil_iff.1 hmore
  rw [hevents]
  exact yields_one rfl

/-! ## Lists -/

theorem parses_emptyList (indentless : Bool) : Parses indentless (.list []) := by
  intro ts rest error state back states marks handles hts hrest
  obtain ⟨a, b, more, rfl, hmore⟩ := exists_token hts
  obtain ⟨c, d, none, rfl, hnone⟩ := exists_token hmore
  obtain rfl : none = [] := List.map_eq_nil_iff.1 hnone
  exact yields_cons rfl State.noConfusion (yields_one rfl)

theorem yields_blockSequence {items : List Value} (hitems : ∀ v ∈ items, Parses false v)
    (hts : ts.map Token.kind = Value.itemKinds items) (ht : t.kind = .blockEnd) :
    Yields (blockSequence ⟨ts ++ t :: rest, error, state, back :: states, m :: marks, handles⟩)
      (Value.itemEvents items ++ [.sequenceEnd]) ⟨rest, error, back, states, marks, handles⟩ := by
  induction items generalizing ts state with
  | nil =>
      obtain rfl : ts = [] := List.map_eq_nil_iff.1 hts
      obtain ⟨k, a, b⟩ := t
      obtain rfl : k = .blockEnd := ht
      exact yields_one rfl
  | cons item items ih =>
      obtain ⟨a, b, more, rfl, hmore⟩ := exists_token hts
      obtain ⟨own, others, rfl, hown, hothers⟩ := List.map_eq_append_iff.1 hmore
      have hitem : Yields (valueOrEmpty ⟨⟨.blockEntry, a, b⟩ :: (own ++ (others ++ t :: rest)),
          error, state, back :: states, m :: marks, handles⟩ ⟨.blockEntry, a, b⟩
          [.blockEntry, .blockEnd] .blockSequence false) item.events
          ⟨others ++ t :: rest, error, .blockSequence, back :: states, m :: marks, handles⟩ :=
        (hitems item List.mem_cons_self).valueOrEmpty hown Bool.noConfusion (by simp [missing]) _
      have hmore : Yields (step ⟨others ++ t :: rest, error, .blockSequence, back :: states,
          m :: marks, handles⟩) _ _ :=
        ih (fun v hv => hitems v (List.mem_cons_of_mem item hv)) hothers
      rw [List.cons_append, List.append_assoc, Value.itemEvents, List.append_assoc]
      exact hitem.trans (hmore.emits State.noConfusion)

/-- The items of a list at the column of its key, up to the next key or the end of the block. -/
theorem yields_indentlessSequence {items : List Value} (hitems : ∀ v ∈ items, Parses false v)
    (hts : ts.map Token.kind = Value.itemKinds items) (hrest : EndsItems rest) :
    Yields (indentlessSequence ⟨ts ++ rest, error, state, back :: states, marks, handles⟩)
      (Value.itemEvents items ++ [.sequenceEnd]) ⟨rest, error, back, states, marks, handles⟩ := by
  induction items generalizing ts state with
  | nil =>
      obtain rfl : ts = [] := List.map_eq_nil_iff.1 hts
      obtain ⟨⟨k, a, b⟩, rest, rfl, hk⟩ := hrest
      -- No token ends the list: the one in front stays where it is.
      have hend : indentlessSequence ⟨⟨k, a, b⟩ :: rest, error, state, back :: states, marks,
          handles⟩ = .ok (⟨.sequenceEnd, a⟩, ⟨⟨k, a, b⟩ :: rest, error, back, states, marks,
            handles⟩) := by
        cases k <;> first | rfl | exact absurd rfl hk
      exact yields_one hend
  | cons item items ih =>
      obtain ⟨a, b, more, rfl, hmore⟩ := exists_token hts
      obtain ⟨own, others, rfl, hown, hothers⟩ := List.map_eq_append_iff.1 hmore
      have hitem : Yields (valueOrEmpty ⟨⟨.blockEntry, a, b⟩ :: (own ++ (others ++ rest)), error,
          state, back :: states, marks, handles⟩ ⟨.blockEntry, a, b⟩
          [.blockEntry, .key, .value, .blockEnd] .indentlessSequence false) item.events
          ⟨others ++ rest, error, .indentlessSequence, back :: states, marks, handles⟩ :=
        (hitems item List.mem_cons_self).valueOrEmpty hown Bool.noConfusion (List.Subset.refl _) _
      have hmore : Yields (step ⟨others ++ rest, error, .indentlessSequence, back :: states, marks,
          handles⟩) _ _ := ih (fun v hv => hitems v (List.mem_cons_of_mem item hv)) hothers
      rw [List.cons_append, List.append_assoc, Value.itemEvents, List.append_assoc]
      exact hitem.trans (hmore.emits State.noConfusion)

theorem parses_list {items : List Value} (hitems : ∀ v ∈ items, Parses false v)
    (indentless : Bool) : Parses indentless (.list items) := by
  cases items with
  | nil => exact parses_emptyList indentless
  | cons item items =>
      intro ts rest error state back states marks handles hts hrest
      cases indentless with
      | true =>
          have hstep : Yields (step ⟨ts ++ rest, error, .indentlessSequence, back :: states, marks,
              handles⟩) _ _ := yields_indentlessSequence hitems hts (hrest rfl)
          obtain ⟨a, b, more, rfl, -⟩ := exists_token hts
          exact yields_cons rfl State.noConfusion hstep
      | false =>
          obtain ⟨a, b, more, rfl, hmore⟩ := exists_token hts
          obtain ⟨own, last, rfl, hown, hlast⟩ := List.map_eq_append_iff.1 hmore
          obtain ⟨c, d, none, rfl, hnone⟩ := exists_token hlast
          obtain rfl : none = [] := List.map_eq_nil_iff.1 hnone
          have hstep : Yields (step ⟨⟨.blockSequenceStart, a, b⟩ ::
              (own ++ ⟨.blockEnd, c, d⟩ :: rest), error, .blockSequenceFirst, back :: states, marks,
              handles⟩) _ _ := yields_blockSequence hitems hown rfl
          rw [List.cons_append, List.append_assoc]
          exact yields_cons rfl State.noConfusion hstep

/-! ## Maps -/

theorem parses_emptyMap (indentless : Bool) : Parses indentless (.map []) := by
  intro ts rest error state back states marks handles hts hrest
  obtain ⟨a, b, more, rfl, hmore⟩ := exists_token hts
  obtain ⟨c, d, none, rfl, hnone⟩ := exists_token hmore
  obtain rfl : none = [] := List.map_eq_nil_iff.1 hnone
  exact yields_cons rfl State.noConfusion (yields_one rfl)

theorem yields_blockMappingKey {entries : List (String × Value)}
    (hentries : ∀ e ∈ entries, Parses true e.2)
    (hts : ts.map Token.kind = Value.entryKinds entries) (ht : t.kind = .blockEnd) :
    Yields (blockMappingKey ⟨ts ++ t :: rest, error, state, back :: states, m :: marks, handles⟩)
      (Value.entryEvents entries ++ [.mappingEnd]) ⟨rest, error, back, states, marks, handles⟩ := by
  induction entries generalizing ts state with
  | nil =>
      obtain rfl : ts = [] := List.map_eq_nil_iff.1 hts
      obtain ⟨k, a, b⟩ := t
      obtain rfl : k = .blockEnd := ht
      exact yields_one rfl
  | cons e entries ih =>
      obtain ⟨key, value⟩ := e
      obtain ⟨a, b, scalar, rfl, hscalar⟩ := exists_token hts
      obtain ⟨c, d, colon, rfl, hcolon⟩ := exists_token hscalar
      obtain ⟨x, y, more, rfl, hmore⟩ := exists_token hcolon
      obtain ⟨own, others, rfl, hown, hothers⟩ := List.map_eq_append_iff.1 hmore
      -- Behind the value stands the next key or the end of the block, so a list ends there.
      have hends : EndsItems (others ++ t :: rest) := by
        cases entries with
        | nil =>
            obtain rfl : others = [] := List.map_eq_nil_iff.1 hothers
            refine ⟨t, rest, rfl, ?_⟩
            rw [ht]
            exact TokenKind.noConfusion
        | cons e entries =>
            obtain ⟨a, b, others, rfl, -⟩ := exists_token hothers
            exact ⟨_, _, rfl, TokenKind.noConfusion⟩
      have hvalue : Yields (step ⟨⟨.value, x, y⟩ :: (own ++ (others ++ t :: rest)), error,
          .blockMappingValue, back :: states, m :: marks, handles⟩) value.events
          ⟨others ++ t :: rest, error, .blockMappingKey, back :: states, m :: marks, handles⟩ :=
        (hentries (key, value) List.mem_cons_self).valueOrEmpty hown (fun _ => hends)
          (List.Subset.refl _) _
      have hmore : Yields (step ⟨others ++ t :: rest, error, .blockMappingKey, back :: states,
          m :: marks, handles⟩) _ _ :=
        ih (fun e he => hentries e (List.mem_cons_of_mem _ he)) hothers
      simp only [List.cons_append, List.append_assoc, Value.entryEvents]
      exact yields_cons rfl State.noConfusion (hvalue.trans (hmore.emits State.noConfusion))

theorem parses_map {entries : List (String × Value)} (hentries : ∀ e ∈ entries, Parses true e.2)
    (indentless : Bool) : Parses indentless (.map entries) := by
  cases entries with
  | nil => exact parses_emptyMap indentless
  | cons e entries =>
      intro ts rest error state back states marks handles hts hrest
      obtain ⟨a, b, more, rfl, hmore⟩ := exists_token hts
      obtain ⟨own, last, rfl, hown, hlast⟩ := List.map_eq_append_iff.1 hmore
      obtain ⟨c, d, none, rfl, hnone⟩ := exists_token hlast
      obtain rfl : none = [] := List.map_eq_nil_iff.1 hnone
      have hstep : Yields (step ⟨⟨.blockMappingStart, a, b⟩ :: (own ++ ⟨.blockEnd, c, d⟩ :: rest),
          error, .blockMappingFirst, back :: states, marks, handles⟩) _ _ :=
        yields_blockMappingKey hentries hown rfl
      rw [List.cons_append, List.append_assoc]
      cases indentless <;> exact yields_cons rfl State.noConfusion hstep

/-- Every value is read from its tokens. -/
theorem parses_of_writable {v : Value} (hv : v.Writable) (indentless : Bool) :
    Parses indentless v := by
  induction hv generalizing indentless with
  | null => exact parses_scalar rfl rfl
  | text s => exact parses_scalar rfl rfl
  | list _ ih => exact parses_list (fun v hv => ih v hv false) indentless
  | map _ _ ih => exact parses_map (fun e he => ih e he true) indentless

/-! ## Documents -/

/-- Fuel for as many steps as there are events is enough for the events. -/
theorem Emits.parseFrom_eq {p q : Parser} {ks : List EventKind} (h : Emits p ks q) (n : Nat) :
    ∃ es : List Event, es.map Event.kind = ks ∧ Events.parseFrom (ks.length + n) p =
      ⟨es ++ (Events.parseFrom n q).list, (Events.parseFrom n q).error⟩ := by
  induction h with
  | refl p => exact ⟨[], rfl, by rw [List.length_nil, Nat.zero_add]; rfl⟩
  | @step p q r e ks hstate hstep _ ih =>
      obtain ⟨es, rfl, hparse⟩ := ih
      refine ⟨e :: es, rfl, ?_⟩
      have hfuel : (e.kind :: es.map Event.kind).length + n =
          ((es.map Event.kind).length + n) + 1 := by
        rw [List.length_cons, Nat.add_right_comm]
      rw [hfuel, Events.parseFrom, if_neg hstate, hstep]
      simp only [hparse, List.cons_append]

theorem emits_document {v : Value} (hv : v.Writable) {ts : List Token}
    (hts : ts.map Token.kind = .streamStart :: (v.kinds false ++ [.streamEnd])) :
    ∃ q : Parser, q.state = .done ∧
      Emits (.start ⟨ts, none⟩) (.streamStart :: .documentStart :: (v.events ++
        [.documentEnd, .streamEnd])) q := by
  obtain ⟨a, b, more, rfl, hmore⟩ := exists_token hts
  obtain ⟨own, last, rfl, hown, hlast⟩ := List.map_eq_append_iff.1 hmore
  obtain ⟨c, d, none, rfl, hnone⟩ := exists_token hlast
  obtain rfl : none = [] := List.map_eq_nil_iff.1 hnone
  have hvalue : Yields (step ⟨own ++ [⟨.streamEnd, c, d⟩], .none, .blockNode, [.documentEnd], [],
      defaultHandles⟩) v.events
      ⟨[⟨.streamEnd, c, d⟩], .none, .documentEnd, [], [], defaultHandles⟩ :=
    parses_of_writable hv false hown Bool.noConfusion
  have hend : Emits ⟨[⟨.streamEnd, c, d⟩], .none, .documentEnd, [], [], defaultHandles⟩
      [.documentEnd, .streamEnd] ⟨[], .none, .done, [], [], []⟩ :=
    .step (e := ⟨.documentEnd, c⟩) State.noConfusion rfl
      (.step (e := ⟨.streamEnd, c⟩) State.noConfusion rfl (.refl _))
  obtain ⟨k, ks, hkinds, -, hk⟩ := kinds_cons false v
  obtain ⟨x, y, rest, rfl, -⟩ := exists_token (hown.trans hkinds)
  have hstart : step ⟨⟨k, x, y⟩ :: rest ++ [⟨.streamEnd, c, d⟩], .none, .implicitDocument, [], [],
      []⟩ = .ok (⟨.documentStart, x⟩, ⟨⟨k, x, y⟩ :: rest ++ [⟨.streamEnd, c, d⟩], .none, .blockNode,
        [.documentEnd], [], defaultHandles⟩) := by
    have hpeek : peek ⟨⟨k, x, y⟩ :: rest ++ [⟨.streamEnd, c, d⟩], .none, .implicitDocument, [], [],
      []⟩ = .ok ⟨k, x, y⟩ := rfl
    simp only [step, documentStart, if_true, hpeek, ok_bind, hk, Bool.not_false, Bool.and_self]
    rfl
  exact ⟨_, rfl, .step (e := ⟨.streamStart, a⟩) State.noConfusion rfl
    (.step State.noConfusion hstart ((hvalue.emits State.noConfusion).trans hend))⟩

theorem parseFrom_done {q : Parser} (h : q.state = .done) (n : Nat) :
    Events.parseFrom n q = ⟨[], none⟩ := by
  cases n with
  | zero => rfl
  | succ n => exact if_pos h

end

end Parser

/-! ## How many events there are -/

namespace Value

theorem length_itemEvents {items : List Value}
    (h : ∀ v ∈ items, v.events.length < 2 * (v.kinds false).length) :
    (itemEvents items).length + 3 * items.length ≤ 2 * (itemKinds items).length := by
  induction items with
  | nil => exact Nat.le_refl 0
  | cons item items ih =>
      have hitem := h item List.mem_cons_self
      have hitems := ih fun v hv => h v (List.mem_cons_of_mem item hv)
      simp only [itemEvents, itemKinds, List.length_append, List.length_cons]
      omega

theorem length_entryEvents {entries : List (String × Value)}
    (h : ∀ e ∈ entries, e.2.events.length < 2 * (e.2.kinds true).length) :
    (entryEvents entries).length ≤ 2 * (entryKinds entries).length := by
  induction entries with
  | nil => exact Nat.le_refl 0
  | cons e entries ih =>
      obtain ⟨key, value⟩ := e
      have hvalue := h (key, value) List.mem_cons_self
      have hentries := ih fun e he => h e (List.mem_cons_of_mem _ he)
      simp only [entryEvents, entryKinds, List.length_append, List.length_cons]
      simp only at hvalue
      omega

/-- A list without a block of its own has fewer tokens than events, but not half as many. -/
theorem length_events {v : Value} (hv : v.Writable) (indentless : Bool) :
    v.events.length < 2 * (v.kinds indentless).length := by
  induction hv generalizing indentless with
  | null => exact Nat.lt_succ_self 1
  | text s => exact Nat.lt_succ_self 1
  | @list items _ ih =>
      have hitems := length_itemEvents fun v hv => ih v hv false
      cases items with
      | nil => exact (by decide : 2 < 2 * 2)
      | cons item items =>
          simp only [List.length_cons] at hitems
          cases indentless with
          | true =>
              simp only [events, kinds, if_true, List.length_cons, List.length_append,
                List.length_nil]
              omega
          | false =>
              simp only [events, kinds, Bool.false_eq_true, if_false, List.length_cons,
                List.length_append, List.length_nil]
              omega
  | @map entries _ _ ih =>
      have hentries := length_entryEvents fun e he => ih e he true
      cases entries with
      | nil => exact (by decide : 2 < 2 * 2)
      | cons e entries =>
          simp only [events, kinds, List.length_cons, List.length_append, List.length_nil]
          omega

end Value

open DocStamp.Yaml.Parser in
theorem parse_write {entries : List (String × Value)} (hne : entries ≠ [])
    (hwritable : (Value.map entries).Writable) :
    ∃ es, Events.parse (write entries) = ⟨es, none⟩ ∧
      es.map Event.kind = .streamStart :: .documentStart :: ((Value.map entries).events ++
        [.documentEnd, .streamEnd]) := by
  obtain ⟨ts, hscan, hts⟩ := scan_write hne hwritable
  obtain ⟨q, hq, hemits⟩ := emits_document hwritable hts
  have hcount := Value.length_events hwritable false
  have hlength := congrArg List.length hts
  simp only [List.length_map, List.length_cons, List.length_append, List.length_nil] at hlength
  obtain ⟨n, hn⟩ : ∃ n, 4 * ts.length + 8 = (EventKind.streamStart :: .documentStart ::
      ((Value.map entries).events ++ [.documentEnd, .streamEnd])).length + n := by
    refine Nat.exists_eq_add_of_le ?_
    simp only [List.length_cons, List.length_append, List.length_nil]
    omega
  obtain ⟨es, hes, hparse⟩ := hemits.parseFrom_eq n
  refine ⟨es, ?_, hes⟩
  rw [parseFrom_done hq, List.append_nil] at hparse
  rw [Events.parse, hscan, hn]
  exact hparse

end DocStamp.Yaml
