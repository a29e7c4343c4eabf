/-
# Readers of written values

A reader that takes a value for something reads it from every node that
shows the value, whatever the marks are.  A record is read entry by
entry, and each entry takes it from one state to the next.  In the other
direction, what holds of the parts that readers give holds of the list
or the record that is made of them.
-/
import DocStamp.Proofs.Yaml.Document

namespace DocStamp.Yaml

section

variable {α σ : Type}

/-- The reader takes every node that shows the value for `a`. -/
def Reads (read : Reader α) (v : Value) (a : α) : Prop :=
  ∀ d path n, v.Shown n → read d path n = .ok a

theorem Value.Shown.ne_cut {v : Value} {n : Node} (h : v.Shown n) : n ≠ .cut := by
  rintro rfl
  cases v with
  | null => obtain ⟨m, h⟩ := h; cases h
  | text s => obtain ⟨m, h⟩ := h; cases h
  | list items => obtain ⟨m, ns, h, -⟩ := h; cases h
  | map entries => obtain ⟨m, ns, h, -⟩ := h; cases h

theorem bind_eq_ok {β : Type} {x : Except Error α} {g : α → Except Error β} {b : β}
    (h : (x >>= g) = .ok b) : ∃ a, x = .ok a ∧ g a = .ok b := by
  cases x with
  | error e => cases h
  | ok a => exact ⟨a, rfl, h⟩

theorem located_eq_ok {path : String} {n : Node} {r : Except Error α} {a : α}
    (h : located path n r = .ok a) : r = .ok a := by
  cases r with
  | error e => cases h
  | ok b =>
      cases h
      rfl

theorem refuse_ne_ok (d : Document) (expected : String) (n : Node) (a : α) :
    refuse d expected n ≠ .ok a := by
  intro h
  cases n with
  | scalar m tag style s =>
      obtain ⟨found, -, hthrow⟩ := bind_eq_ok h
      cases hthrow
  | _ => cases h

/-! ## Texts -/

theorem reads_text (expected s : String) : Reads (text expected) (.text s) s := by
  rintro d path n ⟨m, rfl⟩
  rfl

theorem reads_optional_null (read : Reader String) : Reads (optional read) .null none := by
  rintro d path n ⟨m, rfl⟩
  rfl

theorem foundInt?_ne_string {n : Int} {s : String} : foundInt? n ≠ some (.string s) := by
  unfold foundInt?
  split
  · intro h
    cases h
  split <;> intro h <;> cases h

theorem eq_of_resolvePlain {s t : String} (h : resolvePlain s = .string t) : t = s := by
  unfold resolvePlain at h
  -- Nothing, truth values, whole numbers and other numbers are ruled out in turn.
  split at h
  · cases h
  split at h
  · cases h
  split at h
  next found hfound =>
    obtain ⟨n, -, hn⟩ := Option.bind_eq_some_iff.1 hfound
    exact absurd (hn.trans (congrArg some h)) foundInt?_ne_string
  next =>
    generalize (if hasLeadingZero s.toList = true then none else float? s) = r at h
    cases r with
    | some text => cases h
    | none =>
        cases h
        rfl

theorem resolvePlain_of_not_mistakable {s : String} (h : isMistakable s = false) :
    resolvePlain s = .string s := by
  unfold isMistakable at h
  split at h
  next t ht => rw [ht, eq_of_resolvePlain ht]
  next => cases h

/-- A text is never taken for anything else, however it is written. -/
theorem foundScalar_text (s : String) :
    foundScalar none (layoutOf s).style s = .ok (.string s) := by
  cases hlayout : layoutOf s with
  | plain => exact congrArg Except.ok (resolvePlain_of_not_mistakable (plain_of_layoutOf hlayout).1)
  | single => rfl
  | double => rfl
  | literal => rfl

theorem optional_scalar {style : Style} {s : String}
    (h : style = .plain → (s == "" || isNull s) = false) (read : Reader String) (d : Document)
    (path : String) (m : Mark) :
    optional read d path (.scalar m none style s) =
      some <$> read d path (.scalar m none style s) := by
  cases style with
  | plain =>
      show (if s == "" || isNull s then .ok none else some <$> read d path _) = _
      rw [h rfl, if_neg Bool.false_ne_true]
  | singleQuoted | doubleQuoted | literal | folded => rfl

theorem reads_optional_text {read : Reader String} {s : String} (h : Reads read (.text s) s) :
    Reads (optional read) (.text s) (some s) := by
  rintro d path n ⟨m, rfl⟩
  have hplain : (layoutOf s).style = .plain → (s == "" || isNull s) = false := by
    intro hstyle
    have hfound := foundScalar_text s
    rw [hstyle] at hfound
    refine Bool.eq_false_iff.2 fun hnull => ?_
    rw [foundScalar, if_pos rfl, resolvePlain, if_pos hnull] at hfound
    cases hfound
  rw [optional_scalar hplain, h d path _ ⟨m, rfl⟩]
  rfl

/-! ## Lists -/

theorem itemsFrom_cons {n : Node} (hn : n ≠ .cut) (read : Reader α) (d : Document) (path : String)
    (i : Nat) (ns : List Node) :
    itemsFrom read d path i (n :: ns) = (do
      let a ← read d (itemPath path i) n
      return a :: (← itemsFrom read d path (i + 1) ns)) := by
  cases n with
  | cut => exact absurd rfl hn
  | _ => rfl

theorem itemsFrom_map {read : Reader α} {value : α → Value} {as : List α} {ns : List Node}
    (h : ∀ a ∈ as, Reads read (value a) a) (hns : Value.ItemsShown (as.map value) ns)
    (d : Document) (path : String) (i : Nat) : itemsFrom read d path i ns = .ok as := by
  induction as generalizing ns i with
  | nil =>
      obtain rfl : ns = [] := hns
      rfl
  | cons a as ih =>
      obtain ⟨n, ns, rfl, hn, hmore⟩ := hns
      rw [itemsFrom_cons hn.ne_cut, h a List.mem_cons_self d _ n hn, ok_bind,
        ih (fun b hb => h b (List.mem_cons_of_mem a hb)) hmore]
      rfl

theorem reads_list {read : Reader α} {value : α → Value} {as : List α}
    (h : ∀ a ∈ as, Reads read (value a) a) : Reads (list read) (.list (as.map value)) as := by
  rintro d path n ⟨m, ns, rfl, hns⟩
  show located path (.sequence m ns) (itemsFrom read d path 0 ns) = _
  rw [itemsFrom_map h hns]
  rfl

theorem forall_of_itemsFrom {read : Reader α} {Q : α → Prop}
    (hread : ∀ {d path n a}, read d path n = .ok a → Q a) {d : Document} {path : String} {i : Nat}
    {ns : List Node} {as : List α} (h : itemsFrom read d path i ns = .ok as) : ∀ a ∈ as, Q a := by
  induction ns generalizing i as with
  | nil =>
      cases h
      exact List.forall_mem_nil Q
  | cons n ns ih =>
      by_cases hcut : n = .cut
      · subst hcut
        cases h
      · rw [itemsFrom_cons hcut] at h
        obtain ⟨a, ha, h⟩ := bind_eq_ok h
        obtain ⟨rest, hrest, h⟩ := bind_eq_ok h
        cases h
        exact List.forall_mem_cons.2 ⟨hread ha, ih hrest⟩

theorem forall_of_list {read : Reader α} {Q : α → Prop}
    (hread : ∀ {d path n a}, read d path n = .ok a → Q a) {d : Document} {path : String} {n : Node}
    {as : List α} (h : list read d path n = .ok as) : ∀ a ∈ as, Q a := by
  have hlist := located_eq_ok h
  split at hlist
  · cases hlist
    exact List.forall_mem_nil Q
  · split at hlist
    · exact forall_of_itemsFrom hread hlist
    · exact absurd hlist (refuse_ne_ok _ _ _ _)

/-! ## Records -/

namespace Fields

/-- The value of an entry takes the record from one state to another. -/
def Takes (f : Fields σ) (s : σ) (e : String × Value) (s' : σ) : Prop :=
  ∃ read, f.fields.find? (·.1 == e.1) = some (e.1, read) ∧
    ∀ d path n, e.2.Shown n → read s d path n = .ok s'

/-- Entries take the record from one state to another, one after the other. -/
def TakesAll (f : Fields σ) : σ → List (String × Value) → σ → Prop
  | s, [], s' => s = s'
  | s, e :: es, s' => ∃ t, f.Takes s e t ∧ TakesAll f t es s'

variable {f : Fields σ} {s s' : σ} {es : List (String × Value)}

theorem entries_of_takesAll (h : f.TakesAll s es s') {ns : List (Node × Node)}
    (hns : Value.EntriesShown es ns) {seen : List String} (hnodup : (es.map Prod.fst).Nodup)
    (hseen : ∀ k ∈ es.map Prod.fst, k ∉ seen) (d : Document) (path : String) :
    f.entries d path s seen ns = .ok (s', (es.map Prod.fst).reverse ++ seen) := by
  induction es generalizing s seen ns with
  | nil =>
      obtain rfl : ns = [] := hns
      obtain rfl : s = s' := h
      rfl
  | cons e es ih =>
      obtain ⟨key, value⟩ := e
      obtain ⟨k, n, ns, rfl, ⟨m, rfl⟩, hvalue, hmore⟩ := hns
      obtain ⟨t, ⟨read, hfind, hread⟩, htakes⟩ := h
      have hkey : f.key d path (.scalar m none .plain key) = .ok (key, read) := by
        have htext : text "field identifier" d path (.scalar m none .plain key) = .ok key := rfl
        have hfollow : d.follow (.scalar m none .plain key) = .scalar m none .plain key := rfl
        simp only [Fields.key, hfollow, htext, ok_bind, hfind]
        rfl
      have hfresh : seen.contains key = false :=
        Bool.eq_false_iff.2 fun hmem =>
          hseen key List.mem_cons_self (List.contains_iff_mem.1 hmem)
      obtain ⟨hnew, hrest⟩ := List.nodup_cons.1 hnodup
      have hlater : ∀ k ∈ es.map Prod.fst, k ∉ key :: seen := by
        intro k hk hmem
        rcases List.mem_cons.1 hmem with rfl | hmem
        · exact hnew hk
        · exact hseen k (List.mem_cons_of_mem key hk) hmem
      have hvalue := hread d (fieldPath path (keyName? (.scalar m none .plain key))) n hvalue
      simp only [entries, hkey, ok_bind, hfresh, hvalue, ih htakes hmore hrest hlater,
        List.map_cons, List.reverse_cons, List.append_assoc, List.cons_append, List.nil_append]
      rfl

theorem reads_record (s' : σ) (h : f.TakesAll s es s') (hnodup : (es.map Prod.fst).Nodup) {a : α}
    {finish : σ → List String → Except Mistake α}
    (hfinish : finish s' (es.map Prod.fst).reverse = .ok a) :
    Reads (f.record s finish) (.map es) a := by
  rintro d path n ⟨m, ns, rfl, hns⟩
  have hentries : f.entries d path s [] ns = _ :=
    entries_of_takesAll h hns hnodup (fun _ _ => List.not_mem_nil) d path
  have hfollow : d.follow (.mapping m ns) = .mapping m ns := rfl
  have hblank : isBlankScalar (.mapping m ns) = false := rfl
  rw [List.append_nil] at hentries
  simp only [record, hfollow, hblank, hentries, ok_bind, hfinish]
  rfl

theorem mem_of_key {d : Document} {path : String} {n : Node} {field : String × FieldReader σ}
    (h : f.key d path n = .ok field) : field ∈ f.fields := by
  obtain ⟨name, -, h⟩ := bind_eq_ok h
  split at h
  next hfind =>
    cases h
    exact List.mem_of_find?_eq_some hfind
  next => cases h

/-- What every field keeps holds at the end of a record, if it holds at the start. -/
theorem invariant_of_entries {P : σ → Prop}
    (hfields : ∀ field ∈ f.fields, ∀ {s d path n s'}, P s → field.2 s d path n = .ok s' → P s')
    {d : Document} {path : String} {seen seen' : List String} {ns : List (Node × Node)} (hs : P s)
    (h : f.entries d path s seen ns = .ok (s', seen')) : P s' := by
  induction ns generalizing s seen with
  | nil =>
      cases h
      exact hs
  | cons e ns ih =>
      obtain ⟨key, value⟩ := e
      obtain ⟨⟨name, read⟩, hkey, h⟩ := bind_eq_ok h
      simp only at h
      split at h
      · cases h
      · obtain ⟨-, -, h⟩ := bind_eq_ok h
        obtain ⟨t, ht, h⟩ := bind_eq_ok h
        exact ih (hfields _ (mem_of_key hkey) hs ht) h

theorem invariant_of_record {P : σ → Prop} {finish : σ → List String → Except Mistake α}
    (hfields : ∀ field ∈ f.fields, ∀ {s d path n s'}, P s → field.2 s d path n = .ok s' → P s')
    {d : Document} {path : String} {n : Node} {a : α} (hs : P s)
    (h : f.record s finish d path n = .ok a) : ∃ s' seen, P s' ∧ finish s' seen = .ok a := by
  have hrecord := located_eq_ok h
  split at hrecord
  · refine ⟨s, [], hs, ?_⟩
    simp only [pure_bind] at hrecord
    split at hrecord
    next hok =>
      cases hrecord
      exact hok
    next => cases hrecord
  · split at hrecord
    · obtain ⟨⟨s', seen⟩, hentries, hfinish⟩ := bind_eq_ok hrecord
      refine ⟨s', seen, invariant_of_entries hfields hs hentries, ?_⟩
      simp only at hfinish
      split at hfinish
      next hok =>
        cases hfinish
        exact hok
      next => cases hfinish
    · obtain ⟨r, hr, -⟩ := bind_eq_ok hrecord
      exact absurd hr (refuse_ne_ok _ _ _ _)

end Fields

theorem ok_of_decode {blank : Except Error α} {read : Reader α} {source : String} {a : α}
    (h : decode blank read source = .ok a) :
    blank = .ok a ∨ ∃ d n, read d rootPath n = .ok a := by
  simp only [decode] at h
  generalize Document.build (Events.parse source).error .empty (Events.parse source).list = r at h
  split at h
  · obtain ⟨b, hb, h⟩ := bind_eq_ok h
    split at h
    · cases h
    · split at h
      · cases h
      · cases h
        exact .inr ⟨_, _, hb⟩
  · obtain ⟨b, hb, h⟩ := bind_eq_ok h
    split at h
    · cases h
    · split at h
      · cases h
      · cases h
        exact .inl hb

end

end DocStamp.Yaml
