/-
# What readers give

`Gives read depth P` says that every value a reader gives has a
property.  Readers that are put together from readers give what these
give, and a reader that opens a list or an object has levels left for
it.

A record is taken in field by field (`Took`), in whatever order they
come.  What every field keeps, the record keeps, and a field that has to
be there was taken in at some time.
-/
import DocStamp.Proofs.Json.RoundTrip

namespace DocStamp.Json

variable {α β σ : Type} {read : Reader α} {depth : Nat} {P : α → Prop}

/-- Every value that the reader gives has the property. -/
def Gives (read : Reader α) (depth : Nat) (P : α → Prop) : Prop :=
  ∀ cs a rest, read depth cs = .ok (a, rest) → P a

theorem ok_of_bind {ε : Type} {x : Except ε α} {f : α → Except ε β} {b : β}
    (h : x >>= f = .ok b) : ∃ a, x = .ok a ∧ f a = .ok b := by
  cases x with
  | error e => cases h
  | ok a => exact ⟨a, rfl, h⟩

theorem refuse_ne_ok {expected : String} {cs : List Char} {a : α} :
    refuse expected cs ≠ .ok a := by
  intro h
  obtain ⟨found, -, h⟩ := ok_of_bind h
  cases h

theorem descend_ok {d : Nat} (h : descend depth = .ok d) : 2 ≤ depth ∧ d = depth - 1 := by
  unfold descend at h
  split at h
  · cases h
  · cases h
    exact ⟨by omega, rfl⟩

theorem Gives.mono {Q : α → Prop} (h : Gives read depth P) (hPQ : ∀ a, P a → Q a) :
    Gives read depth Q :=
  fun _ _ _ hread => hPQ _ (h _ _ _ hread)

theorem Gives.map {Q : β → Prop} {f : α → β} (h : Gives read depth fun a => Q (f a)) :
    Gives (fun depth cs => do
      let (a, rest) ← read depth cs
      return (f a, rest)) depth Q := by
  intro cs b rest hread
  obtain ⟨⟨a, rest'⟩, ha, hb⟩ := ok_of_bind hread
  cases hb
  exact h _ _ _ ha

theorem Gives.field {name : String} {required : Bool} {set : σ → α → σ} {s : σ} {Q : σ → Prop}
    (h : Gives read depth fun a => Q (set s a)) :
    Gives ((Field.of name required read set).read s) depth Q :=
  Gives.map (f := set s) h

theorem Gives.carrying {name : String} {make : α → β} {Q : β → Prop}
    (h : Gives read depth fun a => Q (make a)) :
    Gives (Variant.carrying name read make).read depth Q :=
  Gives.map (f := make) h

theorem Gives.of_parse (h : Gives read levels P) {source : String} {a : α}
    (hparse : parse read source = .ok a) : P a := by
  obtain ⟨⟨b, rest⟩, hb, hrest⟩ := ok_of_bind hparse
  dsimp only at hrest
  split at hrest
  · cases hrest
    exact h _ _ _ hb
  · cases hrest

/-! ## Numbers, optional values and lists -/

theorem nat32_lt {x : Number} {n : Nat} (h : nat32 x = .ok n) : n < 0x100000000 := by
  unfold nat32 at h
  split at h
  · split at h
    · cases h
      omega
    · cases h
  · cases h

theorem gives_natural : Gives natural depth (· < 0x100000000) := by
  intro cs n rest hread
  simp only [natural] at hread
  split at hread
  · obtain ⟨⟨x, cs'⟩, -, h⟩ := ok_of_bind hread
    obtain ⟨n', hn, h⟩ := ok_of_bind h
    cases h
    exact nat32_lt hn
  · split at hread
    · obtain ⟨⟨x, cs'⟩, -, h⟩ := ok_of_bind hread
      obtain ⟨n', hn, h⟩ := ok_of_bind h
      cases h
      exact nat32_lt hn
    · exact absurd hread refuse_ne_ok

theorem Gives.optional (h : Gives read depth P) :
    Gives (Json.optional read) depth fun o => ∀ a ∈ o, P a := by
  intro cs o rest hread
  simp only [Json.optional] at hread
  split at hread
  · obtain ⟨cs', -, h⟩ := ok_of_bind hread
    cases h
    simp
  · obtain ⟨⟨a, cs'⟩, ha, h'⟩ := ok_of_bind hread
    cases h'
    intro b hb
    cases hb
    exact h _ _ _ ha

theorem elements_gives (h : Gives read depth P) {n : Nat} {first : Bool} {cs : List Char}
    {as : List α} {rest : List Char} (hread : elements read depth n first cs = .ok (as, rest)) :
    ∀ a ∈ as, P a := by
  induction n generalizing first cs as rest with
  | zero => cases hread
  | succ n ih =>
      obtain ⟨⟨another, cs₁⟩, -, hread⟩ := ok_of_bind hread
      dsimp only at hread
      split at hread
      · obtain ⟨⟨a, cs₂⟩, ha, hread⟩ := ok_of_bind hread
        obtain ⟨⟨more, cs₃⟩, hmore, hread⟩ := ok_of_bind hread
        cases hread
        intro b hb
        rcases List.mem_cons.1 hb with rfl | hb
        · exact h _ _ _ ha
        · exact ih hmore b hb
      · cases hread
        exact List.forall_mem_nil _

theorem Gives.list (h : Gives read (depth - 1) P) :
    Gives (Json.list read) depth fun as => 2 ≤ depth ∧ ∀ a ∈ as, P a := by
  intro cs as rest hread
  simp only [Json.list] at hread
  split at hread
  · obtain ⟨d, hd, hread⟩ := ok_of_bind hread
    obtain ⟨hdepth, rfl⟩ := descend_ok hd
    obtain ⟨⟨as', cs'⟩, has, hread⟩ := ok_of_bind hread
    obtain ⟨cs'', -, hread⟩ := ok_of_bind hread
    cases hread
    exact ⟨hdepth, elements_gives h has⟩
  · exact absurd hread refuse_ne_ok

/-! ## Records -/

/-- Fields that were read one after the other, each from some text. -/
inductive Took (depth : Nat) : List (Field σ) → σ → σ → Prop where
  | nil (s : σ) : Took depth [] s s
  | cons {f : Field σ} {fs : List (Field σ)} {s s' s'' : σ} {cs rest : List Char}
      (head : f.read s depth cs = .ok (s', rest)) (tail : Took depth fs s' s'') :
      Took depth (f :: fs) s s''

theorem Took.invariant {fs : List (Field σ)} {s s' : σ} (h : Took depth fs s s') {P : σ → Prop}
    (hstep : ∀ f ∈ fs, ∀ s, P s → Gives (f.read s) depth P) (hs : P s) : P s' := by
  induction h with
  | nil => exact hs
  | cons head tail ih =>
      exact ih (fun f hf => hstep f (List.mem_cons_of_mem _ hf))
        (hstep _ List.mem_cons_self _ hs _ _ _ head)

theorem Took.exists_read {fs : List (Field σ)} {s s' : σ} (h : Took depth fs s s') {f : Field σ}
    (hf : f ∈ fs) : ∃ t cs out, f.read t depth cs = .ok out := by
  induction h with
  | nil => cases hf
  | cons head tail ih =>
      rcases List.mem_cons.1 hf with rfl | hf
      · exact ⟨_, _, _, head⟩
      · exact ih hf

theorem took_inOrder {counted : String} {fs : List (Field σ)} {i : Nat} {first : Bool} {s s' : σ}
    {cs rest : List Char}
    (h : inOrder counted false depth i fs first s cs = .ok (s', rest)) : Took depth fs s s' := by
  induction fs generalizing i first s cs with
  | nil =>
      cases h
      exact .nil _
  | cons f fs ih =>
      obtain ⟨⟨another, cs₁⟩, -, h⟩ := ok_of_bind h
      dsimp only at h
      split at h
      · obtain ⟨⟨s₁, cs₂⟩, hf, h⟩ := ok_of_bind h
        exact .cons hf (ih h)
      · cases h

theorem took_tuple {expected : String} {fs : List (Field σ)} {start s : σ} {cs rest : List Char}
    (h : tuple expected fs start depth cs = .ok (s, rest)) :
    2 ≤ depth ∧ Took (depth - 1) fs start s := by
  simp only [tuple] at h
  split at h
  · obtain ⟨d, hd, h⟩ := ok_of_bind h
    obtain ⟨hdepth, rfl⟩ := descend_ok hd
    obtain ⟨⟨s', cs'⟩, hs, h⟩ := ok_of_bind h
    obtain ⟨cs'', -, h⟩ := ok_of_bind h
    cases h
    exact ⟨hdepth, took_inOrder hs⟩
  · exact absurd h refuse_ne_ok

theorem Record.took_byName {r : Record σ} {n : Nat} {first : Bool} {seen seen' : List String}
    {s s' : σ} {cs rest : List Char}
    (h : r.byName depth n first seen s cs = .ok ((s', seen'), rest)) :
    ∃ fs, Took depth fs s s' ∧ (∀ f ∈ fs, f ∈ r.fields) ∧
      ∀ name ∈ seen', name ∈ seen ∨ ∃ f ∈ fs, f.name = name := by
  induction n generalizing first seen s cs with
  | zero => cases h
  | succ n ih =>
      obtain ⟨⟨another, cs₁⟩, -, h⟩ := ok_of_bind h
      dsimp only at h
      split at h
      · obtain ⟨⟨name, cs₂⟩, -, h⟩ := ok_of_bind h
        dsimp only at h
        split at h
        · rename_i f hf
          split at h
          · cases h
          · obtain ⟨cs₃, -, h⟩ := ok_of_bind h
            obtain ⟨⟨s₁, cs₄⟩, hread, h⟩ := ok_of_bind h
            obtain ⟨fs, htook, hfs, hnames⟩ := ih h
            have hname : f.name = name := by simpa using List.find?_some hf
            refine ⟨f :: fs, .cons hread htook, ?_, fun other hother => ?_⟩
            · exact List.forall_mem_cons.2 ⟨List.mem_of_find?_eq_some hf, hfs⟩
            · rcases hnames other hother with hmem | ⟨g, hg, e⟩
              · rcases List.mem_cons.1 hmem with rfl | hmem
                · exact .inr ⟨f, List.mem_cons_self, hname⟩
                · exact .inl hmem
              · exact .inr ⟨g, List.mem_cons_of_mem _ hg, e⟩
        · split at h
          · cases h
          · obtain ⟨cs₃, -, h⟩ := ok_of_bind h
            obtain ⟨cs₄, -, h⟩ := ok_of_bind h
            exact ih h
      · cases h
        exact ⟨[], .nil _, List.forall_mem_nil _, fun name hname => .inl hname⟩

/-- A record takes in fields of its own, and among them all that have to be there. -/
theorem Record.took_read {r : Record σ} (hshort : r.short = false) (hnodup : r.names.Nodup)
    {start s : σ} {cs rest : List Char} (h : r.read start depth cs = .ok (s, rest)) :
    2 ≤ depth ∧ ∃ fs, Took (depth - 1) fs start s ∧ (∀ f ∈ fs, f ∈ r.fields) ∧
      ∀ f ∈ r.fields, f.required = true → f ∈ fs := by
  simp only [Record.read] at h
  split at h
  · obtain ⟨d, hd, h⟩ := ok_of_bind h
    obtain ⟨hdepth, rfl⟩ := descend_ok hd
    obtain ⟨⟨s', cs'⟩, hs, h⟩ := ok_of_bind h
    obtain ⟨cs'', -, h⟩ := ok_of_bind h
    cases h
    rw [hshort] at hs
    exact ⟨hdepth, r.fields, took_inOrder hs, fun _ hf => hf, fun _ hf _ => hf⟩
  · obtain ⟨d, hd, h⟩ := ok_of_bind h
    obtain ⟨hdepth, rfl⟩ := descend_ok hd
    obtain ⟨⟨⟨s', seen⟩, cs'⟩, hs, h⟩ := ok_of_bind h
    obtain ⟨fs, htook, hfs, hnames⟩ := Record.took_byName hs
    dsimp only at h
    split at h
    · cases h
    · rename_i hall
      obtain ⟨cs'', -, h⟩ := ok_of_bind h
      cases h
      refine ⟨hdepth, fs, htook, hfs, fun f hf hrequired => ?_⟩
      have hseen : f.name ∈ seen := by
        simpa [hrequired] using List.find?_eq_none.1 hall f hf
      rcases hnames _ hseen with hmem | ⟨g, hg, e⟩
      · cases hmem
      · -- Two fields of one name are the same.
        have hfind := Record.find?_name hnodup (hfs g hg)
        rw [e, Record.find?_name hnodup hf] at hfind
        cases hfind
        exact hg
  · exact absurd h refuse_ne_ok

/-! ## Alternatives -/

theorem Variant.gives_readOne {variants : List (Variant α)}
    (hbare : ∀ v ∈ variants, ∀ a ∈ v.bare, P a)
    (hread : 2 ≤ depth → ∀ v ∈ variants, Gives v.read (depth - 1) P) :
    Gives (readOne variants) depth P := by
  intro cs a rest h
  have hname : ∀ {cs v rest}, readName variants cs = .ok (v, rest) → v ∈ variants := by
    intro cs v rest h
    obtain ⟨⟨name, cs'⟩, -, h⟩ := ok_of_bind h
    dsimp only at h
    split at h
    · rename_i hfind
      cases h
      exact List.mem_of_find?_eq_some hfind
    · cases h
  simp only [readOne] at h
  split at h
  · obtain ⟨d, hd, h⟩ := ok_of_bind h
    obtain ⟨hdepth, rfl⟩ := descend_ok hd
    obtain ⟨⟨v, cs₁⟩, hv, h⟩ := ok_of_bind h
    obtain ⟨cs₂, -, h⟩ := ok_of_bind h
    obtain ⟨⟨b, cs₃⟩, hb, h⟩ := ok_of_bind h
    dsimp only at h
    split at h
    · cases h
      exact hread hdepth v (hname hv) _ _ _ hb
    · cases h
    · cases h
  · obtain ⟨⟨v, cs₁⟩, hv, h⟩ := ok_of_bind h
    dsimp only at h
    split at h
    · rename_i hsome
      cases h
      exact hbare v (hname hv) _ hsome
    · cases h
  · cases h
  · cases h

end DocStamp.Json
