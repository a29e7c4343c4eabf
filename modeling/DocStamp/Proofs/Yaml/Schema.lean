/-
# Records are read field by field

A schema puts a record together from slots.  A slot takes one field,
gives it back, and leaves the other slots alone; with that, the entries
of a mapping decide about the record one by one, and their order plays
no part.
-/
import DocStamp.Proofs.Yaml.Meaning
import Mathlib.Data.List.Nodup

namespace DocStamp.Yaml

/-! ## Slots -/

/-- A field of a record: how it is read, taken and given back, and what its value means. -/
structure Slot (σ : Type) where
  name : String
  Value : Type
  read : Reader Value
  set : σ → Value → σ
  get : σ → Value
  Means : Node → Value → Prop
  decides : Decides read Means
  get_set : ∀ s a, get (set s a) = a

/-- The slot as a field that a record is read by. -/
def Slot.field {σ : Type} (c : Slot σ) : String × FieldReader σ :=
  (c.name, fun s d path n => c.set s <$> c.read d path n)

/-- A record that is made of slots. -/
structure Schema (σ : Type) where
  slots : List (Slot σ)
  /-- What the slots hold that no entry names. -/
  start : σ
  /-- The fields that may not be absent. -/
  required : List String
  nodup : (slots.map Slot.name).Nodup
  apart : ∀ c ∈ slots, ∀ c' ∈ slots, c.name ≠ c'.name → ∀ s a, c.get (c'.set s a) = c.get s
  ext : ∀ s s', (∀ c ∈ slots, c.get s = c.get s') → s = s'

namespace Schema

variable {σ : Type}

def keys (es : List (Node × Node)) : List (Option String) :=
  es.map fun e => Fields.keyName? e.1

/-- The entries can be read: no field comes twice, each key names a field and its value means
something there, and no required field is absent. -/
structure Fits (S : Schema σ) (es : List (Node × Node)) : Prop where
  distinct : (keys es).Nodup
  fit : ∀ e ∈ es, ∃ c ∈ S.slots, Fields.keyName? e.1 = some c.name ∧ ∃ a, c.Means e.2 a
  complete : ∀ k ∈ S.required, some k ∈ keys es

/-- The entries say what is in the record: each field that is there holds what its own value
means, and each other one what it holds at the start. -/
structure Describes (S : Schema σ) (es : List (Node × Node)) (s : σ) : Prop where
  distinct : (keys es).Nodup
  present : ∀ e ∈ es, ∃ c ∈ S.slots, Fields.keyName? e.1 = some c.name ∧ c.Means e.2 (c.get s)
  absent : ∀ c ∈ S.slots, some c.name ∉ keys es → c.get s = c.get S.start
  complete : ∀ k ∈ S.required, some k ∈ keys es

/-- What a record means that is put together so. -/
def Means (S : Schema σ) (n : Node) (s : σ) : Prop := ∃ es, n.HasEntries es ∧ S.Describes es s

variable {S : Schema σ} {f : Fields σ} {es : List (Node × Node)}

theorem eq_of_name {c c' : Slot σ} (hc : c ∈ S.slots) (hc' : c' ∈ S.slots)
    (h : c.name = c'.name) : c = c' :=
  List.inj_on_of_nodup_map S.nodup hc hc' h

theorem slot_of_find? (hf : f.fields = S.slots.map Slot.field) {name : String}
    {field : String × FieldReader σ} (h : f.fields.find? (·.1 == name) = some field) :
    ∃ c ∈ S.slots, c.name = name ∧ field = c.field := by
  have hname := List.find?_some h
  have hmem := List.mem_of_find?_eq_some h
  simp only [beq_iff_eq] at hname
  rw [hf] at hmem
  obtain ⟨c, hc, rfl⟩ := List.mem_map.1 hmem
  exact ⟨c, hc, hname, rfl⟩

theorem find?_field (hf : f.fields = S.slots.map Slot.field) {c : Slot σ} (hc : c ∈ S.slots) :
    f.fields.find? (·.1 == c.name) = some c.field := by
  cases hfind : f.fields.find? (·.1 == c.name) with
  | none =>
      have hmem : c.field ∈ f.fields := hf ▸ List.mem_map_of_mem hc
      exact absurd (beq_self_eq_true c.name) (List.find?_eq_none.1 hfind _ hmem)
  | some field =>
      obtain ⟨c', hc', hname, rfl⟩ := slot_of_find? hf hfind
      rw [eq_of_name hc' hc hname]

/-! ## One entry -/

theorem key_eq_ok_iff (hf : f.fields = S.slots.map Slot.field) {key : Node} (hkey : key.Direct)
    (d : Document) (path : String) (field : String × FieldReader σ) :
    f.key d path key = .ok field ↔
      ∃ c ∈ S.slots, Fields.keyName? key = some c.name ∧ field = c.field := by
  rw [Fields.key, hkey.follow_eq]
  constructor
  · intro h
    obtain ⟨name, hname, h⟩ := bind_eq_ok h
    obtain ⟨m, tag, style, rfl⟩ := (decides_text _ _ _ _ _ hkey).1 hname
    split at h
    next found hfind =>
      cases h
      obtain ⟨c, hc, rfl, rfl⟩ := slot_of_find? hf hfind
      exact ⟨c, hc, rfl, rfl⟩
    next => cases h
  · rintro ⟨c, hc, hname, rfl⟩
    cases hkey with
    | scalar m tag style s =>
        obtain rfl : s = c.name := Option.some.inj hname
        have htext : text "field identifier" d path (.scalar m tag style c.name) = .ok c.name := rfl
        rw [htext, ok_bind, find?_field hf hc]
        rfl
    | sequence m _ => cases hname
    | mapping m _ _ => cases hname

theorem field_eq_ok_iff (c : Slot σ) {n : Node} (hn : n.Direct) (s s' : σ) (d : Document)
    (path : String) : c.field.2 s d path n = .ok s' ↔ ∃ a, c.Means n a ∧ s' = c.set s a := by
  have hmap : c.field.2 s d path n = .ok s' ↔ ∃ a, c.read d path n = .ok a ∧ s' = c.set s a :=
    map_eq_ok_iff
  rw [hmap]
  exact exists_congr fun a => and_congr_left' (c.decides d path n a hn)

/-- What the first entry does: it names a field that was not there yet, and sets it. -/
theorem entries_cons_eq_ok_iff (hf : f.fields = S.slots.map Slot.field) {key value : Node}
    (hkey : key.Direct) (hvalue : value.Direct) (d : Document) (path : String) (s : σ)
    (seen : List String) (r : σ × List String) :
    f.entries d path s seen ((key, value) :: es) = .ok r ↔
      ∃ c ∈ S.slots, Fields.keyName? key = some c.name ∧ c.name ∉ seen ∧
        ∃ a, c.Means value a ∧ f.entries d path (c.set s a) (c.name :: seen) es = .ok r := by
  rw [Fields.entries]
  constructor
  · intro h
    obtain ⟨field, hfield, h⟩ := bind_eq_ok h
    obtain ⟨c, hc, hname, rfl⟩ := (key_eq_ok_iff hf hkey d path field).1 hfield
    cases hseen : seen.contains c.name with
    | true =>
        simp only [Slot.field, hseen] at h
        cases h
    | false =>
        simp only [Slot.field, hseen] at h
        obtain ⟨t, ht, h⟩ := bind_eq_ok h
        obtain ⟨a, ha, rfl⟩ := (field_eq_ok_iff c hvalue s t d _).1 ht
        have hfresh : c.name ∉ seen := by
          intro hmem
          rw [List.contains_iff_mem.2 hmem] at hseen
          cases hseen
        exact ⟨c, hc, hname, hfresh, a, ha, h⟩
  · rintro ⟨c, hc, hname, hseen, a, ha, h⟩
    have hfresh : seen.contains c.name = false :=
      Bool.eq_false_iff.2 fun hmem => hseen (List.contains_iff_mem.1 hmem)
    have hset : c.set s <$> c.read d (fieldPath path (Fields.keyName? key)) value =
        .ok (c.set s a) := (field_eq_ok_iff c hvalue s _ d _).2 ⟨a, ha, rfl⟩
    rw [(key_eq_ok_iff hf hkey d path c.field).2 ⟨c, hc, hname, rfl⟩, ok_bind]
    simp only [Slot.field, hfresh, hset, ok_bind]
    exact h

/-! ## All entries -/

theorem keys_cons (e : Node × Node) (es : List (Node × Node)) :
    keys (e :: es) = Fields.keyName? e.1 :: keys es := rfl

theorem mem_keys {k : Option String} : k ∈ keys es ↔ ∃ e ∈ es, Fields.keyName? e.1 = k :=
  List.mem_map

/-- The entries are taken from any state on if no field among them comes twice or was there
before, and each value means something to its field. -/
theorem exists_entries_iff (hf : f.fields = S.slots.map Slot.field)
    (hkeys : ∀ e ∈ es, e.1.Direct) (hvalues : ∀ e ∈ es, e.2.Direct) (d : Document) (path : String)
    (s : σ) (seen : List String) :
    (∃ r, f.entries d path s seen es = .ok r) ↔
      (keys es).Nodup ∧ ∀ e ∈ es, ∃ c ∈ S.slots, Fields.keyName? e.1 = some c.name ∧
        c.name ∉ seen ∧ ∃ a, c.Means e.2 a := by
  induction es generalizing s seen with
  | nil => exact ⟨fun _ => ⟨List.nodup_nil, List.forall_mem_nil _⟩, fun _ => ⟨_, rfl⟩⟩
  | cons e es ih =>
      obtain ⟨hkey, hkeys⟩ := List.forall_mem_cons.1 hkeys
      obtain ⟨hvalue, hvalues⟩ := List.forall_mem_cons.1 hvalues
      rw [keys_cons, List.nodup_cons, List.forall_mem_cons]
      constructor
      · rintro ⟨r, h⟩
        obtain ⟨c, hc, hname, hseen, a, ha, h⟩ :=
          (entries_cons_eq_ok_iff hf hkey hvalue d path s seen r).1 h
        obtain ⟨hnodup, hrest⟩ := (ih hkeys hvalues (c.set s a) (c.name :: seen)).1 ⟨r, h⟩
        refine ⟨⟨?_, hnodup⟩, ⟨c, hc, hname, hseen, a, ha⟩, fun e' he' => ?_⟩
        · intro hmem
          obtain ⟨e', he', hsame⟩ := mem_keys.1 hmem
          obtain ⟨c', -, hname', hfresh, -⟩ := hrest e' he'
          have heq : c'.name = c.name :=
            Option.some.inj (hname'.symm.trans (hsame.trans hname))
          exact hfresh (heq ▸ List.mem_cons_self)
        · obtain ⟨c', hc', hname', hfresh, hmeans⟩ := hrest e' he'
          exact ⟨c', hc', hname', fun hmem => hfresh (List.mem_cons_of_mem _ hmem), hmeans⟩
      · rintro ⟨⟨hnew, hnodup⟩, ⟨c, hc, hname, hseen, a, ha⟩, hrest⟩
        have hlater : ∀ e' ∈ es, ∃ c' ∈ S.slots, Fields.keyName? e'.1 = some c'.name ∧
            c'.name ∉ c.name :: seen ∧ ∃ a, c'.Means e'.2 a := by
          intro e' he'
          obtain ⟨c', hc', hname', hfresh, hmeans⟩ := hrest e' he'
          refine ⟨c', hc', hname', fun hmem => ?_, hmeans⟩
          rcases List.mem_cons.1 hmem with heq | hmem
          · exact hnew (mem_keys.2 ⟨e', he', by rw [hname', heq, hname]⟩)
          · exact hfresh hmem
        obtain ⟨r, h⟩ := (ih hkeys hvalues (c.set s a) (c.name :: seen)).2 ⟨hnodup, hlater⟩
        exact ⟨r, (entries_cons_eq_ok_iff hf hkey hvalue d path s seen r).2
          ⟨c, hc, hname, hseen, a, ha, h⟩⟩

/-- What the entries leave behind: each field that they name holds what its value means, the
others are as before, and the names are noted. -/
theorem entries_leave (hf : f.fields = S.slots.map Slot.field) (hkeys : ∀ e ∈ es, e.1.Direct)
    (hvalues : ∀ e ∈ es, e.2.Direct) {d : Document} {path : String} {s s' : σ}
    {seen seen' : List String} (h : f.entries d path s seen es = .ok (s', seen')) :
    (∀ e ∈ es, ∃ c ∈ S.slots, Fields.keyName? e.1 = some c.name ∧ c.Means e.2 (c.get s')) ∧
      (∀ c ∈ S.slots, some c.name ∉ keys es → c.get s' = c.get s) ∧
      ∀ k, k ∈ seen' ↔ some k ∈ keys es ∨ k ∈ seen := by
  have hfits := (exists_entries_iff hf hkeys hvalues d path s seen).1 ⟨_, h⟩
  induction es generalizing s seen with
  | nil =>
      cases h
      refine ⟨List.forall_mem_nil _, fun _ _ _ => rfl, fun k => ?_⟩
      simp [keys]
  | cons e es ih =>
      obtain ⟨hkey, hkeys⟩ := List.forall_mem_cons.1 hkeys
      obtain ⟨hvalue, hvalues⟩ := List.forall_mem_cons.1 hvalues
      obtain ⟨c, hc, hname, -, a, ha, h⟩ :=
        (entries_cons_eq_ok_iff hf hkey hvalue d path s seen _).1 h
      have hlater := (exists_entries_iff hf hkeys hvalues d path _ _).1 ⟨_, h⟩
      obtain ⟨hpresent, habsent, hseen⟩ := ih hkeys hvalues h hlater
      have hnew : some c.name ∉ keys es := hname ▸ (List.nodup_cons.1 hfits.1).1
      -- No later entry names this field, so it still holds what it was set to.
      have hheld : c.get s' = a := (habsent c hc hnew).trans (c.get_set s a)
      refine ⟨List.forall_mem_cons.2 ⟨⟨c, hc, hname, hheld ▸ ha⟩, hpresent⟩, ?_, fun k => ?_⟩
      · intro c' hc' hc'keys
        rw [keys_cons, List.mem_cons, hname, not_or] at hc'keys
        have hne : c'.name ≠ c.name := fun heq => hc'keys.1 (congrArg some heq)
        exact (habsent c' hc' hc'keys.2).trans (S.apart c' hc' c hc hne s a)
      · rw [hseen k, keys_cons, List.mem_cons, List.mem_cons, hname, Option.some.injEq]
        tauto

/-! ## The record -/

theorem means_unique (c : Slot σ) {n : Node} (hn : n.Direct) {a b : c.Value} (ha : c.Means n a)
    (hb : c.Means n b) : a = b := by
  have hread := (c.decides ⟨none, [], none⟩ rootPath n a hn).2 ha
  exact Except.ok.inj (hread.symm.trans ((c.decides _ _ n b hn).2 hb))

theorem Describes.fits {s : σ} (h : S.Describes es s) : S.Fits es where
  distinct := h.distinct
  fit e he := by
    obtain ⟨c, hc, hname, hmeans⟩ := h.present e he
    exact ⟨c, hc, hname, _, hmeans⟩
  complete := h.complete

theorem Describes.means {s : σ} (h : S.Describes es s) {e : Node × Node} (he : e ∈ es)
    {c : Slot σ} (hc : c ∈ S.slots) (hname : Fields.keyName? e.1 = some c.name) :
    c.Means e.2 (c.get s) := by
  obtain ⟨c', hc', hname', hmeans⟩ := h.present e he
  obtain rfl : c' = c := eq_of_name hc' hc (Option.some.inj (hname'.symm.trans hname))
  exact hmeans

theorem Describes.unique (hvalues : ∀ e ∈ es, e.2.Direct) {s s' : σ} (h : S.Describes es s)
    (h' : S.Describes es s') : s = s' := by
  refine S.ext s s' fun c hc => ?_
  by_cases hkey : some c.name ∈ keys es
  · obtain ⟨e, he, hname⟩ := mem_keys.1 hkey
    exact means_unique c (hvalues e he) (h.means he hc hname) (h'.means he hc hname)
  · rw [h.absent c hc hkey, h'.absent c hc hkey]

theorem Describes.perm {es' : List (Node × Node)} (hperm : es.Perm es') {s : σ}
    (h : S.Describes es s) : S.Describes es' s := by
  have hkeys : (keys es).Perm (keys es') := hperm.map _
  exact {
    distinct := hkeys.nodup_iff.1 h.distinct
    present := fun e he => h.present e (hperm.mem_iff.2 he)
    absent := fun c hc hnot => h.absent c hc fun hmem => hnot (hkeys.mem_iff.1 hmem)
    complete := fun k hk => hkeys.mem_iff.1 (h.complete k hk) }

theorem record_eq_ok_iff {α : Type} {start : σ} {finish : σ → List String → Except Mistake α}
    {d : Document} {path : String} {n : Node} (hn : n.Direct) {a : α} :
    f.record start finish d path n = .ok a ↔
      ∃ es, n.HasEntries es ∧
        ∃ r, f.entries d path start [] es = .ok r ∧ finish r.1 r.2 = .ok a := by
  rw [Fields.record, hn.follow_eq, located_eq_ok_iff]
  constructor
  · intro h
    split at h
    next hblank =>
      obtain ⟨m, tag, rfl⟩ := Node.eq_of_isBlankScalar hblank
      simp only [pure_bind] at h
      split at h
      next hfinish =>
        cases h
        exact ⟨[], .blank m tag, (start, []), rfl, hfinish⟩
      next => cases h
    next =>
      cases hn with
      | mapping m _ _ =>
          obtain ⟨r, hr, h⟩ := bind_eq_ok h
          simp only at h
          split at h
          next hfinish =>
            cases h
            exact ⟨_, .entries m _, r, hr, hfinish⟩
          next => cases h
      | scalar m tag style s =>
          obtain ⟨r, hr, -⟩ := bind_eq_ok h
          exact absurd hr (refuse_ne_ok _ _ _ _)
      | sequence m _ =>
          obtain ⟨r, hr, -⟩ := bind_eq_ok h
          exact absurd hr (refuse_ne_ok _ _ _ _)
  · rintro ⟨es, hes, ⟨s, seen⟩, hr, h⟩
    simp only at h
    cases hes with
    | blank m tag =>
        cases hr
        have hblank : isBlankScalar (.scalar m tag .plain "") = true := rfl
        simp only [hblank, if_true, pure_bind, h]
        rfl
    | entries m _ =>
        have hblank : isBlankScalar (.mapping m es) = false := rfl
        simp only [hblank, hr, ok_bind, h]
        rfl

/-- Entries that can be read are read, and they describe the record that they leave behind. -/
theorem Fits.entries_eq_ok (h : S.Fits es) (hf : f.fields = S.slots.map Slot.field)
    (hkeys : ∀ e ∈ es, e.1.Direct) (hvalues : ∀ e ∈ es, e.2.Direct) (d : Document)
    (path : String) :
    ∃ s seen, f.entries d path S.start [] es = .ok (s, seen) ∧ S.Describes es s ∧
      ∀ k ∈ S.required, k ∈ seen := by
  have hfit : ∀ e ∈ es, ∃ c ∈ S.slots, Fields.keyName? e.1 = some c.name ∧ c.name ∉ [] ∧
      ∃ a, c.Means e.2 a := by
    intro e he
    obtain ⟨c, hc, hname, hmeans⟩ := h.fit e he
    exact ⟨c, hc, hname, List.not_mem_nil, hmeans⟩
  obtain ⟨⟨s, seen⟩, hr⟩ :=
    (exists_entries_iff hf hkeys hvalues d path S.start []).2 ⟨h.distinct, hfit⟩
  obtain ⟨hpresent, habsent, hseen⟩ := entries_leave hf hkeys hvalues hr
  exact ⟨s, seen, hr, ⟨h.distinct, hpresent, habsent, h.complete⟩,
    fun k hk => (hseen k).2 (.inl (h.complete k hk))⟩

/-- A record that is put together from slots, and finished if no required field is absent, is read
field by field. -/
theorem decides_record (hf : f.fields = S.slots.map Slot.field)
    {finish : σ → List String → Except Mistake σ}
    (hfinish : ∀ s seen s', finish s seen = .ok s' ↔ s' = s ∧ ∀ k ∈ S.required, k ∈ seen) :
    Decides (f.record S.start finish) S.Means := by
  intro d path n s hn
  rw [record_eq_ok_iff hn]
  refine exists_congr fun es => and_congr_right fun hes => ?_
  obtain ⟨hkeys, hvalues⟩ := hes.direct hn
  constructor
  · rintro ⟨⟨s', seen⟩, hr, hdone⟩
    obtain ⟨rfl, hrequired⟩ := (hfinish _ _ _).1 hdone
    obtain ⟨hpresent, habsent, hseen⟩ := entries_leave hf hkeys hvalues hr
    have hdistinct := ((exists_entries_iff hf hkeys hvalues d path S.start []).1 ⟨_, hr⟩).1
    refine ⟨hdistinct, hpresent, habsent, fun k hk => ?_⟩
    exact ((hseen k).1 (hrequired k hk)).resolve_right List.not_mem_nil
  · intro h
    obtain ⟨s', seen, hr, h', hrequired⟩ := h.fits.entries_eq_ok hf hkeys hvalues d path
    obtain rfl : s' = s := h'.unique hvalues h
    exact ⟨_, hr, (hfinish _ _ _).2 ⟨rfl, hrequired⟩⟩

/-! ## Reading field by field -/

/-- A mapping is read field by field. -/
structure ReadsByField (S : Schema σ) (read : Reader σ) (m : Mark) (es : List (Node × Node)) :
    Prop where
  /-- It is accepted exactly if its entries fit. -/
  accepts : ∀ d path, (∃ s, read d path (.mapping m es) = .ok s) ↔ S.Fits es
  /-- It is read as the record that its entries describe. -/
  gives : ∀ d path s, read d path (.mapping m es) = .ok s ↔ S.Describes es s
  /-- A field that is there is what its own value is read as, alone and anywhere. -/
  alone : ∀ d path s, read d path (.mapping m es) = .ok s → ∀ e ∈ es, ∀ c ∈ S.slots,
    Fields.keyName? e.1 = some c.name → ∀ d' path', c.read d' path' e.2 = .ok (c.get s)
  /-- Reordered, it is the same record, or again refused. -/
  reordered : ∀ es', es.Perm es' → ∀ m' d path d' path',
    (read d path (.mapping m es)).toOption = (read d' path' (.mapping m' es')).toOption

theorem eq_ok_mapping_iff {read : Reader σ} (hread : Decides read S.Means) {m : Mark}
    (h : (Node.mapping m es).Direct) (d : Document) (path : String) (s : σ) :
    read d path (.mapping m es) = .ok s ↔ S.Describes es s := by
  rw [hread d path _ s h]
  constructor
  · rintro ⟨es', hes, hs⟩
    cases hes
    exact hs
  · exact fun hs => ⟨es, .entries m es, hs⟩

theorem toOption_eq_some_iff {α : Type} {x : Except Error α} {a : α} :
    x.toOption = some a ↔ x = .ok a := by
  cases x with
  | error e =>
      constructor
      · intro h
        cases h
      · intro h
        cases h
  | ok b =>
      constructor
      · intro h
        cases h
        rfl
      · intro h
        cases h
        rfl

theorem readsByField {read : Reader σ} (hread : Decides read S.Means) {m : Mark}
    (h : (Node.mapping m es).Direct) : S.ReadsByField read m es := by
  obtain ⟨hkeys, hvalues⟩ := (Node.HasEntries.entries m es).direct h
  have hgives := eq_ok_mapping_iff hread h
  refine ⟨fun d path => ?_, hgives, fun d path s hs e he c hc hname d' path' => ?_, ?_⟩
  · constructor
    · rintro ⟨s, hs⟩
      exact ((hgives d path s).1 hs).fits
    · intro hfits
      -- The schema itself makes a reader of its fields.
      obtain ⟨s, -, -, hs, -⟩ :=
        hfits.entries_eq_ok (f := ⟨"", S.slots.map Slot.field⟩) rfl hkeys hvalues d path
      exact ⟨s, (hgives d path s).2 hs⟩
  · have hmeans := ((hgives d path s).1 hs).means he hc hname
    exact (c.decides d' path' e.2 _ (hvalues e he)).2 hmeans
  · intro es' hperm m' d path d' path'
    have h' : (Node.mapping m' es').Direct :=
      .mapping m' (fun e he => hkeys e (hperm.mem_iff.2 he))
        (fun e he => hvalues e (hperm.mem_iff.2 he))
    refine Option.ext fun s => ?_
    rw [toOption_eq_some_iff, toOption_eq_some_iff, hgives, eq_ok_mapping_iff hread h']
    exact ⟨fun hs => hs.perm hperm, fun hs => hs.perm hperm.symm⟩

end Schema

end DocStamp.Yaml
