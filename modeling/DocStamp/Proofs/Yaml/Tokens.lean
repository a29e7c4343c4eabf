/-
# The tokens of a written document

A value is written behind a key or behind a dash.  Either way the
scanner cuts it into the tokens of the value, and is then ready for
whatever begins the next line, at most as deep as the key or the dash.
A list behind a key is not indented, so no token opens or closes it.
-/
import DocStamp.Proofs.Yaml.Steps

namespace DocStamp.Yaml

/-! ## The tokens of a value -/

mutual

/-- The tokens of a value; `indentless` tells whether a list stands at the column of a key. -/
def Value.kinds (indentless : Bool) : Value → List TokenKind
  | .null => [.scalar "null" .plain]
  | .text s => [.scalar s (layoutOf s).style]
  | .list [] => [.flowSequenceStart, .flowSequenceEnd]
  | .list (item :: items) =>
      if indentless then Value.itemKinds (item :: items)
      else .blockSequenceStart :: Value.itemKinds (item :: items) ++ [.blockEnd]
  | .map [] => [.flowMappingStart, .flowMappingEnd]
  | .map (e :: entries) => .blockMappingStart :: Value.entryKinds (e :: entries) ++ [.blockEnd]

def Value.itemKinds : List Value → List TokenKind
  | [] => []
  | item :: items => .blockEntry :: (item.kinds false ++ Value.itemKinds items)

def Value.entryKinds : List (String × Value) → List TokenKind
  | [] => []
  | (key, value) :: entries =>
      .key :: .scalar key .plain :: .value :: (value.kinds true ++ Value.entryKinds entries)

end

/-! ## What begins a line -/

theorem not_skipped_of_not_white {c : Char} (hwhite : isWhite c = false) (hhash : c ≠ '#')
    (hmark : c.toNat ≠ 0xFEFF) : Scanner.isSkipped c = false := by
  obtain ⟨hgap, hbreak⟩ := Bool.or_eq_false_iff.1 hwhite
  rw [Scanner.isSkipped, Scanner.isPassed, hgap, hbreak, beq_false_of_ne hhash,
    beq_false_of_ne hmark]
  rfl

theorem stopsAt_key {key : List Char} (hkey : IsKey key) (b : List Char) :
    StopsAt Scanner.isSkipped (key ++ b) := by
  obtain ⟨c, cs, rfl, hc⟩ := hkey.exists_cons
  refine stopsAt_cons (not_skipped_of_not_white ?_ (ne_of_isAlpha hc rfl) ?_) _
  · exact isWhite_of_isWordChar (hkey.word c List.mem_cons_self)
  · intro hmark
    rw [← Char.ofNat_toNat c, hmark] at hc
    cases hc

theorem stopsAt_writeText (i : Nat) (str : String) (b : List Char) :
    StopsAt Scanner.isSkipped (writeText i str ++ b) := by
  cases hlayout : layoutOf str with
  | plain =>
      obtain ⟨hmistake, hcan⟩ := plain_of_layoutOf hlayout
      obtain ⟨c, cs, hcs⟩ := List.exists_cons_of_ne_nil (toList_ne_nil_of_not_mistakable hmistake)
      rw [hcs] at hcan
      obtain ⟨hopen, hwhite, -⟩ := Scanner.begins_of_canBePlain hcan
      have hprint := ((Cursor.isPlain_of_canBePlain (List.cons_ne_nil c cs) hcan).inLine c
        List.mem_cons_self).1
      simp only [writeText, hlayout, hcs]
      refine stopsAt_cons (not_skipped_of_not_white hwhite
        (Scanner.ne_of_not_opening hopen rfl) ?_) _
      intro hmark
      rw [isPrintable, hmark] at hprint
      cases hprint
  | single =>
      simp only [writeText, hlayout]
      exact stopsAt_cons rfl _
  | double =>
      simp only [writeText, hlayout]
      exact stopsAt_cons rfl _
  | literal =>
      simp only [writeText, hlayout]
      exact stopsAt_cons rfl _

theorem stopsAt_writeBehindDash {v : Value} (h : v.Writable) (i : Nat) (b : List Char) :
    StopsAt Scanner.isSkipped (writeBehindDash i v ++ b) := by
  cases h with
  | null => exact stopsAt_cons rfl _
  | text s => exact stopsAt_writeText i s b
  | @list items hitems =>
      cases items with
      | nil => exact stopsAt_cons rfl _
      | cons item items => exact stopsAt_cons rfl _
  | @map entries hkeys hvalues =>
      cases entries with
      | nil => exact stopsAt_cons rfl _
      | cons e entries =>
          obtain ⟨key, value⟩ := e
          have hkey := hkeys (key, value) List.mem_cons_self
          show StopsAt Scanner.isSkipped ((key.toList ++ ':' :: writeBehindKey (i + 2) value ++
            writeEntries (i + 2) (spaces (i + 2)) entries) ++ b)
          rw [List.append_assoc, List.append_assoc]
          exact stopsAt_key hkey _

namespace Scanner

section

variable {s : Scanner} {ts : List Token} {kinds : List TokenKind} {indent : Int}
  {indents : List Int} {i col : Nat} {next : List Char}

/-! ## Blocks of items and entries -/

theorem openKinds_self (i : Nat) (kind : TokenKind) : openKinds i i kind = [] :=
  if_neg (Int.lt_irrefl _)

theorem openIndents_self (i : Nat) (indents : List Int) : openIndents i i indents = indents :=
  if_neg (Int.lt_irrefl _)

theorem openKinds_deeper (i : Nat) (kind : TokenKind) : openKinds i (i + 2) kind = [kind] :=
  if_pos (Int.ofNat_lt.2 (Nat.lt_add_of_pos_right Nat.zero_lt_two))

theorem openIndents_deeper (i : Nat) (indents : List Int) :
    openIndents i (i + 2) indents = (i : Int) :: indents :=
  if_pos (Int.ofNat_lt.2 (Nat.lt_add_of_pos_right Nat.zero_lt_two))

/-- Behind a dash at a column the value is cut into its tokens. -/
def ScansBehindDash (v : Value) : Prop :=
  ∀ {s indents ts} {i col : Nat} {next}, Ready s true i indents ts (i + 2)
    (writeBehindDash i v ++ (spaces col ++ next)) → col ≤ i → StopsAt isSkipped next →
      Leads s ts (v.kinds false) true i indents col next

/-- Behind a key at a column the value is cut into its tokens; the key may open a block. -/
def ScansBehindKey (v : Value) : Prop :=
  ∀ {s indent indents ts} {i col : Nat} {key : String} {next}, Ready s true indent indents ts i
    (key.toList ++ ':' :: (writeBehindKey i v ++ (spaces col ++ next))) → indent ≤ i →
      IsKey key.toList → col ≤ i → StopsAt isSkipped next →
        Leads s ts (openKinds indent i .blockMappingStart ++
          .key :: .scalar key .plain :: .value :: v.kinds true) true i
          (openIndents indent i indents) col next

/-- The items of a list; the first of them may open a block. -/
theorem Ready.items {item : Value} {items : List Value}
    (hwritable : ∀ v ∈ item :: items, v.Writable) (hscans : ∀ v ∈ item :: items, ScansBehindDash v)
    (h : Ready s true indent indents ts i ('-' :: ' ' ::
      (writeBehindDash i item ++ (writeItems i items ++ (spaces col ++ next)))))
    (hindent : indent ≤ i) (hcol : col ≤ i) (hnext : StopsAt isSkipped next) :
    Leads s ts (openKinds indent i .blockSequenceStart ++ Value.itemKinds (item :: items)) true i
      (openIndents indent i indents) col next := by
  induction items generalizing s ts indent indents item with
  | nil =>
      have hdash := h.dash hindent (stopsAt_writeBehindDash (hwritable item List.mem_cons_self) i _)
      have hleads := hdash.trans fun hready => hscans item List.mem_cons_self hready hcol hnext
      rw [List.append_assoc] at hleads
      rwa [Value.itemKinds, Value.itemKinds, List.append_nil]
  | cons item' items ih =>
      have hdash := h.dash hindent (stopsAt_writeBehindDash (hwritable item List.mem_cons_self) i _)
      -- The next item begins at the column of this one, so it opens nothing.
      have hshape : writeItems i (item' :: items) ++ (spaces col ++ next) =
          spaces i ++ '-' :: ' ' :: (writeBehindDash i item' ++
            (writeItems i items ++ (spaces col ++ next))) := by
        simp only [writeItems, List.append_assoc, List.cons_append, List.nil_append]
      rw [hshape] at hdash
      have hleads := (hdash.trans fun hready =>
        hscans item List.mem_cons_self hready (Nat.le_refl i) (stopsAt_cons rfl _)).trans
        fun hready => ih (fun v hv => hwritable v (List.mem_cons_of_mem item hv))
          (fun v hv => hscans v (List.mem_cons_of_mem item hv)) hready (Int.le_refl i)
      rw [openKinds_self, openIndents_self, List.append_assoc, List.append_assoc] at hleads
      rwa [Value.itemKinds]

theorem Ready.entries {key : String} {value : Value} {entries : List (String × Value)}
    (hkeys : ∀ e ∈ (key, value) :: entries, IsKey e.1.toList)
    (hscans : ∀ e ∈ (key, value) :: entries, ScansBehindKey e.2)
    (h : Ready s true indent indents ts i (key.toList ++ ':' ::
      (writeBehindKey i value ++ (writeEntries i (spaces i) entries ++ (spaces col ++ next)))))
    (hindent : indent ≤ i) (hcol : col ≤ i) (hnext : StopsAt isSkipped next) :
    Leads s ts (openKinds indent i .blockMappingStart ++ Value.entryKinds ((key, value) :: entries))
      true i (openIndents indent i indents) col next := by
  have hkey : IsKey key.toList := hkeys _ List.mem_cons_self
  have hvalue : ScansBehindKey value := hscans _ List.mem_cons_self
  induction entries generalizing s ts indent indents key value with
  | nil =>
      have hleads := hvalue h hindent hkey hcol hnext
      rwa [Value.entryKinds, Value.entryKinds, List.append_nil]
  | cons e entries ih =>
      obtain ⟨key', value'⟩ := e
      have hkeys' : ∀ e ∈ (key', value') :: entries, IsKey e.1.toList :=
        fun e he => hkeys e (List.mem_cons_of_mem _ he)
      have hscans' : ∀ e ∈ (key', value') :: entries, ScansBehindKey e.2 :=
        fun e he => hscans e (List.mem_cons_of_mem _ he)
      have hkey' : IsKey key'.toList := hkeys' _ List.mem_cons_self
      have hshape : writeEntries i (spaces i) ((key', value') :: entries) ++ (spaces col ++ next) =
          spaces i ++ (key'.toList ++ ':' :: (writeBehindKey i value' ++
            (writeEntries i (spaces i) entries ++ (spaces col ++ next)))) := by
        simp only [writeEntries, List.append_assoc, List.cons_append]
      rw [hshape] at h
      have hleads := (hvalue h hindent hkey (Nat.le_refl i) (stopsAt_key hkey' _)).trans
        fun hready => ih hkeys' hscans' hready (Int.le_refl i) hkey' (hscans' _ List.mem_cons_self)
      rw [openKinds_self, openIndents_self, List.append_assoc] at hleads
      rwa [Value.entryKinds]

/-! ## Values -/

theorem canBePlain_null : canBePlain ['n', 'u', 'l', 'l'] = true := rfl

theorem Ready.behindKey {key : String} {col' : Nat} {b next' : List Char}
    (h : Ready s true indent indents ts i (key.toList ++ ':' :: ' ' :: b)) (hindent : indent ≤ i)
    (hkey : IsKey key.toList) (hb : StopsAt isSkipped b)
    (hvalue : ∀ {u ts' indents'} {col : Nat}, Ready u false i indents' ts' col b → i < col →
      Leads u ts' kinds true i indents' col' next') :
    Leads s ts (openKinds indent i .blockMappingStart ++
      .key :: .scalar key .plain :: .value :: kinds) true i (openIndents indent i indents) col'
      next' := by
  obtain ⟨col, hcol, hleads⟩ := h.keyBeside hindent hkey hb
  rw [String.ofList_toList] at hleads
  have hmore := hleads.trans fun hready => hvalue hready hcol
  rwa [List.append_assoc] at hmore

/-- A list behind a key stands at the column of the key. -/
theorem scansBehindKey_list {items : List Value} (hwritable : ∀ v ∈ items, v.Writable)
    (hscans : ∀ v ∈ items, ScansBehindDash v) : ScansBehindKey (.list items) := by
  intro s indent indents ts i col key next h hindent hkey hcol hnext
  cases items with
  | nil =>
      exact h.behindKey hindent hkey (stopsAt_cons rfl _) fun hready hi =>
        hready.emptyList (Int.ofNat_lt.2 hi) hnext
  | cons item items =>
      have hshape : writeBehindKey i (.list (item :: items)) ++ (spaces col ++ next) =
          '\n' :: (spaces i ++ '-' :: ' ' :: (writeBehindDash i item ++
            (writeItems i items ++ (spaces col ++ next)))) := by
        simp only [writeBehindKey, writeItems, List.append_assoc, List.cons_append, List.nil_append]
      rw [hshape] at h
      have hleads := (h.keyAbove hindent hkey (stopsAt_cons rfl _)).trans fun hready =>
        hready.items hwritable hscans (Int.le_refl i) hcol hnext
      rw [openKinds_self, openIndents_self, String.ofList_toList, List.append_assoc] at hleads
      exact hleads

theorem scansBehindKey_map {entries : List (String × Value)}
    (hkeys : ∀ e ∈ entries, IsKey e.1.toList) (hscans : ∀ e ∈ entries, ScansBehindKey e.2) :
    ScansBehindKey (.map entries) := by
  intro s indent indents ts i col key next h hindent hkey hcol hnext
  cases entries with
  | nil =>
      exact h.behindKey hindent hkey (stopsAt_cons rfl _) fun hready hi =>
        hready.emptyMap (Int.ofNat_lt.2 hi) hnext
  | cons e entries =>
      obtain ⟨key', value⟩ := e
      have hshape : writeBehindKey i (.map ((key', value) :: entries)) ++ (spaces col ++ next) =
          '\n' :: (spaces (i + 2) ++ (key'.toList ++ ':' :: (writeBehindKey (i + 2) value ++
            (writeEntries (i + 2) (spaces (i + 2)) entries ++ (spaces col ++ next))))) := by
        simp only [writeBehindKey, writeEntries, List.append_assoc, List.cons_append]
      rw [hshape] at h
      have hdeep : i < i + 2 := Nat.lt_add_of_pos_right Nat.zero_lt_two
      have hleads := (h.keyAbove hindent hkey (stopsAt_key (hkeys _ List.mem_cons_self) _)).trans
        fun hready => hready.entries hkeys hscans (Int.ofNat_le.2 (Nat.le_of_lt hdeep))
          (Nat.le_add_right_of_le hcol) hnext
      rw [openKinds_deeper, openIndents_deeper, String.ofList_toList] at hleads
      have houter := hleads.outer (Int.ofNat_lt.2 (Nat.lt_of_le_of_lt hcol hdeep))
      rw [List.append_assoc, List.append_assoc] at houter
      exact houter

theorem scansBehindDash_list {items : List Value} (hwritable : ∀ v ∈ items, v.Writable)
    (hscans : ∀ v ∈ items, ScansBehindDash v) : ScansBehindDash (.list items) := by
  intro s indents ts i col next h hcol hnext
  have hdeep : i < i + 2 := Nat.lt_add_of_pos_right Nat.zero_lt_two
  cases items with
  | nil => exact h.emptyList (Int.ofNat_lt.2 hdeep) hnext
  | cons item items =>
      have hshape : writeBehindDash i (.list (item :: items)) ++ (spaces col ++ next) =
          '-' :: ' ' :: (writeBehindDash (i + 2) item ++
            (writeItems (i + 2) items ++ (spaces col ++ next))) := by
        simp only [writeBehindDash, List.append_assoc, List.cons_append, List.nil_append]
      rw [hshape] at h
      have hleads := h.items hwritable hscans (Int.ofNat_le.2 (Nat.le_of_lt hdeep))
        (Nat.le_add_right_of_le hcol) hnext
      rw [openKinds_deeper, openIndents_deeper] at hleads
      exact hleads.outer (Int.ofNat_lt.2 (Nat.lt_of_le_of_lt hcol hdeep))

theorem scansBehindDash_map {entries : List (String × Value)}
    (hkeys : ∀ e ∈ entries, IsKey e.1.toList) (hscans : ∀ e ∈ entries, ScansBehindKey e.2) :
    ScansBehindDash (.map entries) := by
  intro s indents ts i col next h hcol hnext
  have hdeep : i < i + 2 := Nat.lt_add_of_pos_right Nat.zero_lt_two
  cases entries with
  | nil => exact h.emptyMap (Int.ofNat_lt.2 hdeep) hnext
  | cons e entries =>
      obtain ⟨key, value⟩ := e
      have hshape : writeBehindDash i (.map ((key, value) :: entries)) ++ (spaces col ++ next) =
          key.toList ++ ':' :: (writeBehindKey (i + 2) value ++
            (writeEntries (i + 2) (spaces (i + 2)) entries ++ (spaces col ++ next))) := by
        simp only [writeBehindDash, writeEntries, List.append_assoc, List.cons_append,
          List.nil_append]
      rw [hshape] at h
      have hleads := h.entries hkeys hscans (Int.ofNat_le.2 (Nat.le_of_lt hdeep))
        (Nat.le_add_right_of_le hcol) hnext
      rw [openKinds_deeper, openIndents_deeper] at hleads
      exact hleads.outer (Int.ofNat_lt.2 (Nat.lt_of_le_of_lt hcol hdeep))

/-- Every writable value is cut into its tokens, behind a dash and behind a key. -/
theorem scans_of_writable {v : Value} (hv : v.Writable) : ScansBehindDash v ∧ ScansBehindKey v := by
  induction hv with
  | null =>
      refine ⟨fun h hcol hnext => ?_, fun h hindent hkey hcol hnext => ?_⟩
      · exact h.plain (Nat.lt_add_of_pos_right Nat.zero_lt_two) hcol hnext (List.cons_ne_nil _ _)
          canBePlain_null
      · exact h.behindKey hindent hkey (stopsAt_cons rfl _) fun hready hi =>
          hready.plain hi hcol hnext (List.cons_ne_nil _ _) canBePlain_null
  | text str =>
      refine ⟨fun h hcol hnext => ?_, fun h hindent hkey hcol hnext => ?_⟩
      · exact h.text (Nat.lt_add_of_pos_right Nat.zero_lt_two) hcol hnext
      · exact h.behindKey hindent hkey (stopsAt_writeText _ str _) fun hready hi =>
          hready.text hi hcol hnext
  | @list items hwritable ih =>
      have hscans : ∀ v ∈ items, ScansBehindDash v := fun v hv => (ih v hv).1
      exact ⟨scansBehindDash_list hwritable hscans, scansBehindKey_list hwritable hscans⟩
  | @map entries hkeys hvalues ih =>
      have hscans : ∀ e ∈ entries, ScansBehindKey e.2 := fun e he => (ih e he).2
      exact ⟨scansBehindDash_map hkeys hscans, scansBehindKey_map hkeys hscans⟩

/-! ## Documents -/

/-- Steps that read something take no more fuel than there is to read. -/
theorem Reaches.scanFrom_eq {u : Scanner} (h : Reaches s u) {k n : Nat}
    (hn : s.cursor.rest.length + k ≤ n) :
    ∃ n', u.cursor.rest.length + k ≤ n' ∧ Tokens.scanFrom n s = Tokens.scanFrom n' u := by
  induction h generalizing n with
  | refl s => exact ⟨n, hn, rfl⟩
  | step hdone hstep hless _ ih =>
      obtain ⟨n, rfl⟩ := Nat.exists_eq_add_one_of_ne_zero (Nat.ne_zero_of_lt (Nat.lt_of_lt_of_le
        (Nat.lt_of_le_of_lt (Nat.zero_le _) hless) (Nat.le_trans (Nat.le_add_right _ _) hn)))
      obtain ⟨n', hn', hscan⟩ := ih (n := n) (by omega)
      refine ⟨n', hn', ?_⟩
      rw [Tokens.scanFrom, hdone, if_neg Bool.false_ne_true, hstep]
      exact hscan

/-- At the end of the text the outermost block is closed. -/
theorem Ready.scanFrom_end (h : Ready s true (0 : Nat) [-1] ts 0 []) (n : Nat) :
    ∃ ts', Tokens.scanFrom (n + 2) s = ⟨ts'.reverse, none⟩ ∧
      Adds [.blockEnd, .streamEnd] ts ts' := by
  obtain ⟨m, hm, hstep⟩ := h.step_eq (Int.le_refl 0)
  have hfetch : (flat ⟨[], m⟩ ts none true (0 : Nat) [-1]).fetchToken =
      .ok (flat ⟨[], m⟩ (⟨.streamEnd, m, m⟩ :: ⟨.blockEnd, m, m⟩ :: ts) none false (-1) []) := by
    simp only [fetchToken, flat, fetchEnd, mark, hm, if_true]
    rfl
  rw [hfetch, ok_bind, closeStale_none] at hstep
  refine ⟨⟨.streamEnd, m, m⟩ :: ⟨.blockEnd, m, m⟩ :: ts, ?_,
    [⟨.streamEnd, m, m⟩, ⟨.blockEnd, m, m⟩], rfl, rfl⟩
  rw [Tokens.scanFrom, h.notDone, if_neg Bool.false_ne_true, hstep]
  rfl

theorem ready_start {cs : List Char} (h : StopsAt isSkipped cs) :
    Ready (.start cs) true (-1) [] (start cs).tokens 0 cs :=
  ready_here rfl rfl h

/-- Whatever leads from the start of a text to its end is all that the text is cut into. -/
theorem Leads.scan {cs : List Char} (hprint : cs.all isPrintable = true)
    (h : Leads (.start cs) (start cs).tokens kinds true (0 : Nat) [-1] 0 []) :
    ∃ ts, Tokens.scan (String.ofList cs) = ⟨ts, none⟩ ∧
      ts.map Token.kind = .streamStart :: (kinds ++ [.blockEnd, .streamEnd]) := by
  obtain ⟨u, ts, hreach, hadds, hend⟩ := h
  have hfuel : (start cs).cursor.rest.length + 2 ≤ 2 * cs.length + 2 := by
    show cs.length + 2 ≤ 2 * cs.length + 2
    omega
  obtain ⟨n, hn, hscan⟩ := hreach.scanFrom_eq hfuel
  obtain ⟨n, rfl⟩ := Nat.exists_eq_add_of_le' (Nat.le_trans (Nat.le_add_left 2 _) hn)
  obtain ⟨ts', hlast, hadds'⟩ := hend.scanFrom_end n
  obtain ⟨new, rfl, hkinds⟩ := hadds.trans hadds'
  refine ⟨(new ++ (start cs).tokens).reverse, ?_, ?_⟩
  · rw [Tokens.scan, String.toList_ofList, controlOffset?_eq_none hprint]
    exact hscan.trans hlast
  · rw [List.reverse_append, List.map_append, hkinds]
    rfl

end

end Scanner

open Scanner in
theorem scan_write {entries : List (String × Value)} (hne : entries ≠ [])
    (hwritable : (Value.map entries).Writable) :
    ∃ ts, Tokens.scan (write entries) = ⟨ts, none⟩ ∧
      ts.map Token.kind = .streamStart :: ((Value.map entries).kinds false ++ [.streamEnd]) := by
  cases hwritable with
  | map hkeys hvalues =>
      have hscans : ∀ e ∈ entries, ScansBehindKey e.2 :=
        fun e he => (scans_of_writable (hvalues e he)).2
      have hprint : (writeEntries 0 [] entries).all isPrintable = true :=
        all_writeEntries rfl hkeys (fun e he => (all_writeBehind (hvalues e he)).2) 0
      obtain ⟨⟨key, value⟩, entries, rfl⟩ := List.exists_cons_of_ne_nil hne
      have hshape : writeEntries 0 [] ((key, value) :: entries) = key.toList ++ ':' ::
          (writeBehindKey 0 value ++ (writeEntries 0 (spaces 0) entries ++ (spaces 0 ++ []))) := by
        have hnil : spaces 0 ++ [] = ([] : List Char) := rfl
        rw [writeEntries, hnil, List.append_nil, List.nil_append, List.append_assoc,
          List.cons_append]
      have hstops := stopsAt_key (hkeys (key, value) List.mem_cons_self) (':' ::
        (writeBehindKey 0 value ++ (writeEntries 0 (spaces 0) entries ++ (spaces 0 ++ []))))
      have hready := ready_start hstops
      rw [hshape] at hprint
      obtain ⟨ts, hscan, hkinds⟩ := (hready.entries hkeys hscans (by decide) (Nat.le_refl 0)
        (stopsAt_nil _)).scan hprint
      refine ⟨ts, ?_, ?_⟩
      · rw [write, hshape, hscan]
      · rw [hkinds, List.append_assoc, Value.kinds, List.cons_append, List.cons_append,
          List.append_assoc]
        rfl

end DocStamp.Yaml
