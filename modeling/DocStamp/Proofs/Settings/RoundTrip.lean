/-
# Settings that are written are read back

Each entry of the settings takes the record that is being read to one
that has the value of the entry.  A pattern is written as its text, so
it is read back if it is what its text stands for; this holds of the
patterns that are read from a file, and of the defaults.
-/
import DocStamp.Proofs.Text.Blank
import DocStamp.Proofs.Yaml.Reader
import DocStamp.Settings.Write

namespace DocStamp

open Yaml (Reads Reader Fields Value)

/-! ## Records of settings -/

namespace Settings

section

variable {σ α : Type} {f : Fields σ} {s : σ} {e : String × Value} {read : Reader α}
  {set : σ → α → σ} {a : α}

theorem takes_field (hfind : f.fields.find? (·.1 == e.1) = some (e.1, field read set))
    (hread : Reads read e.2 a) : f.Takes s e (set s a) := by
  refine ⟨field read set, hfind, fun d path n hn => ?_⟩
  rw [field, hread d path n hn]
  rfl

theorem eq_of_field {d : Yaml.Document} {path : String} {n : Yaml.Node} {s' : σ}
    (h : field read set s d path n = .ok s') : ∃ a, read d path n = .ok a ∧ s' = set s a := by
  cases hread : read d path n with
  | error err =>
      rw [field, hread] at h
      cases h
  | ok a =>
      rw [field, hread] at h
      cases h
      exact ⟨a, rfl, rfl⟩

theorem reads_readText (t : String) : Reads readText (.text t) t := Yaml.reads_text _ t

end

/-! ## The parts of the settings -/

theorem nodup_latexElements : LatexElements.fields.names.Nodup := by decide

theorem reads_latexElements (e : LatexElements) : Reads LatexElements.read e.value e := by
  refine Fields.reads_record e ?_ ?_ ?_
  · exact ⟨_, takes_field rfl (reads_readText _), _, takes_field rfl (reads_readText _), _,
      takes_field rfl (reads_readText _), rfl⟩
  · exact nodup_latexElements
  · rfl

theorem nodup_latexDocument : LatexDocument.fields.names.Nodup := by decide

theorem reads_latexDocument (d : LatexDocument) : Reads LatexDocument.read d.value d := by
  refine Fields.reads_record d ?_ ?_ ?_
  · exact ⟨_, takes_field rfl (reads_readText _), _, takes_field rfl (reads_readText _), _,
      takes_field rfl (reads_readText _), _, takes_field rfl (reads_readText _), _,
      takes_field rfl (reads_readText _), rfl⟩
  · exact nodup_latexDocument
  · rfl

theorem reads_texts (ss : List String) : Reads (Yaml.list readText) (texts ss) ss :=
  Yaml.reads_list fun s _ => reads_readText s

theorem reads_optionalText (s : Option String) :
    Reads (Yaml.optional readText) (optionalText s) s := by
  cases s with
  | none => exact Yaml.reads_optional_null _
  | some s => exact Yaml.reads_optional_text (reads_readText s)

/-- A pattern is what its text stands for. -/
def IsRead (p : Glob.Pattern) : Prop := Glob.Pattern.parse p.text = .ok p

theorem reads_readPattern {p : Glob.Pattern} (h : IsRead p) :
    Reads readPattern (.text p.text) p := by
  intro d path n hn
  have hparse : Glob.Pattern.parse p.text = .ok p := h
  rw [readPattern, reads_readText p.text d path n hn, Yaml.ok_bind]
  simp only [hparse]
  rfl

theorem reads_patterns {ps : List Glob.Pattern} (h : ∀ p ∈ ps, IsRead p) :
    Reads (Yaml.list readPattern) (texts (ps.map (·.text))) ps := by
  have hvalue : texts (ps.map (·.text)) = .list (ps.map fun p => .text p.text) := by
    rw [texts, List.map_map]
    rfl
  rw [hvalue]
  exact Yaml.reads_list fun p hp => reads_readPattern (h p hp)

/-! ## The settings -/

theorem nodup_fields : fields.names.Nodup := by decide

theorem reads_entries {s : Settings} (h : ∀ p ∈ s.excludePatterns, IsRead p) :
    Reads Settings.read (.map s.entries) s := by
  refine Fields.reads_record s ?_ ?_ ?_
  · exact ⟨_, takes_field rfl (reads_readText _), _, takes_field rfl (reads_readText _), _,
      takes_field rfl (reads_readText _), _, takes_field rfl (reads_texts _), _,
      takes_field rfl (reads_readText _), _, takes_field rfl (reads_optionalText _), _,
      takes_field rfl (reads_patterns h), _, takes_field rfl (reads_readText _), _,
      takes_field rfl (reads_latexElements _), _,
      takes_field rfl (Yaml.reads_list fun d _ => reads_latexDocument d), _,
      takes_field rfl (Yaml.reads_text _ _), rfl⟩
  · exact nodup_fields
  · rfl

/-! ## Patterns are what their texts stand for -/

theorem isRead_of_parse {text : String} {p : Glob.Pattern} (h : Glob.Pattern.parse text = .ok p) :
    IsRead p := by
  have htext : p.text = text := by
    unfold Glob.Pattern.parse at h
    cases hparse : Glob.parseFrom none 0 [] text.toList with
    | error e =>
        rw [hparse] at h
        cases h
    | ok tokens =>
        rw [hparse] at h
        cases h
        rfl
  rw [IsRead, htext, h]

/-- Characters that stand for themselves in a pattern. -/
def isLiteral (c : Char) : Bool := c != '?' && c != '*' && c != '['

theorem parseFrom_literal {cs : List Char} (h : cs.all isLiteral = true) (before : Option Char)
    (position : Nat) (read : List Glob.Token) :
    Glob.parseFrom before position read cs = .ok (read.reverse ++ cs.map .lit) := by
  induction cs generalizing before position read with
  | nil =>
      rw [Glob.parseFrom, List.map_nil, List.append_nil]
  | cons c cs ih =>
      simp only [List.all_cons, isLiteral, Bool.and_eq_true, bne_iff_ne] at h
      obtain ⟨⟨⟨hany, hstar⟩, hopen⟩, hcs⟩ := h
      rw [Glob.parseFrom, ih hcs, List.reverse_cons, List.append_assoc, List.map_cons,
        List.cons_append, List.nil_append]
      · exact hany
      · exact fun _ hc => absurd hc hstar
      · exact fun _ hc => absurd hc hstar
      · exact hstar
      · exact hopen

theorem isRead_literalPattern {s : String} (h : s.toList.all isLiteral = true) :
    IsRead (literalPattern s) := by
  rw [IsRead, Glob.Pattern.parse, literalPattern, parseFrom_literal h]
  rfl

theorem isRead_default : ∀ p ∈ default.excludePatterns, IsRead p := by
  intro p hp
  obtain ⟨s, hs, rfl⟩ := List.mem_map.1 hp
  have hliteral : ["_build", "Thumbs.db", ".DS_Store"].all (·.toList.all isLiteral) = true := by
    decide
  exact isRead_literalPattern (List.all_eq_true.1 hliteral s hs)

theorem isRead_of_readPattern {d : Yaml.Document} {path : String} {n : Yaml.Node}
    {p : Glob.Pattern} (h : readPattern d path n = .ok p) : IsRead p := by
  obtain ⟨text, -, h⟩ := Yaml.bind_eq_ok h
  split at h
  next hparse =>
    cases h
    exact isRead_of_parse hparse
  next => cases h

/-- Only the field of the patterns changes the patterns, and it gives patterns that were read. -/
theorem isRead_of_field {field : String × Yaml.FieldReader Settings}
    (hfield : field ∈ fields.fields) {s s' : Settings} {d : Yaml.Document} {path : String}
    {n : Yaml.Node} (hs : ∀ p ∈ s.excludePatterns, IsRead p) (h : field.2 s d path n = .ok s') :
    ∀ p ∈ s'.excludePatterns, IsRead p := by
  simp only [fields, List.mem_cons, List.not_mem_nil, or_false] at hfield
  rcases hfield with rfl | rfl | rfl | rfl | rfl | rfl | rfl | rfl | rfl | rfl | rfl
  all_goals dsimp only at h
  -- The field of the patterns.
  case inr.inr.inr.inr.inr.inr.inl =>
    obtain ⟨ps, hps, rfl⟩ := eq_of_field h
    exact Yaml.forall_of_list isRead_of_readPattern hps
  all_goals
    obtain ⟨a, -, rfl⟩ := eq_of_field h
    exact hs

theorem isRead_of_settings {source : String} {s : Settings} (h : Settings.parse source = .ok s) :
    ∀ p ∈ s.excludePatterns, IsRead p := by
  unfold Settings.parse at h
  split at h
  · cases h
    exact isRead_default
  · rcases Yaml.ok_of_decode h with hblank | ⟨d, n, hread⟩
    · cases hblank
      exact isRead_default
    · obtain ⟨s', seen, hs', hfinish⟩ := Fields.invariant_of_record
        (fun field hfield => isRead_of_field hfield) isRead_default hread
      cases hfinish
      exact hs'

/-! ## Settings can be written -/

theorem writable_texts (ss : List String) : (texts ss).Writable := by
  refine .list fun v hv => ?_
  obtain ⟨s, -, rfl⟩ := List.mem_map.1 hv
  exact .text s

theorem writable_optionalText (s : Option String) : (optionalText s).Writable := by
  cases s with
  | none => exact .null
  | some s => exact .text s

theorem isKey_latexElements : ∀ k ∈ LatexElements.fields.names, Yaml.IsKey k.toList := by decide

theorem writable_latexElements (e : LatexElements) : e.value.Writable := by
  refine .map (fun entry h => isKey_latexElements entry.1 (List.mem_map_of_mem h)) ?_
  simp only [List.forall_mem_cons]
  exact ⟨.text _, .text _, .text _, List.forall_mem_nil _⟩

theorem isKey_latexDocument : ∀ k ∈ LatexDocument.fields.names, Yaml.IsKey k.toList := by decide

theorem writable_latexDocument (d : LatexDocument) : d.value.Writable := by
  refine .map (fun entry h => isKey_latexDocument entry.1 (List.mem_map_of_mem h)) ?_
  simp only [List.forall_mem_cons]
  exact ⟨.text _, .text _, .text _, .text _, .text _, List.forall_mem_nil _⟩

theorem isKey_fields : ∀ k ∈ fields.names, Yaml.IsKey k.toList := by decide

theorem writable_entries (s : Settings) : ∀ e ∈ s.entries, e.2.Writable := by
  simp only [entries, List.forall_mem_cons]
  refine ⟨.text _, .text _, .text _, writable_texts _, .text _, writable_optionalText _,
    writable_texts _, .text _, writable_latexElements _, .list fun v hv => ?_, .text _,
    List.forall_mem_nil _⟩
  obtain ⟨d, -, rfl⟩ := List.mem_map.1 hv
  exact writable_latexDocument d

theorem parse_write {s : Settings} (h : ∀ p ∈ s.excludePatterns, IsRead p) :
    Settings.parse (Yaml.write s.entries) = .ok s := by
  have hwritable : (Value.map s.entries).Writable :=
    .map (fun e he => isKey_fields e.1 (List.mem_map_of_mem he)) (writable_entries s)
  have hne : s.entries ≠ [] := List.cons_ne_nil _ _
  obtain ⟨d, m, ns, hns, hdecode⟩ := Yaml.decode_write hne hwritable
  have htrim : Text.trim (Yaml.write s.entries) ≠ "" := Text.trim_ne_empty rfl
  rw [Settings.parse, beq_false_of_ne htrim, if_neg Bool.false_ne_true, hdecode]
  exact reads_entries h d _ _ ⟨m, ns, rfl, hns⟩

end Settings

/-! ## The whole configuration -/

namespace Versions

def names : List String := ["plugin_version", "release", "yamcs_version"]

theorem isKey_names : ∀ k ∈ names, Yaml.IsKey k.toList := by decide

theorem writable_entries (v : Versions) : ∀ e ∈ v.entries, e.2.Writable := by
  simp only [entries, List.forall_mem_cons]
  exact ⟨.text _, .text _, .text _, List.forall_mem_nil _⟩

end Versions

theorem Config.writable (c : Config) :
    (Value.map (c.settings.entries ++ c.versions.entries)).Writable := by
  refine .map (fun e h => ?_) (fun e h => ?_)
  · rcases List.mem_append.1 h with h | h
    · exact Settings.isKey_fields e.1 (List.mem_map_of_mem h)
    · exact Versions.isKey_names e.1 (List.mem_map_of_mem h)
  · rcases List.mem_append.1 h with h | h
    · exact Settings.writable_entries c.settings e h
    · exact Versions.writable_entries c.versions e h

end DocStamp
