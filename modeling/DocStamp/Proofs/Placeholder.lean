/-
# Stamping in two passes

Stamping first replaces the placeholders of the plugin and then those of
the server, so the second pass sees what the first has inserted.  A
version that is itself a placeholder, or that completes one with the
text around it, is expanded again.  `stampOnce` is the replacement of
both placeholders in one pass, which never does so.

`stamp_eq_stampOnce_iff` says on which sources the two agree, and for
which versions they agree on every source.
-/
import DocStamp.Placeholder
import DocStamp.Proofs.Text.Replace
import Mathlib.Logic.Basic

namespace DocStamp.Placeholder

open Text (occurrences replaceBoth replaceChars)

/-- Stamps a text in one pass: inserted versions are not looked at again. -/
def stampOnce (pluginVersion serverVersion source : String) : String :=
  String.ofList (replaceBoth plugin.toList pluginVersion.toList server.toList serverVersion.toList
    source.toList)

/-- Stamps a text with the version of the server first. -/
def stampServerFirst (pluginVersion serverVersion source : String) : String :=
  Text.replace plugin pluginVersion (Text.replace server serverVersion source)

/-- How often a placeholder stands in a text. -/
def count (placeholder source : String) : Nat := occurrences placeholder.toList source.toList

/-- Is there a text in which the version is a part of the placeholder, or has one? -/
def completes (version placeholder : String) : Bool :=
  Text.mayBegin placeholder.toList version.toList || Text.mayBegin version.toList placeholder.toList

theorem apart : Text.Apart plugin.toList server.toList := by
  constructor <;> decide

/-! ## Texts and their characters -/

theorem ofList_eq_iff {cs : List Char} {s : String} : String.ofList cs = s ↔ cs = s.toList := by
  constructor
  · rintro rfl
    rw [String.toList_ofList]
  · rintro rfl
    rw [String.ofList_toList]

theorem forall_source_iff {P : List Char → Prop} :
    (∀ source : String, P source.toList) ↔ ∀ cs, P cs := by
  constructor
  · intro h cs
    have hcs := h (String.ofList cs)
    rwa [String.toList_ofList] at hcs
  · intro h source
    exact h source.toList

theorem toList_replace (pattern insert source : String) :
    (Text.replace pattern insert source).toList =
      replaceChars pattern.toList insert.toList source.toList := by
  rw [Text.replace, String.toList_ofList]

theorem completes_eq_false_iff {version placeholder : String} :
    completes version placeholder = false ↔
      Text.mayBegin placeholder.toList version.toList = false ∧
      Text.mayBegin version.toList placeholder.toList = false := by
  rw [completes, Bool.or_eq_false_iff]

/-! ## Where the two ways agree -/

theorem stamp_eq_iff (pluginVersion serverVersion source : String) :
    stamp pluginVersion serverVersion source = stampOnce pluginVersion serverVersion source ↔
      serverVersion = server ∨
        count server (Text.replace plugin pluginVersion source) = count server source := by
  rw [stamp, stampOnce, Text.replace, String.ofList_inj, toList_replace,
    apart.replaceChars_twice_iff, String.toList_inj, count, count, toList_replace]

theorem stampServerFirst_eq_iff (pluginVersion serverVersion source : String) :
    stampServerFirst pluginVersion serverVersion source =
        stampOnce pluginVersion serverVersion source ↔
      pluginVersion = plugin ∨
        count plugin (Text.replace server serverVersion source) = count plugin source := by
  rw [stampServerFirst, stampOnce, Text.replace, String.ofList_inj, toList_replace,
    apart.replaceBoth_comm, apart.symm.replaceChars_twice_iff, String.toList_inj, count, count,
    toList_replace]

/-- A pass adds no placeholder of the other kind exactly if the version completes none. -/
theorem count_replace_iff {first second : String}
    (h : Text.Apart first.toList second.toList) (hlong : second.toList.tail ≠ [])
    (version : String) :
    (∀ source, count second (Text.replace first version source) = count second source) ↔
      completes version second = false := by
  rw [completes_eq_false_iff, ← h.occurrences_replaceChars_iff hlong, ← forall_source_iff]
  simp only [count, toList_replace]

/-- Stamping agrees with the replacement in one pass on those sources in which the version of
the plugin completes no placeholder of the server, and on all others only if the version of
the server is that placeholder.  So it does on all sources for the versions of the plugin that
complete none in any text.  The same holds for the opposite order of the two passes, with
the versions changed round.  A version of the plugin that is the placeholder of the server is
always expanded again. -/
theorem stamp_eq_stampOnce_iff (pluginVersion serverVersion : String) :
    (∀ source,
      stamp pluginVersion serverVersion source = stampOnce pluginVersion serverVersion source ↔
        serverVersion = server ∨
          count server (Text.replace plugin pluginVersion source) = count server source) ∧
    ((∀ source,
      stamp pluginVersion serverVersion source = stampOnce pluginVersion serverVersion source) ↔
        serverVersion = server ∨ completes pluginVersion server = false) ∧
    ((∀ source, stampServerFirst pluginVersion serverVersion source =
        stampOnce pluginVersion serverVersion source) ↔
      pluginVersion = plugin ∨ completes serverVersion plugin = false) ∧
    stamp server serverVersion plugin = serverVersion ∧
    stampOnce server serverVersion plugin = server := by
  refine ⟨stamp_eq_iff pluginVersion serverVersion, ?_, ?_, ?_, ?_⟩
  · rw [← count_replace_iff apart (by decide)]
    simp only [stamp_eq_iff, forall_or_left]
  · rw [← count_replace_iff apart.symm (by decide)]
    simp only [stampServerFirst_eq_iff, forall_or_left]
  · have hall := Text.replaceChars_append apart.left_ne_nil (i := server.toList) []
    have hnext := Text.replaceChars_append apart.right_ne_nil (i := serverVersion.toList) []
    rw [Text.replaceChars_nil apart.left_ne_nil, List.append_nil, List.append_nil] at hall
    rw [Text.replaceChars_nil apart.right_ne_nil, List.append_nil, List.append_nil] at hnext
    rw [stamp, Text.replace, ofList_eq_iff, toList_replace, hall, hnext]
  · have hall := Text.replaceBoth_append_left apart.left_ne_nil (i := server.toList)
      (q := server.toList) (j := serverVersion.toList) []
    rw [Text.replaceBoth, List.append_nil, List.append_nil] at hall
    rw [stampOnce, ofList_eq_iff, hall]

end DocStamp.Placeholder
