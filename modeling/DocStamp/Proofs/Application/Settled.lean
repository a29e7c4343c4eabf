/-
# Stamping settles for ordinary versions

An ordinary version has a digit and no brace.  Placeholders begin and
end with braces and have no digit, so such a version is no part of a
placeholder, nor is a placeholder part of it, whatever stands around it.

Hence no placeholder is left in a stamped text.  Stamping it once more
changes nothing (`stamp_stamp`), an application may be set up any number
of times, and the order of the two passes is not seen.
-/
import DocStamp.Proofs.Application.Registry
import DocStamp.Proofs.Placeholder
import Mathlib.Logic.Function.Iterate

namespace DocStamp.Placeholder

/-- A version as projects have them: there is a digit in it, and no brace. -/
structure Ordinary (version : String) : Prop where
  digit : ∃ c ∈ version.toList, c.isDigit = true
  no_open : '\x7b' ∉ version.toList
  no_close : '\x7d' ∉ version.toList

/-- What a placeholder looks like: braces at both ends, and no digit. -/
structure Braced (placeholder : List Char) : Prop where
  head : placeholder.head? = some '\x7b'
  last : placeholder.getLast? = some '\x7d'
  no_digit : ∀ c ∈ placeholder, c.isDigit = false

theorem braced_plugin : Braced plugin.toList := by
  refine ⟨by decide, by decide, ?_⟩
  simp [plugin]

theorem braced_server : Braced server.toList := by
  refine ⟨by decide, by decide, ?_⟩
  simp [server]

section

variable {version placeholder : String} (hv : Ordinary version)
  (hp : Braced placeholder.toList)

include hv hp

/-- No placeholder begins inside an ordinary version: it would begin with a brace. -/
theorem Ordinary.mayBegin_in :
    Text.mayBegin placeholder.toList version.toList = false := by
  refine Bool.eq_false_iff.2 fun hyes => ?_
  obtain ⟨x, y, hxy, hy, hor⟩ := Text.mayBegin_iff.1 hyes
  have hhead : y.head? = some '\x7b' := by
    obtain ⟨c, cs, rfl⟩ := List.exists_cons_of_ne_nil hy
    rcases hor with ⟨t, ht⟩ | ⟨t, ht⟩
    · have hhead := hp.head
      rw [← ht] at hhead
      exact hhead
    · obtain ⟨d, ds, hd⟩ := List.exists_cons_of_ne_nil
        (List.ne_nil_of_mem (List.mem_of_head? hp.head))
      have hhead := hp.head
      rw [hd] at hhead ht
      rw [← ht]
      exact hhead
  have hmem : '\x7b' ∈ x ++ y := List.mem_append_right x (List.mem_of_head? hhead)
  rw [← hxy] at hmem
  exact hv.no_open hmem

theorem Ordinary.mayBegin_across :
    Text.mayBegin version.toList placeholder.toList = false := by
  refine Bool.eq_false_iff.2 fun hyes => ?_
  obtain ⟨x, y, hxy, hy, hpre | hpre⟩ := Text.mayBegin_iff.1 hyes
  · have hlast : y.getLast? = some '\x7d' := by
      rw [← hp.last, hxy, List.getLast?_append, List.getLast?_eq_some_getLast hy, Option.some_or]
    exact hv.no_close (hpre.subset (List.mem_of_getLast? hlast))
  · obtain ⟨c, hc, hdigit⟩ := hv.digit
    have hmem : c ∈ placeholder.toList := by
      rw [hxy]
      exact List.mem_append_right x (hpre.subset hc)
    rw [hp.no_digit c hmem] at hdigit
    cases hdigit

end

/-! ## Texts without placeholders -/

section

variable {pluginVersion serverVersion : String} (hp : Ordinary pluginVersion)
  (hs : Ordinary serverVersion)

theorem stamp_eq_self {source : String} (hplugin : count plugin source = 0)
    (hserver : count server source = 0) : stamp pluginVersion serverVersion source = source := by
  have hfirst : Text.replace plugin pluginVersion source = source := by
    rw [Text.replace, ofList_eq_iff]
    exact Text.replaceChars_eq_self apart.left_ne_nil hplugin
  rw [stamp, hfirst, Text.replace, ofList_eq_iff]
  exact Text.replaceChars_eq_self apart.right_ne_nil hserver

include hs

theorem count_server_stamp (source : String) :
    count server (stamp pluginVersion serverVersion source) = 0 := by
  rw [count, stamp, toList_replace]
  exact apart.occurrences_replaceChars_self (hs.mayBegin_in braced_server)
    (hs.mayBegin_across braced_server) _

include hp

/-- The first pass leaves no placeholder of the plugin, and the second one brings none back. -/
theorem count_plugin_stamp (source : String) :
    count plugin (stamp pluginVersion serverVersion source) = 0 := by
  rw [count, stamp, toList_replace, apart.symm.occurrences_eq (hs.mayBegin_in braced_plugin)
    (hs.mayBegin_across braced_plugin), toList_replace]
  exact apart.symm.occurrences_replaceChars_self (hp.mayBegin_in braced_plugin)
    (hp.mayBegin_across braced_plugin) _

theorem stamp_stamp (source : String) :
    stamp pluginVersion serverVersion (stamp pluginVersion serverVersion source) =
      stamp pluginVersion serverVersion source :=
  stamp_eq_self (count_plugin_stamp hp hs source) (count_server_stamp hs source)

/-- Both orders of the passes are the replacement in one pass. -/
theorem stampServerFirst_eq_stamp (source : String) :
    stampServerFirst pluginVersion serverVersion source =
      stamp pluginVersion serverVersion source := by
  have hplugin := (count_replace_iff apart (by decide) pluginVersion).2
    (completes_eq_false_iff.2 ⟨hp.mayBegin_in braced_server, hp.mayBegin_across braced_server⟩)
  have hserver := (count_replace_iff apart.symm (by decide) serverVersion).2
    (completes_eq_false_iff.2 ⟨hs.mayBegin_in braced_plugin, hs.mayBegin_across braced_plugin⟩)
  rw [(stampServerFirst_eq_iff _ _ source).2 (.inr (hserver source)),
    (stamp_eq_iff _ _ source).2 (.inr (hplugin source))]

end

end DocStamp.Placeholder

namespace DocStamp.Application

open Placeholder (Ordinary)

/-! ## Set up any number of times -/

theorem config_iterate_setup (app : Application) (k : Nat) :
    (setup^[k] app).config = app.config := by
  induction k with
  | zero => rfl
  | succ k ih =>
      rw [Function.iterate_succ_apply']
      exact ih

theorem hooksAt_iterate_setup (app : Application) (k : Nat) :
    (setup^[k] app).registry.hooksAt .sourceRead = app.registry.hooksAt .sourceRead ++
      List.replicate k (stampHook app.config.versions.plugin app.config.versions.server) := by
  induction k with
  | zero => simp
  | succ k ih =>
      rw [Function.iterate_succ_apply', setup, connect, config_iterate_setup,
        Registry.hooksAt_add, ih, List.replicate_succ', List.append_assoc]

/-- A hook that changes nothing the second time does at any number of places what it does at
one. -/
theorem foldl_replicate_of_idempotent {hook : Hook} {view : View} {docname : String}
    (h : ∀ text, hook view docname (hook view docname text) = hook view docname text) (k : Nat)
    (source : String) :
    (List.replicate (k + 1) hook).foldl (fun text hook => hook view docname text) source =
      hook view docname source := by
  induction k with
  | zero => rfl
  | succ k ih =>
      rw [List.replicate_succ', List.foldl_append, ih]
      exact h source

theorem emit_iterate_setup {config : Config} (hp : Ordinary config.versions.plugin)
    (hs : Ordinary config.versions.server) (k : Nat) (docname source : String) :
    (setup^[k + 1] (new config)).emit docname source =
      Placeholder.stamp config.versions.plugin config.versions.server source := by
  have hnone : (new config).registry.hooksAt .sourceRead = [] := rfl
  rw [emit, hooksAt_iterate_setup, hnone, List.nil_append]
  exact foldl_replicate_of_idempotent (fun text => Placeholder.stamp_stamp hp hs text) k source

/-- With ordinary versions no placeholder is left in a stamped text, and stamping it again
changes nothing.  So an application that was set up once or more gives every document the same
text, however often.  The passes may be made in either order. -/
theorem stamp_leaves_no_placeholder {pluginVersion serverVersion : String}
    (hp : Ordinary pluginVersion) (hs : Ordinary serverVersion) (source : String) :
    let stamped := Placeholder.stamp pluginVersion serverVersion source
    (¬ Placeholder.plugin.toList <:+: stamped.toList ∧
      ¬ Placeholder.server.toList <:+: stamped.toList) ∧
    Placeholder.stamp pluginVersion serverVersion stamped = stamped ∧
    (∀ config : Config, config.versions.plugin = pluginVersion →
      config.versions.server = serverVersion → ∀ k, 1 ≤ k → ∀ docname,
        (setup^[k] (new config)).emit docname source = stamped) ∧
    Placeholder.stampServerFirst pluginVersion serverVersion source = stamped := by
  intro stamped
  refine ⟨⟨?_, ?_⟩, Placeholder.stamp_stamp hp hs source, ?_,
    Placeholder.stampServerFirst_eq_stamp hp hs source⟩
  · exact Text.not_infix_of_occurrences Placeholder.apart.left_ne_nil
      (Placeholder.count_plugin_stamp hp hs source)
  · exact Text.not_infix_of_occurrences Placeholder.apart.right_ne_nil
      (Placeholder.count_server_stamp hs source)
  · rintro config rfl rfl k hk docname
    obtain ⟨k, rfl⟩ := Nat.exists_eq_add_of_le' hk
    exact emit_iterate_setup hp hs k docname source

/-- A placeholder inside the start and the end of another one: the version that comes to stand
there completes nothing. -/
theorem stamp_leaves_no_placeholder_nested :
    Ordinary "1.3.0-SNAPSHOT" ∧ Ordinary "5.10.2" ∧
    Placeholder.stamp "1.3.0-SNAPSHOT" "5.10.2"
        "\x7b\x7b YAMCS_\x7b\x7b YAMCS_VERSION \x7d\x7dPLUGIN_VERSION \x7d\x7d" =
      "\x7b\x7b YAMCS_5.10.2PLUGIN_VERSION \x7d\x7d" ∧
    Placeholder.stamp "1.3.0-SNAPSHOT" "5.10.2"
        "\x7b\x7b YAMCS_5.10.2PLUGIN_VERSION \x7d\x7d" =
      "\x7b\x7b YAMCS_5.10.2PLUGIN_VERSION \x7d\x7d" := by
  have hp : Ordinary "1.3.0-SNAPSHOT" := ⟨⟨'1', by decide, by decide⟩, by decide, by decide⟩
  have hs : Ordinary "5.10.2" := ⟨⟨'5', by decide, by decide⟩, by decide, by decide⟩
  have hstamped : Placeholder.stamp "1.3.0-SNAPSHOT" "5.10.2"
        "\x7b\x7b YAMCS_\x7b\x7b YAMCS_VERSION \x7d\x7dPLUGIN_VERSION \x7d\x7d" =
      "\x7b\x7b YAMCS_5.10.2PLUGIN_VERSION \x7d\x7d" := by decide +kernel
  have hagain := (stamp_leaves_no_placeholder hp hs
    "\x7b\x7b YAMCS_\x7b\x7b YAMCS_VERSION \x7d\x7dPLUGIN_VERSION \x7d\x7d").2.1
  rw [hstamped] at hagain
  exact ⟨hp, hs, hstamped, hagain⟩

end DocStamp.Application
