/-
# Only two places of a manifest matter

Names lead from an element to another, each to the first child of that
name in the name space of manifests (`reach?`).  Two links hold a text:
the version of the project, and the server version among its properties.

What is said about a project depends on what can be seen there and on
nothing else (`versionsOf_congr`): not on other elements, nor on any
attribute, short name or name space elsewhere.  If it is an error, it is
about the first link that is broken (`versionsOf_cases`).
-/
import DocStamp.Manifest
import DocStamp.Proofs.Text.Blank
import DocStamp.Proofs.Xml.Document

namespace DocStamp.Manifest

/-! ## Following names -/

def tag (n : String) : Xml.Name := ⟨some nameSpace, n⟩

/-- The element that the names lead to, each a direct child of the one before. -/
def reach? (node : Xml.Node) : List String → Option Xml.Node
  | [] => some node
  | n :: names => (node.child? (tag n)).bind (reach? · names)

theorem reach?_append (node : Xml.Node) (a b : List String) :
    reach? node (a ++ b) = (reach? node a).bind (reach? · b) := by
  induction a generalizing node with
  | nil => rfl
  | cons n a ih =>
      rw [List.cons_append, reach?, reach?]
      cases node.child? (tag n) with
      | none => rfl
      | some child => exact ih child

theorem reach?_of_append {node target : Xml.Node} {a b : List String}
    (h : reach? node (a ++ b) = some target) : reach? node a ≠ none := by
  intro hnone
  rw [reach?_append, hnone] at h
  cases h

/-- Names that lead somewhere are followed to their end.  Of others, the error tells how far
they lead, and one name more. -/
theorem descend_cases (node : Xml.Node) (passed names : List String) :
    (∃ target, reach? node names = some target ∧ descend node passed names = .ok target) ∨
    ∃ before n, before ++ [n] <+: names ∧ reach? node before ≠ none ∧
      reach? node (before ++ [n]) = none ∧
      descend node passed names = .error (.missing (passed ++ (before ++ [n]))) := by
  induction names generalizing node passed with
  | nil => exact .inl ⟨node, rfl, rfl⟩
  | cons n names ih =>
      unfold descend
      cases hchild : node.child? ⟨some nameSpace, n⟩ with
      | none =>
          refine .inr ⟨[], n, ⟨names, rfl⟩, by simp [reach?], ?_, rfl⟩
          simp [reach?, tag, hchild]
      | some child =>
          have hstep : ∀ l, reach? node (n :: l) = reach? child l := by
            intro l
            simp [reach?, tag, hchild]
          rcases ih child (passed ++ [n]) with
            ⟨target, hreach, hok⟩ | ⟨before, m, hpre, hbefore, hnone, herror⟩
          · exact .inl ⟨target, by rw [hstep, hreach], hok⟩
          · refine .inr ⟨n :: before, m, ?_, by rwa [hstep], ?_, ?_⟩
            · exact (List.prefix_append_right_inj [n]).2 hpre
            · rw [List.cons_append, hstep, hnone]
            · show descend child (passed ++ [n]) names = _
              rw [herror, List.append_assoc]
              rfl

/-! ## What is seen -/

/-- What can be seen of the text that a link should hold: nothing if it leads nowhere. -/
def shown (root : Xml.Node) (link : List String) : Option (Option String) :=
  (reach? root link).map (·.leadingText?)

/-- The text that an element holds, if it is more than blanks. -/
def held? (node : Xml.Node) : Option String :=
  (node.leadingText?.map Text.trim).filter (· ≠ "")

theorem held?_of_leadingText? {node : Xml.Node} {s t : String} (h : node.leadingText? = some s)
    (htrim : Text.trim s = t) (hne : t ≠ "") : held? node = some t := by
  simp only [held?, h, Option.map_some, htrim, Option.filter_some, ne_eq, hne, not_false_eq_true,
    decide_true, if_true]

theorem trimmed_of_held? {node : Xml.Node} {t : String} (h : held? node = some t) :
    Text.Trimmed t := by
  obtain ⟨hmap, hne⟩ := Option.filter_eq_some_iff.1 h
  obtain ⟨s, -, rfl⟩ := Option.map_eq_some_iff.1 hmap
  exact Text.trimmed_trim (by simpa using hne)

theorem requiredText_eq (root : Xml.Node) (names : List String) :
    requiredText root names = (do
      let node ← descend root [] names
      match held? node with
      | some text => return text
      | none => throw (.blank names)) := by
  unfold requiredText held?
  cases descend root [] names with
  | error e => rfl
  | ok node =>
      simp only [bind, Except.bind]
      cases node.leadingText?.map Text.trim with
      | none => rfl
      | some text =>
          by_cases h : text = ""
          · simp [h, Option.filter]
          · simp [h, Option.filter]

theorem requiredText_of_held? {root node : Xml.Node} {names : List String} {t : String}
    (hreach : reach? root names = some node) (hheld : held? node = some t) :
    requiredText root names = .ok t := by
  rw [requiredText_eq]
  rcases descend_cases root [] names with ⟨target, htarget, hok⟩ | ⟨before, n, hpre, -, hnone, -⟩
  · obtain rfl := Option.some.inj (htarget.symm.trans hreach)
    simp only [hok, bind, Except.bind, hheld]
    rfl
  · obtain ⟨more, rfl⟩ := hpre
    exact absurd hnone (reach?_of_append hreach)

theorem requiredText_of_shown {root : Xml.Node} {names : List String} {t : String}
    (h : shown root names = some (some t)) (ht : Text.Trimmed t) :
    requiredText root names = .ok t := by
  obtain ⟨node, hreach, htext⟩ := Option.map_eq_some_iff.1 h
  have htrim : Text.trim t = t := by
    simpa using Text.trim_append (List.forall_mem_nil _) (List.forall_mem_nil _) ht
  exact requiredText_of_held? hreach (held?_of_leadingText? htext htrim ht.ne_empty)

theorem requiredText_of_blank {root node : Xml.Node} {names : List String}
    (hok : descend root [] names = .ok node) (hheld : held? node = none) :
    requiredText root names = .error (.blank names) := by
  simp only [requiredText_eq, hok, bind, Except.bind, hheld]
  rfl

theorem requiredText_of_missing {root : Xml.Node} {names : List String} {e : Error}
    (herror : descend root [] names = .error e) : requiredText root names = .error e := by
  rw [requiredText_eq, herror]
  rfl

/-- What is wrong with a link: it leads nowhere, or to an element that should hold a text. -/
inductive Broken (root : Xml.Node) (link : List String) : Error → Prop
  | missing : reach? root link = none → Broken root link (.missing link)
  | blank {node : Xml.Node} : link ≠ ["properties"] → reach? root link = some node →
      held? node = none → Broken root link (.blank link)

/-- The links of a manifest, in the order in which they are looked at. -/
def links : List (List String) := [["version"], ["properties"], ["properties", "yamcsVersion"]]

example : links.map pathText =
    ["project/version", "project/properties", "project/properties/yamcsVersion"] := by
  decide

section

variable {root : Xml.Node}

theorem not_broken_of_held? {link : List String} {node : Xml.Node} {t : String}
    (hreach : reach? root link = some node) (hheld : held? node = some t) :
    ∀ e, ¬ Broken root link e := by
  intro e h
  cases h with
  | missing hnone => cases hnone.symm.trans hreach
  | blank _ hreach' hnone =>
      obtain rfl := Option.some.inj (hreach'.symm.trans hreach)
      cases hnone.symm.trans hheld

theorem not_broken_properties (h : reach? root ["properties"] ≠ none) :
    ∀ e, ¬ Broken root ["properties"] e := by
  intro e hbroken
  cases hbroken with
  | missing hnone => exact h hnone
  | blank hne => exact hne rfl

theorem requiredText_version (root : Xml.Node) :
    (∃ node t, reach? root ["version"] = some node ∧ held? node = some t ∧
      requiredText root ["version"] = .ok t) ∨
    ∃ e, requiredText root ["version"] = .error e ∧ Broken root ["version"] e := by
  rcases descend_cases root [] ["version"] with
    ⟨node, hreach, hok⟩ | ⟨before, n, hpre, hbefore, hnone, herror⟩
  · cases hheld : held? node with
    | some t => exact .inl ⟨node, t, hreach, hheld, requiredText_of_held? hreach hheld⟩
    | none => exact .inr ⟨_, requiredText_of_blank hok hheld, .blank (by simp) hreach hheld⟩
  · obtain ⟨rfl, rfl⟩ : before = [] ∧ n = "version" := by
      cases before with
      | nil => exact ⟨rfl, by simpa using hpre⟩
      | cons m ms => simpa using hpre.length_le
    exact .inr ⟨_, requiredText_of_missing herror, .missing hnone⟩

/-- The server's version is the text of its link, or one of its two links is broken. -/
theorem requiredText_server (root : Xml.Node) :
    (∃ node t, reach? root ["properties", "yamcsVersion"] = some node ∧ held? node = some t ∧
      requiredText root ["properties", "yamcsVersion"] = .ok t) ∨
    ∃ e, requiredText root ["properties", "yamcsVersion"] = .error e ∧
      (Broken root ["properties"] e ∨
        reach? root ["properties"] ≠ none ∧ Broken root ["properties", "yamcsVersion"] e) := by
  rcases descend_cases root [] ["properties", "yamcsVersion"] with
    ⟨node, hreach, hok⟩ | ⟨before, n, hpre, hbefore, hnone, herror⟩
  · cases hheld : held? node with
    | some t => exact .inl ⟨node, t, hreach, hheld, requiredText_of_held? hreach hheld⟩
    | none =>
        exact .inr ⟨_, requiredText_of_blank hok hheld,
          .inr ⟨reach?_of_append (a := ["properties"]) hreach, .blank (by simp) hreach hheld⟩⟩
  · have herror := requiredText_of_missing herror
    cases before with
    | nil =>
        obtain rfl : n = "properties" := by simpa using hpre
        exact .inr ⟨_, herror, .inl (.missing hnone)⟩
    | cons m ms =>
        obtain ⟨rfl, hrest⟩ := List.cons_prefix_cons.1 hpre
        cases ms with
        | nil =>
            obtain rfl : n = "yamcsVersion" := by simpa using hrest
            exact .inr ⟨_, herror, .inr ⟨hbefore, .missing hnone⟩⟩
        | cons k ks => simpa using hrest.length_le

theorem versionsOf_eq (hroot : root.name = tag "project") : versionsOf root = (do
    let plugin ← requiredText root ["version"]
    let server ← requiredText root ["properties", "yamcsVersion"]
    return ⟨plugin, plugin, server⟩) := by
  unfold versionsOf
  simp only [hroot, tag, ne_eq, not_true_eq_false, if_false]

/-- A project declares two versions, or the first link that is broken tells what is wrong. -/
theorem versionsOf_cases (hroot : root.name = tag "project") :
    (∃ plugin server, versionsOf root = .ok ⟨plugin, plugin, server⟩ ∧
      Text.Trimmed plugin ∧ Text.Trimmed server ∧ ∀ link ∈ links, ∀ e, ¬ Broken root link e) ∨
    ∃ before link after e, links = before ++ link :: after ∧ versionsOf root = .error e ∧
      Broken root link e ∧ ∀ l ∈ before, ∀ e', ¬ Broken root l e' := by
  rw [versionsOf_eq hroot]
  rcases requiredText_version root with
    ⟨node, plugin, hreach, hheld, hok⟩ | ⟨e, herror, hbroken⟩
  · have hversion := not_broken_of_held? hreach hheld
    rw [hok]
    rcases requiredText_server root with
      ⟨node', server, hreach', hheld', hok'⟩ | ⟨e, herror', hbroken'⟩
    · have hproperties := reach?_of_append (a := ["properties"]) hreach'
      refine .inl ⟨plugin, server, by rw [hok']; rfl, trimmed_of_held? hheld,
        trimmed_of_held? hheld', ?_⟩
      simp only [links, List.mem_cons, List.not_mem_nil, or_false]
      rintro link (rfl | rfl | rfl)
      · exact hversion
      · exact not_broken_properties hproperties
      · exact not_broken_of_held? hreach' hheld'
    · rcases hbroken' with hbroken' | ⟨hproperties, hbroken'⟩
      · refine .inr ⟨[["version"]], ["properties"], _, e, rfl, by rw [herror']; rfl, hbroken', ?_⟩
        rintro l hl
        exact List.mem_singleton.1 hl ▸ hversion
      · refine .inr ⟨[["version"], ["properties"]], ["properties", "yamcsVersion"], [], e, rfl,
          by rw [herror']; rfl, hbroken', ?_⟩
        simp only [List.mem_cons, List.not_mem_nil, or_false]
        rintro l (rfl | rfl)
        · exact hversion
        · exact not_broken_properties hproperties
  · exact .inr ⟨[], ["version"], _, e, rfl, by rw [herror]; rfl, hbroken, by simp⟩

end

/-! ## Two manifests -/

/-- Two elements show the same at the places that count. -/
structure Agree (a b : Xml.Node) : Prop where
  version : shown a ["version"] = shown b ["version"]
  properties : (reach? a ["properties"]).isSome = (reach? b ["properties"]).isSome
  server : shown a ["properties", "yamcsVersion"] = shown b ["properties", "yamcsVersion"]

theorem isSome_of_shown {a b : Xml.Node} {link : List String} (h : shown a link = shown b link) :
    (reach? a link).isSome = (reach? b link).isSome := by
  have := congrArg Option.isSome h
  simpa [shown] using this

theorem descend_congr {a b : Xml.Node} (passed : List String) {names : List String}
    (h : ∀ l, l <+: names → (reach? a l).isSome = (reach? b l).isSome) :
    (∃ x y, reach? a names = some x ∧ reach? b names = some y ∧
      descend a passed names = .ok x ∧ descend b passed names = .ok y) ∨
    ∃ e, descend a passed names = .error e ∧ descend b passed names = .error e := by
  induction names generalizing a b passed with
  | nil => exact .inl ⟨a, b, rfl, rfl, rfl, rfl⟩
  | cons n names ih =>
      have hfirst := h [n] ⟨names, rfl⟩
      simp only [reach?, tag] at hfirst
      unfold descend
      cases ha : a.child? ⟨some nameSpace, n⟩ with
      | none =>
          cases hb : b.child? ⟨some nameSpace, n⟩ with
          | none => exact .inr ⟨_, rfl, rfl⟩
          | some y => simp [ha, hb] at hfirst
      | some x =>
          cases hb : b.child? ⟨some nameSpace, n⟩ with
          | none => simp [ha, hb] at hfirst
          | some y =>
              have hbelow : ∀ l, l <+: names → (reach? x l).isSome = (reach? y l).isSome := by
                intro l hl
                have := h (n :: l) (List.cons_prefix_cons.2 ⟨rfl, hl⟩)
                simpa [reach?, tag, ha, hb] using this
              rcases ih (passed ++ [n]) hbelow with ⟨x', y', hx, hy, hok⟩ | hsame
              · exact .inl ⟨x', y', by simp [reach?, tag, ha, hx], by simp [reach?, tag, hb, hy], hok⟩
              · exact .inr hsame

theorem requiredText_congr {a b : Xml.Node} {names : List String}
    (h : ∀ l, l <+: names → (reach? a l).isSome = (reach? b l).isSome)
    (hshown : shown a names = shown b names) : requiredText a names = requiredText b names := by
  rw [requiredText_eq, requiredText_eq]
  rcases descend_congr [] h with ⟨x, y, hx, hy, hokx, hoky⟩ | ⟨e, ha, hb⟩
  · have htext : x.leadingText? = y.leadingText? := by
      rw [shown, shown, hx, hy] at hshown
      exact Option.some.inj hshown
    rw [hokx, hoky]
    simp only [bind, Except.bind, held?, htext]
  · rw [ha, hb]

theorem versionsOf_congr {a b : Xml.Node} (hname : a.name = b.name) (h : Agree a b) :
    versionsOf a = versionsOf b := by
  have hversion : requiredText a ["version"] = requiredText b ["version"] := by
    refine requiredText_congr (fun l hl => ?_) h.version
    rcases List.prefix_cons_iff.1 hl with rfl | ⟨l, rfl, hnil⟩
    · rfl
    · obtain rfl := List.prefix_nil.1 hnil
      exact isSome_of_shown h.version
  have hserver : requiredText a ["properties", "yamcsVersion"] =
      requiredText b ["properties", "yamcsVersion"] := by
    refine requiredText_congr (fun l hl => ?_) h.server
    rcases List.prefix_cons_iff.1 hl with rfl | ⟨l, rfl, hrest⟩
    · rfl
    · rcases List.prefix_cons_iff.1 hrest with rfl | ⟨l, rfl, hnil⟩
      · exact h.properties
      · obtain rfl := List.prefix_nil.1 hnil
        exact isSome_of_shown h.server
  unfold versionsOf
  rw [hname, hversion, hserver]

/-- Two documents with a project for their root that show the same at the two places give the
same versions or the same error.  Versions are trimmed, and the version of the plugin is the
one that is released; an error is about the first link that is broken. -/
theorem parse_depends_on_two_places {a b : String} {ra rb : Xml.Node}
    (ha : Xml.parse a = .ok ra) (hb : Xml.parse b = .ok rb)
    (hra : ra.name = tag "project") (hrb : rb.name = tag "project") (hagree : Agree ra rb) :
    parse a = parse b ∧
    ((∃ plugin server, parse a = .ok ⟨plugin, plugin, server⟩ ∧
        Text.Trimmed plugin ∧ Text.Trimmed server ∧ ∀ link ∈ links, ∀ e, ¬ Broken ra link e) ∨
      ∃ before link after e, links = before ++ link :: after ∧ parse a = .error e ∧
        Broken ra link e ∧ ∀ l ∈ before, ∀ e', ¬ Broken ra l e') := by
  have hparse : ∀ {text root}, Xml.parse text = .ok root → parse text = versionsOf root := by
    intro text root h
    rw [parse, h]
  rw [hparse ha, hparse hb]
  exact ⟨versionsOf_congr (hra.trans hrb.symm) hagree, versionsOf_cases hra⟩

theorem exists_root {text : String} {P : Xml.Node → Prop} [DecidablePred P]
    (h : (Xml.parse text).toOption.any (fun r => decide (P r)) = true) :
    ∃ r, Xml.parse text = .ok r ∧ P r := by
  cases hparse : Xml.parse text with
  | error e =>
      rw [hparse] at h
      cases h
  | ok r =>
      rw [hparse] at h
      exact ⟨r, rfl, of_decide_eq_true h⟩

/-- A manifest with nothing but its versions. -/
def bareManifest : String :=
  "<project xmlns=\"http://maven.apache.org/POM/4.0.0\"><version>1.3.0</version>" ++
    "<properties><yamcsVersion>5.10.2</yamcsVersion></properties></project>"

/-- The same versions among others that do not count: outside of the name space, in the
parent, behind the first of their name. -/
def crowdedManifest : String :=
  "<m:project xmlns:m=\"http://maven.apache.org/POM/4.0.0\"><version>9</version>" ++
    "<m:parent><m:version>8</m:version></m:parent><m:version>1.3.0</m:version>" ++
    "<m:version>7</m:version><m:properties><m:yamcsVersion>5.10.2</m:yamcsVersion>" ++
    "</m:properties><m:properties/></m:project>"

/-- A project that shows these versions. -/
def ShowsSample (r : Xml.Node) : Prop :=
  r.name = tag "project" ∧ shown r ["version"] = some (some "1.3.0") ∧
    (reach? r ["properties"]).isSome = true ∧
    shown r ["properties", "yamcsVersion"] = some (some "5.10.2")

instance : DecidablePred ShowsSample := fun r => by unfold ShowsSample; infer_instance

theorem root_bareManifest : ∃ r, Xml.parse bareManifest = .ok r ∧ ShowsSample r :=
  exists_root (by decide +kernel)

theorem parse_bareManifest : parse bareManifest = .ok ⟨"1.3.0", "1.3.0", "5.10.2"⟩ := by
  obtain ⟨r, hparse, hname, hversion, -, hserver⟩ := root_bareManifest
  rw [parse, hparse]
  show versionsOf r = _
  rw [versionsOf_eq hname, requiredText_of_shown hversion (by decide +kernel),
    requiredText_of_shown hserver (by decide +kernel)]
  rfl

theorem parse_depends_on_two_places_crowded : ∃ ra rb,
    Xml.parse crowdedManifest = .ok ra ∧ Xml.parse bareManifest = .ok rb ∧ Agree ra rb ∧
      parse crowdedManifest = parse bareManifest ∧
      parse crowdedManifest = .ok ⟨"1.3.0", "1.3.0", "5.10.2"⟩ := by
  obtain ⟨ra, ha, hra, hversion, hproperties, hserver⟩ :
      ∃ r, Xml.parse crowdedManifest = .ok r ∧ ShowsSample r := exists_root (by decide +kernel)
  obtain ⟨rb, hb, hrb, hversion', hproperties', hserver'⟩ := root_bareManifest
  have hagree : Agree ra rb := ⟨hversion.trans hversion'.symm,
    hproperties.trans hproperties'.symm, hserver.trans hserver'.symm⟩
  have hsame := (parse_depends_on_two_places ha hb hra hrb hagree).1
  exact ⟨ra, rb, ha, hb, hagree, hsame, hsame.trans parse_bareManifest⟩

/-- A document type is no part of the tree, but a manifest that has one is refused. -/
theorem parse_doctype_differs :
    parse ("<!DOCTYPE project>" ++ bareManifest) = .error (.malformed .documentType) ∧
      parse bareManifest = .ok ⟨"1.3.0", "1.3.0", "5.10.2"⟩ := by
  have htext : "<!DOCTYPE project>" ++ bareManifest = String.ofList (Xml.prologue none ++
      ("<!DOCTYPE".toList ++ (" project>".toList ++ bareManifest.toList))) := by
    refine String.toList_injective ?_
    simp [Xml.prologue]
  refine ⟨?_, parse_bareManifest⟩
  rw [parse, htext, Xml.parse_doctype]

end DocStamp.Manifest
