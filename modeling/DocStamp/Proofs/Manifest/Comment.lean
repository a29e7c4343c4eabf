/-
# A comment in a manifest

A comment may stand anywhere in the content of a manifest that is
accepted: the manifest stays well-formed, and the elements that hold the
two versions are still found.  What can change is the text in them.  The
version is the character data that its element begins with, so a comment
inside of that element cuts it there.  If nothing but blanks is left in
front of the comment, the element counts as empty.

So a comment makes no difference exactly if what it leaves of the version
is the whole version (`parse_comment_cuts`).
-/
import DocStamp.Proofs.Manifest.Lookup
import DocStamp.Proofs.Xml.Insertion

namespace DocStamp.Xml

variable {spot : Spot} {old new : List Node}

/-! ## Places, level by level -/

def Item.isElement (name : Name) : Item → Bool
  | .node n => n.isElement name
  | .text _ => false

/-- The place as it is seen from the first child of a name, if it is in there. -/
def Spot.into? (name : Name) : Spot → Option Spot
  | .here _ => none
  | .inside before m spot =>
      if m = name ∧ before.all (!·.isElement name) then some spot else none

/-- The character data in front of a place, if nothing else is in front of it. -/
def Spot.text? : Spot → Option String
  | .here [] => some ""
  | .here [.text s] => some s
  | _ => none

/-- The character data that nodes begin with. -/
def leadingData : List Node → String
  | .text s :: _ => s
  | _ => ""

section

variable (name : Name) (s : String) (nodes : List Node)

theorem find?_consText :
    (Node.consText s nodes).find? (Node.isElement name) = nodes.find? (Node.isElement name) := by
  cases nodes with
  | nil => rfl
  | cons n nodes => cases n <;> rfl

theorem all_consText :
    (Node.consText s nodes).all (!·.isElement name) = nodes.all (!·.isElement name) := by
  cases nodes with
  | nil => rfl
  | cons n nodes => cases n <;> rfl

theorem leadingData_consText : leadingData (Node.consText s nodes) = s ++ leadingData nodes := by
  have hempty : s = s ++ "" := String.append_empty.symm
  cases nodes with
  | nil => exact hempty
  | cons n nodes =>
      cases n with
      | text t => rfl
      | element | comment | instruction => exact hempty

end

namespace Item

theorem all_push (name : Name) (item : Item) (nodes : List Node) :
    (item.push nodes).all (!·.isElement name) =
      (!item.isElement name && nodes.all (!·.isElement name)) := by
  cases item with
  | node n => rfl
  | text s => exact all_consText name s nodes

theorem find?_push_of_isElement {name : Name} {item : Item} (h : item.isElement name = true) :
    ∃ n, ∀ nodes, (item.push nodes).find? (Node.isElement name) = some n := by
  cases item with
  | node n => exact ⟨n, fun nodes => List.find?_cons_of_pos h⟩
  | text s => cases h

theorem find?_push_of_not {name : Name} {item : Item} (h : item.isElement name = false)
    (nodes : List Node) :
    (item.push nodes).find? (Node.isElement name) = nodes.find? (Node.isElement name) := by
  cases item with
  | node n => exact List.find?_cons_of_neg (Bool.eq_false_iff.1 h)
  | text s => exact find?_consText name s nodes

end Item

namespace Spot

theorem into?_behind (name : Name) (item : Item) (spot : Spot) :
    (spot.behind item).into? name = if item.isElement name then none else spot.into? name := by
  cases spot with
  | here before => cases item.isElement name <;> rfl
  | inside before m spot =>
      rw [behind, into?, into?, Item.all_push]
      cases item.isElement name <;> simp

theorem text?_behind_text (s : String) (spot : Spot) :
    (spot.behind (.text s)).text? = spot.text?.map (s ++ ·) := by
  cases spot with
  | inside before m spot => rfl
  | here before =>
      cases before with
      | nil => exact congrArg some String.append_empty.symm
      | cons n before =>
          cases n with
          | text t => cases before <;> rfl
          | element | comment | instruction => rfl

theorem text?_behind_node (n : Node) (spot : Spot) (nodes : List Node) :
    ((spot.behind (.node n)).text?).getD (leadingData (n :: nodes)) = leadingData (n :: nodes) := by
  cases spot with
  | inside before m spot => rfl
  | here before =>
      cases before with
      | nil => cases n <;> rfl
      | cons m before => cases n <;> rfl

end Spot

namespace Commented

/-- The character data that the nodes begin with ends at the comment, if it gets that far. -/
theorem leadingData_eq (h : Commented spot old new) :
    leadingData new = spot.text?.getD (leadingData old) := by
  induction h with
  | here | split | inside => rfl
  | @behind spot old new item _ ih =>
      cases item with
      | node n =>
          show leadingData (n :: new) = ((spot.behind (.node n)).text?).getD (leadingData (n :: old))
          rw [Spot.text?_behind_node]
          cases n <;> rfl
      | text s =>
          show leadingData (Node.consText s new) =
            ((spot.behind (.text s)).text?).getD (leadingData (Node.consText s old))
          rw [leadingData_consText, leadingData_consText, Spot.text?_behind_text, ih]
          cases spot.text? <;> rfl

/-- The first child of a name is the same as before, unless the comment is in it. -/
theorem find?_cases (h : Commented spot old new) (name : Name) :
    (spot.into? name = none ∧
      new.find? (Node.isElement name) = old.find? (Node.isElement name)) ∨
    ∃ inner a b, spot.into? name = some inner ∧ Commented inner a b ∧
      old.find? (Node.isElement name) = some (.element name a) ∧
      new.find? (Node.isElement name) = some (.element name b) := by
  induction h with
  | here nodes => exact .inl ⟨rfl, rfl⟩
  | split s s₁ s₂ nodes =>
      refine .inl ⟨rfl, ?_⟩
      show (Node.consText s₂ nodes).find? (Node.isElement name) = _
      rw [find?_consText, find?_consText]
  | @behind spot old new item _ ih =>
      rw [Spot.into?_behind]
      cases hitem : item.isElement name with
      | true =>
          obtain ⟨n, hn⟩ := Item.find?_push_of_isElement hitem
          exact .inl ⟨rfl, by rw [hn, hn]⟩
      | false =>
          rw [Item.find?_push_of_not hitem, Item.find?_push_of_not hitem]
          exact ih
  | @inside spot old new m nodes h ih =>
      by_cases hm : m = name
      · subst hm
        refine .inr ⟨spot, old, new, ?_, h, ?_, ?_⟩
        · exact if_pos ⟨rfl, rfl⟩
        · exact List.find?_cons_of_pos (beq_self_eq_true m)
        · exact List.find?_cons_of_pos (beq_self_eq_true m)
      · have hnot : ∀ children, ¬ Node.isElement name (.element m children) = true := by
          intro children
          simpa [Node.isElement] using hm
        refine .inl ⟨if_neg fun h => hm h.1, ?_⟩
        rw [List.find?_cons_of_neg (hnot _), List.find?_cons_of_neg (hnot _)]

end Commented

end DocStamp.Xml

namespace DocStamp.Manifest

open Xml (Commented Node Spot leadingData)

/-! ## The texts of a manifest -/

/-- The place as it is seen from the element that the names lead to, if it is in there. -/
def follow? (spot : Spot) : List String → Option Spot
  | [] => some spot
  | n :: names => (spot.into? (tag n)).bind (follow? · names)

/-- What a comment leaves of the text that a link should hold, if it cuts that text. -/
def cut? (spot : Spot) (link : List String) : Option String :=
  (follow? spot link).bind Spot.text?

/-- The version that a text declares at a link. -/
def declaredAt (link : List String) (s : String) : Except Error String :=
  if Text.trim s = "" then .error (.blank link) else .ok (Text.trim s)

theorem declaredAt_leadingData (link : List String) (node : Node) :
    (match node.leadingText?.map Text.trim with
      | some text => if text == "" then throw (.blank link) else return text
      | none => throw (.blank link)) = declaredAt link (leadingData node.children) := by
  have hblank : declaredAt link "" = .error (.blank link) := if_pos (by decide)
  rw [Node.leadingText?]
  cases node.children with
  | nil =>
      rw [leadingData, hblank]
      · rfl
      · simp
  | cons n children =>
      cases n with
      | text s =>
          rw [leadingData, declaredAt]
          simp only [Option.map_some, beq_iff_eq]
          split
          · rfl
          · rfl
      | element | comment | instruction =>
          rw [leadingData, hblank]
          · rfl
          · simp

theorem requiredText_eq_declaredAt (root : Node) (link : List String) :
    requiredText root link = (do declaredAt link (leadingData (← descend root [] link).children)) := by
  rw [requiredText]
  exact bind_congr (declaredAt_leadingData link)

theorem descend_cons (node : Node) (passed : List String) (n : String) (names : List String) :
    descend node passed (n :: names) = (node.child? (tag n)).elim
      (.error (.missing (passed ++ [n]))) (descend · (passed ++ [n]) names) := by
  rw [descend, tag]
  cases node.child? ⟨some nameSpace, n⟩ with
  | none => rfl
  | some child => rfl

section

variable {spot : Spot} {old new : List Node} (h : Commented spot old new)

include h

/-- Names lead to the same element as before, or to that element with the comment in it. -/
theorem descend_commented (name : Xml.Name) (passed names : List String) :
    (follow? spot names = none ∧
      descend (.element name new) passed names = descend (.element name old) passed names) ∨
    ∃ inner m a b, follow? spot names = some inner ∧ Commented inner a b ∧
      descend (.element name old) passed names = .ok (.element m a) ∧
      descend (.element name new) passed names = .ok (.element m b) := by
  induction names generalizing spot old new name passed with
  | nil => exact .inr ⟨spot, name, old, new, rfl, h, rfl, rfl⟩
  | cons n names ih =>
      rw [follow?, descend_cons, descend_cons, Node.child?, Node.child?, Node.children,
        Node.children]
      rcases h.find?_cases (tag n) with
        ⟨hnone, hfind⟩ | ⟨inner, a, b, hinner, hcommented, hold, hnew⟩
      · exact .inl ⟨by rw [hnone]; rfl, by rw [hfind]⟩
      · rw [hinner, hold, hnew]
        exact ih hcommented (tag n) (passed ++ [n])

theorem requiredText_commented (name : Xml.Name) (link : List String) :
    requiredText (.element name new) link =
      (cut? spot link).elim (requiredText (.element name old) link) (declaredAt link) := by
  rw [requiredText_eq_declaredAt, requiredText_eq_declaredAt, cut?]
  rcases descend_commented h name [] link with
    ⟨hnone, hsame⟩ | ⟨inner, m, a, b, hinner, hcommented, hold, hnew⟩
  · rw [hnone, hsame]
    rfl
  · rw [hinner, hold, hnew, Option.bind_some]
    simp only [bind, Except.bind, Node.children, hcommented.leadingData_eq]
    cases inner.text? with
    | none => rw [Option.getD_none, Option.elim_none]
    | some s => rw [Option.getD_some, Option.elim_some]

end

/-! ## Whole manifests -/

theorem declaredAt_eq_ok_iff {link : List String} {s v : String} :
    declaredAt link s = .ok v ↔ Text.trim s = v ∧ v ≠ "" := by
  rw [declaredAt]
  split
  · rename_i hblank
    constructor
    · intro h
      cases h
    · rintro ⟨rfl, hne⟩
      exact absurd hblank hne
  · rename_i hne
    constructor
    · intro h
      obtain rfl := Except.ok.inj h
      exact ⟨rfl, hne⟩
    · rintro ⟨rfl, -⟩
      rfl

theorem ne_empty_of_requiredText {root : Node} {link : List String} {v : String}
    (h : requiredText root link = .ok v) : v ≠ "" := by
  rw [requiredText_eq_declaredAt] at h
  obtain ⟨node, -, hdeclared⟩ := Xml.ok_of_bind h
  exact (declaredAt_eq_ok_iff.1 hdeclared).2

theorem elim_declaredAt_eq_ok_iff {cut : Option String} {link : List String} {v : String}
    (hv : v ≠ "") :
    cut.elim (.ok v) (declaredAt link) = .ok v ↔ ∀ s ∈ cut, Text.trim s = v := by
  cases cut with
  | none => simp
  | some s =>
      rw [Option.elim_some, declaredAt_eq_ok_iff]
      simp [hv]

theorem versions_eq_ok_iff {x y : Except Error String} {versions : Versions} :
    (do
      let plugin ← x
      let server ← y
      return (⟨plugin, plugin, server⟩ : Versions)) = .ok versions ↔
    x = .ok versions.plugin ∧ y = .ok versions.server ∧ versions.release = versions.plugin := by
  constructor
  · intro h
    obtain ⟨plugin, hx, hrest⟩ := Xml.ok_of_bind h
    obtain ⟨server, hy, hversions⟩ := Xml.ok_of_bind hrest
    obtain rfl := Except.ok.inj hversions
    exact ⟨hx, hy, rfl⟩
  · obtain ⟨plugin, release, server⟩ := versions
    rintro ⟨rfl, rfl, hrelease⟩
    obtain rfl : release = plugin := hrelease
    rfl

theorem of_versionsOf {root : Node} {versions : Versions} (h : versionsOf root = .ok versions) :
    root.name = tag "project" ∧ (do
      let plugin ← requiredText root ["version"]
      let server ← requiredText root ["properties", "yamcsVersion"]
      return (⟨plugin, plugin, server⟩ : Versions)) = .ok versions := by
  by_cases hname : root.name = tag "project"
  · exact ⟨hname, versionsOf_eq hname ▸ h⟩
  · rw [versionsOf] at h
    simp only [show root.name ≠ ⟨some nameSpace, "project"⟩ from hname, ne_eq, not_false_eq_true,
      if_true] at h
    cases h

/-- A comment at any place in the content of a manifest leaves the manifest well-formed and its
versions where they are.  A version is cut at the comment if the place is inside its element, with
nothing but character data in front of it there: what is left is the version, or the element
counts as empty.  So the versions are the same exactly if what is left is all of them, but for
blanks. -/
theorem parse_comment_cuts {pre post body : List Char} {spot : Spot} {versions : Versions}
    (hbody : Xml.IsComment body) (hspot : Xml.Cursor.InRoot post pre spot)
    (h : parse (String.ofList (pre ++ post)) = .ok versions) :
    let commented := parse (String.ofList (pre ++ (Xml.commentText body ++ post)))
    let plugin := cut? spot ["version"]
    let server := cut? spot ["properties", "yamcsVersion"]
    commented = (do
      let plugin ← plugin.elim (.ok versions.plugin) (declaredAt ["version"])
      let server ← server.elim (.ok versions.server) (declaredAt ["properties", "yamcsVersion"])
      return ⟨plugin, plugin, server⟩) ∧
    (commented = .ok versions ↔
      (∀ s ∈ plugin, Text.trim s = versions.plugin) ∧
        ∀ s ∈ server, Text.trim s = versions.server) := by
  intro commented plugin server
  cases hroot : Xml.parse (String.ofList (pre ++ post)) with
  | error e =>
      rw [parse, hroot] at h
      cases h
  | ok root =>
      obtain ⟨name, old, new, rfl, hcommented, hnew⟩ := Xml.parse_insert hbody hspot hroot
      rw [parse, hroot] at h
      obtain ⟨hname, hold⟩ := of_versionsOf h
      obtain ⟨hplugin, hserver, hrelease⟩ := versions_eq_ok_iff.1 hold
      have hresult : commented = (do
          let plugin ← plugin.elim (.ok versions.plugin) (declaredAt ["version"])
          let server ← server.elim (.ok versions.server) (declaredAt ["properties", "yamcsVersion"])
          return ⟨plugin, plugin, server⟩) := by
        show parse _ = _
        rw [parse, hnew]
        show versionsOf (.element name new) = _
        have hname' : (Node.element name new).name = tag "project" := hname
        rw [versionsOf_eq hname', requiredText_commented hcommented,
          requiredText_commented hcommented, hplugin, hserver]
      refine ⟨hresult, ?_⟩
      rw [hresult, versions_eq_ok_iff, elim_declaredAt_eq_ok_iff (ne_empty_of_requiredText hplugin),
        elim_declaredAt_eq_ok_iff (ne_empty_of_requiredText hserver)]
      simp only [hrelease, and_true]

def projectTag : List Char := "project xmlns=\"http://maven.apache.org/POM/4.0.0\">".toList

/-- The bare manifest up to the middle of its first version. -/
def cutFront : List Char := '<' :: (projectTag ++ '<' :: ("version>".toList ++ "1.3".toList))

def cutRest : List Char :=
  (".0</version><properties><yamcsVersion>5.10.2</yamcsVersion></properties>" ++
    "</project>").toList

/-- The place between the two, in the tree. -/
def cutSpot : Spot := .inside [] (tag "version") (.here [.text "1.3"])

theorem inRoot_cut : Xml.Cursor.InRoot cutRest cutFront cutSpot := by
  have hproject : Xml.Cursor.readStartTag [] ⟨'<' :: projectTag, ⟨1, 1⟩⟩ =
      .ok (some ⟨⟨"", "project"⟩, tag "project", [(none, nameSpace)], true⟩, ⟨[], ⟨1, 52⟩⟩) := by
    rfl
  have hversion : Xml.Cursor.readStartTag [(none, nameSpace)] ⟨'<' :: "version>".toList, ⟨1, 1⟩⟩ =
      .ok (some ⟨⟨"", "version"⟩, tag "version", [(none, nameSpace)], true⟩, ⟨[], ⟨1, 10⟩⟩) := by
    rfl
  have hdata : Xml.resolve "1.3".toList ⟨1, 1⟩ = .ok [.plain '1', .plain '.', .plain '3'] := by rfl
  obtain ⟨hends, -⟩ := Xml.endsMisc_tag (a := projectTag) ⟨'p', _, rfl, by decide⟩
    ('<' :: ("version>".toList ++ "1.3".toList) ++ cutRest) ⟨1, 1⟩
  obtain ⟨p, hfront⟩ := Xml.Cursor.skipFront_root hends _
  obtain ⟨q, hq⟩ := Xml.Cursor.readStartTag_alone hproject _ p
  obtain ⟨q', hq'⟩ := Xml.Cursor.readStartTag_alone hversion ("1.3".toList ++ cutRest) p
  have hat := Xml.Cursor.At.inside hq' rfl (.within (by decide) (by decide) hdata)
  exact @Xml.Cursor.InRoot.intro _ [] _ _ _ _ _ _ hfront hq rfl hat

/-- The version `1.3.0` with a comment in it is taken for `1.3`. -/
theorem parse_comment_cuts_inside :
    Xml.IsComment " c ".toList ∧ Xml.Cursor.InRoot cutRest cutFront cutSpot ∧
    parse (String.ofList (cutFront ++ cutRest)) = .ok ⟨"1.3.0", "1.3.0", "5.10.2"⟩ ∧
    parse (String.ofList (cutFront ++ (Xml.commentText " c ".toList ++ cutRest))) =
      .ok ⟨"1.3", "1.3", "5.10.2"⟩ := by
  have hbody : Xml.IsComment " c ".toList := by
    refine ⟨Xml.forall_mem_of_all (by decide), fun hdashes => ?_, by decide⟩
    exact absurd (Xml.occursIn_iff.2 hdashes) (by decide)
  have hbare : String.ofList (cutFront ++ cutRest) = bareManifest := by
    refine String.toList_injective ?_
    rw [String.toList_ofList]
    decide +kernel
  have hold : parse (String.ofList (cutFront ++ cutRest)) = .ok ⟨"1.3.0", "1.3.0", "5.10.2"⟩ := by
    rw [hbare]
    exact parse_bareManifest
  have hleft : declaredAt ["version"] "1.3" = .ok "1.3" :=
    declaredAt_eq_ok_iff.2 ⟨by decide, by decide⟩
  have hplugin : cut? cutSpot ["version"] = some "1.3" := by rfl
  have hserver : cut? cutSpot ["properties", "yamcsVersion"] = none := by rfl
  obtain ⟨hnew, -⟩ := parse_comment_cuts hbody inRoot_cut hold
  refine ⟨hbody, inRoot_cut, hold, hnew.trans ?_⟩
  rw [hplugin, hserver, Option.elim_some, Option.elim_none, hleft]
  rfl

end DocStamp.Manifest
