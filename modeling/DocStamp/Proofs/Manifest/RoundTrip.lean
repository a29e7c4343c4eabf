/-
# A manifest gives back the versions that it was written with

A version may be any text that is trimmed and can be character data.
However the manifest is laid out, with or without a declaration, with
any padding around the versions, both versions are read as they were.
-/
import DocStamp.Proofs.Manifest.Lookup

namespace DocStamp.Manifest

open Xml (Declaration IsData IsXmlChar ReadsAs Scope Spaces Spelling endTag escape
  forall_mem_of_all prologue startTag)

/-! ## Writing -/

/-- Blanks, tabs and line feeds. -/
abbrev Padding := { cs : List Char // ∀ c ∈ cs, c = ' ' ∨ c = '\t' ∨ c = '\n' }

/-- A text that a version can be. -/
structure IsVersion (s : String) : Prop where
  trimmed : Text.Trimmed s
  chars : ∀ c ∈ s.toList, IsXmlChar c
  no_return : '\r' ∉ s.toList

/-- A version between paddings, as it is written. -/
def padded (before : Padding) (version : String) (after : Padding) : List Char :=
  before.1 ++ escape version.toList ++ after.1

/-- What can be chosen in the writing of a manifest. -/
structure Layout where
  /-- The declaration of the document, and the white space behind it. -/
  front : Option (Declaration × Spaces)
  beforePlugin : Padding
  afterPlugin : Padding
  beforeServer : Padding
  afterServer : Padding

def Layout.text (l : Layout) (plugin server : String) : String :=
  String.ofList (prologue l.front) ++
    "<project xmlns=\"http://maven.apache.org/POM/4.0.0\"><version>" ++
    String.ofList (padded l.beforePlugin plugin l.afterPlugin) ++
    "</version><properties><yamcsVersion>" ++
    String.ofList (padded l.beforeServer server l.afterServer) ++
    "</yamcsVersion></properties></project>"

/-! ## Padded versions -/

section

variable (before after : Padding) {s : String}

theorem Padding.isData (p : Padding) : IsData p.1 := by
  intro c hc
  rcases p.2 c hc with rfl | rfl | rfl <;> decide

theorem Padding.isBlank (p : Padding) : ∀ c ∈ p.1, Text.isBlank c = true := by
  intro c hc
  rcases p.2 c hc with rfl | rfl | rfl <;> decide

theorem Padding.escape_eq (p : Padding) : escape p.1 = p.1 := by
  refine Xml.escape_of_plain fun c hc => ?_
  rcases p.2 c hc with rfl | rfl | rfl <;> decide

theorem padded_eq : padded before s after = escape (before.1 ++ (s.toList ++ after.1)) := by
  rw [padded, Xml.escape_append, Xml.escape_append, before.escape_eq, after.escape_eq,
    List.append_assoc]

theorem readsAs_padded (scope : Scope) (hs : IsVersion s) :
    ReadsAs 2 scope (padded before s after)
      [.text (String.ofList (before.1 ++ (s.toList ++ after.1)))] := by
  have hdata : IsData (before.1 ++ (s.toList ++ after.1)) := by
    intro c hc
    rcases List.mem_append.1 hc with hc | hc
    · exact before.isData c hc
    · rcases List.mem_append.1 hc with hc | hc
      · exact ⟨hs.chars c hc, fun e => hs.no_return (e ▸ hc)⟩
      · exact after.isData c hc
  have hne : before.1 ++ (s.toList ++ after.1) ≠ [] :=
    List.append_ne_nil_of_right_ne_nil _
      (List.append_ne_nil_of_left_ne_nil hs.trimmed.toList_ne_nil _)
  rw [padded_eq]
  exact Xml.readsAs_data scope hdata hne

theorem held?_padded (name : Xml.Name) (hs : IsVersion s) :
    held? (.element name [.text (String.ofList (before.1 ++ (s.toList ++ after.1)))]) = some s :=
  held?_of_leadingText? rfl (Text.trim_append before.isBlank after.isBlank hs.trimmed)
    hs.trimmed.ne_empty

end

/-! ## Reading -/

def scope : Scope := [(none, nameSpace)]

/-- An attribute with a blank in front and no other white space. -/
def narrow (mark : Char) (value : String) (hmark : Xml.Cursor.IsMark mark)
    (hlegal : ∀ c ∈ value.toList, Xml.isLegal c = true ∧ c ≠ mark ∧ c ≠ '<') : Spelling where
  before := ⟨[' '], forall_mem_of_all (by decide)⟩
  left := ⟨[], by simp⟩
  right := ⟨[], by simp⟩
  mark := mark
  value := value.toList
  spaced := by simp
  isMark := hmark
  legal := hlegal

def declared : Spelling := narrow '"' nameSpace (.inl rfl) (forall_mem_of_all (by decide))

def content (plugin server : List Char) : List Char :=
  startTag "version".toList ++ (plugin ++ (endTag "version".toList ++
    (startTag "properties".toList ++ ((startTag "yamcsVersion".toList ++ (server ++
      (endTag "yamcsVersion".toList ++ []))) ++ (endTag "properties".toList ++ [])))))

theorem Layout.text_eq (l : Layout) (plugin server : String) :
    l.text plugin server = String.ofList (prologue l.front ++ ('<' :: ("project".toList ++
      (declared.text "xmlns".toList ++ '>' :: (content (padded l.beforePlugin plugin l.afterPlugin)
        (padded l.beforeServer server l.afterServer) ++
          '<' :: '/' :: ("project".toList ++ '>' :: [])))))) := by
  refine String.toList_injective ?_
  simp [Layout.text, content, startTag, endTag, declared, narrow, Spelling.text, Spelling.tail,
    nameSpace]

theorem readTagBody_project {n : Nat} (hn : (declared.text "xmlns".toList).length < n)
    (b : List Char) (p : Xml.Position) : ∃ q,
      Xml.Cursor.readTagBody n .empty ⟨declared.text "xmlns".toList ++ '>' :: b, p⟩ =
        .ok (⟨scope, []⟩, .opened, ⟨b, q⟩) := by
  obtain ⟨n, rfl⟩ : ∃ k, n = k + 2 := by
    refine ⟨n - 2, ?_⟩
    have : 1 < (declared.text "xmlns".toList).length := by decide
    omega
  have hplain : escape nameSpace.toList = nameSpace.toList := Xml.escape_of_plain (forall_mem_of_all (by decide))
  have hvalue : ∀ q, (Xml.resolve declared.value q).map Xml.attributeChars =
      .ok declared.value := by
    intro q
    have hresolve := Xml.resolve_escape nameSpace.toList q
    rw [hplain] at hresolve
    have hchars : Xml.attributeChars (nameSpace.toList.map Xml.datumOf) = nameSpace.toList := by
      decide +kernel
    rw [show declared.value = nameSpace.toList from rfl, hresolve, Except.map, hchars]
  have hadd : ∀ q, Xml.TagBody.empty.add ⟨"", String.ofList "xmlns".toList⟩
      (String.ofList declared.value) q = .ok ⟨scope, []⟩ := by
    intro q
    rw [show String.ofList declared.value = nameSpace from String.ofList_toList]
    rfl
  have hname : Xml.Cursor.IsTagName "xmlns".toList := by decide
  obtain ⟨q, hq⟩ := Xml.readTagBody_attribute declared hname hvalue hadd (n + 1) ('>' :: b) p
  exact ⟨_, by rw [hq, Xml.readTagBody_close]⟩

theorem close_project (p : Xml.Position) :
    Xml.TagBody.close ⟨scope, []⟩ [] ⟨"", String.ofList "project".toList⟩ p =
      .ok (tag "project", scope) := rfl

def tree (plugin server : String) : Xml.Node :=
  .element (tag "project") [.element (tag "version") [.text plugin],
    .element (tag "properties") [.element (tag "yamcsVersion") [.text server]]]

theorem readsAs_content {plugin server : List Char} {plugin' server' : String}
    (hplugin : ReadsAs 2 scope plugin [.text plugin'])
    (hserver : ReadsAs 2 scope server [.text server']) :
    ReadsAs 12 scope (content plugin server)
      [.element (tag "version") [.text plugin'],
        .element (tag "properties") [.element (tag "yamcsVersion") [.text server']]] :=
  Xml.readsAs_element (by decide) hplugin
    (Xml.readsAs_element (by decide)
      (Xml.readsAs_element (by decide) hserver (Xml.readsAs_nil scope)) (Xml.readsAs_nil scope))

theorem versionsOf_tree {plugin server plugin' server' : String}
    (hplugin : ∀ name, held? (.element name [.text plugin]) = some plugin')
    (hserver : ∀ name, held? (.element name [.text server]) = some server') :
    versionsOf (tree plugin server) = .ok ⟨plugin', plugin', server'⟩ := by
  have hversion : requiredText (tree plugin server) ["version"] = .ok plugin' :=
    requiredText_of_held? rfl (hplugin (tag "version"))
  have hyamcs : requiredText (tree plugin server) ["properties", "yamcsVersion"] = .ok server' :=
    requiredText_of_held? rfl (hserver (tag "yamcsVersion"))
  rw [versionsOf_eq rfl, hversion, hyamcs]
  rfl

/-- A manifest gives back the two versions that it was written with. -/
theorem parse_gives_back (l : Layout) {plugin server : String} (hplugin : IsVersion plugin)
    (hserver : IsVersion server) :
    parse (l.text plugin server) = .ok ⟨plugin, plugin, server⟩ := by
  have hcontent := readsAs_content
    (readsAs_padded l.beforePlugin l.afterPlugin scope hplugin)
    (readsAs_padded l.beforeServer l.afterServer scope hserver)
  have hroot : Xml.parse (l.text plugin server) = .ok (tree
      (String.ofList (l.beforePlugin.1 ++ (plugin.toList ++ l.afterPlugin.1)))
      (String.ofList (l.beforeServer.1 ++ (server.toList ++ l.afterServer.1)))) := by
    have hname : ∀ rest, "project".toList ++ rest = 'p' :: ("roject".toList ++ rest) := fun _ => rfl
    rw [l.text_eq, hname]
    refine Xml.parse_of_readElement l.front (by decide) _ 13 ?_ fun n p hn => ?_
    · have hlong : 13 ≤ (declared.text "xmlns".toList).length := by decide
      simp only [List.length_append]
      omega
    · obtain ⟨n, rfl⟩ : ∃ k, n = k + 1 := ⟨n - 1, by omega⟩
      exact Xml.readElement_append (by decide) (Xml.stopsAt_cons (by decide) _)
        (fun _ hm => readTagBody_project hm) close_project hcontent (by omega) [] p
  rw [parse, hroot]
  exact versionsOf_tree (fun name => held?_padded _ _ name hplugin)
    fun name => held?_padded _ _ name hserver

/-- A layout with a declaration and padding of all kinds. -/
def paddedLayout : Layout where
  front := some (
    { version := narrow '\x27' "1.0" (.inr rfl) (forall_mem_of_all (by decide))
      encoding := some (narrow '"' "UTF-8" (.inl rfl) (forall_mem_of_all (by decide)))
      standalone := none
      trailing := ⟨['\t'], forall_mem_of_all (by decide)⟩
      version_open := by decide
      encoding_open := by rintro a ⟨⟩; decide
      standalone_open := by simp },
    ⟨['\n'], forall_mem_of_all (by decide)⟩)
  beforePlugin := ⟨['\n', '\t'], forall_mem_of_all (by decide)⟩
  afterPlugin := ⟨[' '], forall_mem_of_all (by decide)⟩
  beforeServer := ⟨[], by simp⟩
  afterServer := ⟨['\n'], forall_mem_of_all (by decide)⟩

theorem parse_gives_back_padded :
    paddedLayout.text "]]> & <é\t\x7b" "5\"" =
      "<?xml version='1.0' encoding=\"UTF-8\"\t?>\n" ++
      "<project xmlns=\"http://maven.apache.org/POM/4.0.0\"><version>\n\t" ++
      "]]&gt; &amp; &lt;é\t\x7b </version><properties><yamcsVersion>5\"\n" ++
      "</yamcsVersion></properties></project>" ∧
    parse (paddedLayout.text "]]> & <é\t\x7b" "5\"") =
      .ok ⟨"]]> & <é\t\x7b", "]]> & <é\t\x7b", "5\""⟩ :=
  ⟨by decide +kernel,
    parse_gives_back paddedLayout ⟨by decide +kernel, forall_mem_of_all (by decide +kernel), by decide +kernel⟩
      ⟨by decide +kernel, forall_mem_of_all (by decide +kernel), by decide +kernel⟩⟩

end DocStamp.Manifest
