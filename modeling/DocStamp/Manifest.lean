/-
The versions that a project's manifest declares.

Two elements count: the version that is a direct child of the project,
and the server version among its properties.  Both are looked up by
first match in the name space of project manifests, so a version inside
a parent or a dependency never counts.
-/
import DocStamp.Placeholder
import DocStamp.Text.Blank
import DocStamp.Xml.Document

namespace DocStamp.Manifest

/-- The name space of every element of a manifest. -/
def nameSpace : String := "http://maven.apache.org/POM/4.0.0"

/-- Where the manifest is, seen from the documents. -/
def defaultPath : String := "../pom.xml"

/-- What can be wrong with the text of a manifest. -/
inductive Error where
  | malformed (e : Xml.Error)
  | unexpectedRoot (found : Xml.Name)
  /-- The names down to the link that is missing. -/
  | missing (path : List String)
  | blank (path : List String)
deriving DecidableEq, Repr

/-- An element by the names that lead to it. -/
def pathText (names : List String) : String :=
  names.foldl (fun s n => s ++ "/" ++ n) "project"

def Error.message : Error → String
  | .malformed _ => "Manifest is not well-formed XML"
  | .unexpectedRoot found =>
      s!"Expected root element `project` in the POM namespace, found `{found.text}`"
  | .missing path => s!"Manifest is missing required element `{pathText path}`"
  | .blank path => s!"Manifest element `{pathText path}` is empty"

def Error.causes : Error → List String
  | .malformed e => [e.message]
  | _ => []

/-- The element that the names lead to, each a direct child of the one before.
`passed` are the names already followed. -/
def descend (node : Xml.Node) (passed : List String) : List String → Except Error Xml.Node
  | [] => .ok node
  | n :: names =>
      match node.child? ⟨some nameSpace, n⟩ with
      | some child => descend child (passed ++ [n]) names
      | none => .error (.missing (passed ++ [n]))

/-- The trimmed text of the element that the names lead to. -/
def requiredText (project : Xml.Node) (names : List String) : Except Error String := do
  let node ← descend project [] names
  match node.leadingText?.map Text.trim with
  | some text => if text == "" then throw (.blank names) else return text
  | none => throw (.blank names)

/-- The versions that a project element declares. -/
def versionsOf (root : Xml.Node) : Except Error Versions := do
  if root.name ≠ ⟨some nameSpace, "project"⟩ then throw (.unexpectedRoot root.name)
  let plugin ← requiredText root ["version"]
  let server ← requiredText root ["properties", "yamcsVersion"]
  return ⟨plugin, plugin, server⟩

def parse (xml : String) : Except Error Versions :=
  match Xml.parse xml with
  | .error e => .error (.malformed e)
  | .ok root => versionsOf root

end DocStamp.Manifest
