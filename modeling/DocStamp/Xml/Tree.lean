/-
The tree of an XML document.

A node keeps what can be looked up later: the expanded names of
elements, their children in order, and character data.  Adjacent
character data is one node.
-/

namespace DocStamp.Xml

/-- The name of an element with its name space, if it has one. -/
structure Name where
  space : Option String
  localName : String
deriving DecidableEq, Repr

/-- A name as it stands in messages: the name space in braces, then the name. -/
def Name.text (n : Name) : String :=
  match n.space with
  | some s => "\x7b" ++ s ++ "\x7d" ++ n.localName
  | none => n.localName

inductive Node where
  | element (name : Name) (children : List Node)
  | text (s : String)
  | comment
  | instruction
deriving Repr

namespace Node

/-- The name of a node; only elements have one of their own. -/
def name : Node → Name
  | .element n _ => n
  | _ => ⟨none, ""⟩

def isElement (n : Name) : Node → Bool
  | .element m _ => m == n
  | _ => false

def children : Node → List Node
  | .element _ cs => cs
  | _ => []

/-- The first child that is an element of that name. -/
def child? (n : Name) (node : Node) : Option Node :=
  node.children.find? (isElement n)

/-- The character data that a node begins with, if it begins with such. -/
def leadingText? (node : Node) : Option String :=
  match node.children with
  | .text s :: _ => some s
  | _ => none

/-- Puts character data in front of nodes, as one node with data that follows. -/
def consText (s : String) : List Node → List Node
  | .text t :: ns => .text (s ++ t) :: ns
  | ns => .text s :: ns

end Node

end DocStamp.Xml
