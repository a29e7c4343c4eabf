/-
Trees of files, and where things are in them.

A directory lists its entries in no particular order.  A location is the
list of names from the root; it never passes through a link.

What is at a location is a part of the tree there and nowhere else: a
file has one name, so to change it at one location leaves every other
location as it was.  There are no permissions.  Whatever is in the tree
can be read, and whatever can be opened for writing is written to its
end.
-/

namespace DocStamp.Files

/-- What a file holds: text, or bytes that are no text. -/
inductive Content where
  | text (s : String)
  | binary (bytes : List UInt8)
deriving DecidableEq, Repr

/-- A file, a symbolic link or a directory. -/
inductive Node where
  | file (content : Content)
  | link (target : String)
  | dir (entries : List (String × Node))
deriving Repr

/-- The names from the root down. -/
abbrev Location := List String

namespace Node

def isDir : Node → Bool
  | .dir _ => true
  | _ => false

/-- The entry of a directory with a name. -/
def entry? (n : Node) (name : String) : Option Node :=
  match n with
  | .dir entries => entries.lookup name
  | _ => none

/-- The node at a location. -/
def at? (n : Node) : Location → Option Node
  | [] => some n
  | name :: names =>
      match n.entry? name with
      | some m => m.at? names
      | none => none

/-- Puts an entry in the place of the one with its name, or behind the others. -/
def setEntry (name : String) (m : Node) : List (String × Node) → List (String × Node)
  | [] => [(name, m)]
  | (other, n) :: entries =>
      if other = name then (name, m) :: entries else (other, n) :: setEntry name m entries

/-- Puts a node at a location inside existing directories. -/
def setAt (n : Node) (m : Node) : Location → Node
  | [] => m
  | name :: names =>
      match n with
      | .dir entries =>
          match names with
          | [] => .dir (setEntry name m entries)
          | _ =>
              match entries.lookup name with
              | some child => .dir (setEntry name (child.setAt m names) entries)
              | none => .dir entries
      | n => n

end Node

end DocStamp.Files
