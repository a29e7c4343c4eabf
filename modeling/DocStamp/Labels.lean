/-
Tables of labels.

A table lists values, each with the labels that stand for it.  It is
read in both directions: from a label to the first value that lists it,
and from a value to the first label of its first entry.
-/

namespace DocStamp

/-- Values with the labels that stand for each. -/
structure Labels (α : Type) where
  entries : List (α × List String)
deriving Repr

namespace Labels

variable {α : Type}

/-- The value of the first entry that lists the label. -/
def get? (t : Labels α) (label : String) : Option α :=
  (t.entries.find? fun e => e.2.contains label).map Prod.fst

/-- The first label of the first entry of a value. -/
def label? [BEq α] (t : Labels α) (value : α) : Option String :=
  (t.entries.find? fun e => e.1 == value).bind fun e => e.2.head?

/-- All labels, in the order of the table. -/
def all (t : Labels α) : List String := t.entries.flatMap Prod.snd

end Labels

end DocStamp
