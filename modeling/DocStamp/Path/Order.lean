/-
The order of paths: step by step, each by the numbers of its characters.
-/
import DocStamp.Path.Basic

namespace DocStamp.Path

/-- Does one list come before another, or are they the same, when elements are told apart
by `less`? -/
def listBefore {α : Type} [DecidableEq α] (less : α → α → Bool) : List α → List α → Bool
  | [], _ => true
  | _ :: _, [] => false
  | a :: as, b :: bs => if a = b then listBefore less as bs else less a b

/-- Does a name come before another, by the numbers of its characters? -/
def nameBefore (a b : String) : Bool :=
  listBefore (fun c d => decide (c.toNat < d.toNat)) a.toList b.toList

/-- Orders paths step by step. -/
def before (p q : Path) : Bool :=
  listBefore nameBefore (p.steps.map Step.text) (q.steps.map Step.text)

/-- Do two paths have the same steps? -/
def sameSteps (p q : Path) : Bool := p.steps == q.steps

end DocStamp.Path
