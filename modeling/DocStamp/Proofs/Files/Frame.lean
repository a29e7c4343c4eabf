/-
# What computations leave as it was

A computation answers, announces, prints, writes or fails, and most do
only some of this.  Each predicate here says what a computation does not
do, and passes from the steps of a computation to the whole of it.

Printing cannot be undone by a failure.  So a computation that fails
without having printed is one that prints in its last step, which never
fails (`PrintsLast`).
-/
import DocStamp.Proofs.Files.Linked

namespace DocStamp.Files.Session

section

variable {ε α β γ : Type}

/-! ## Questions -/

theorem quiet_currentDir : Quiet (Host.currentDir : ExceptT ε (StateM Session) Path) :=
  fun _ => rfl

theorem quiet_listDirectory (p : Path) :
    Quiet (Host.listDirectory p : ExceptT ε (StateM Session) _) :=
  fun _ => rfl

theorem quiet_mapM {f : α → ExceptT ε (StateM Session) β} (h : ∀ a, Quiet (f a)) (xs : List α) :
    Quiet (xs.mapM f) := by
  induction xs with
  | nil => exact quiet_pure []
  | cons x xs ih =>
      rw [List.mapM_cons]
      exact (h x).bind fun b => ih.bind fun bs => quiet_pure (b :: bs)

/-! ## Parts of a session -/

/-- A computation that leaves a part of the session as it was, also where it fails. -/
def Preserves (part : Session → γ) (x : ExceptT ε (StateM Session) α) : Prop :=
  ∀ s : Session, part (s.run x).2 = part s

/-- A computation that changes no file; it may announce documents, and print. -/
abbrev ReadOnly (x : ExceptT ε (StateM Session) α) : Prop := Preserves Session.root x

/-- A computation that prints nothing. -/
abbrev Silent (x : ExceptT ε (StateM Session) α) : Prop := Preserves Session.printed x

section

variable {part : Session → γ} {x : ExceptT ε (StateM Session) α}

theorem Quiet.preserves (h : Quiet x) (part : Session → γ) : Preserves part x := by
  intro s
  rw [h s]

theorem Preserves.bind {f : α → ExceptT ε (StateM Session) β} (hx : Preserves part x)
    (hf : ∀ a, Preserves part (f a)) : Preserves part (x >>= f) := by
  intro s
  have hpart := hx s
  rw [run_bind]
  cases h : s.run x with
  | mk r s' =>
      rw [h] at hpart
      cases r with
      | error e => exact hpart
      | ok a => exact (hf a s').trans hpart

theorem preserves_forM {f : α → ExceptT ε (StateM Session) PUnit} (h : ∀ a, Preserves part (f a))
    (xs : List α) : Preserves part (xs.forM f) := by
  induction xs with
  | nil => exact (quiet_pure _).preserves part
  | cons x xs ih => exact (h x).bind fun _ => ih

end

theorem readOnly_announce (name : String) :
    ReadOnly (Host.announce name : ExceptT ε (StateM Session) Unit) :=
  fun _ => rfl

theorem readOnly_print (text : String) :
    ReadOnly (Host.print text : ExceptT ε (StateM Session) Unit) :=
  fun _ => rfl

theorem silent_announce (name : String) :
    Silent (Host.announce name : ExceptT ε (StateM Session) Unit) :=
  fun _ => rfl

theorem silent_ensureParent (p : Path) :
    Silent (ensureParent p : ExceptT ε (StateM Session) _) := by
  intro s
  obtain ⟨r, s', hrun, hmakes⟩ := ensureParent_makes (ε := ε) s p
  rw [hrun]
  exact hmakes.printed

theorem silent_writeText (p : Path) (text : String) :
    Silent (Host.writeText p text : ExceptT ε (StateM Session) _) := by
  intro s
  rw [run_writeText]
  cases hwrite : s.writeFile p (.text text) with
  | error fault => rfl
  | ok s' => exact printed_of_writeFile hwrite

/-! ## Printing last -/

/-- A computation that has printed nothing if it fails. -/
def PrintsLast (x : ExceptT ε (StateM Session) α) : Prop :=
  ∀ (s : Session) (e : ε), (s.run x).1 = .error e → (s.run x).2.printed = s.printed

theorem printsLast_of_silent {x : ExceptT ε (StateM Session) α} (h : Silent x) : PrintsLast x :=
  fun s _ _ => h s

theorem printsLast_print (text : String) :
    PrintsLast (Host.print text : ExceptT ε (StateM Session) Unit) := by
  intro s e h
  cases h

/-- What is silent may go before what prints last. -/
theorem printsLast_bind {x : ExceptT ε (StateM Session) α}
    {f : α → ExceptT ε (StateM Session) β} (hx : Silent x) (hf : ∀ a, PrintsLast (f a)) :
    PrintsLast (x >>= f) := by
  intro s e he
  have hprinted := hx s
  rw [run_bind] at he ⊢
  cases h : s.run x with
  | mk r s' =>
      rw [h] at he hprinted
      cases r with
      | error e' => exact hprinted
      | ok a => exact (hf a s' e he).trans hprinted

/-! ## Reasons to fail -/

/-- A computation that fails for certain reasons only. -/
def FailsOnly (P : ε → Prop) (x : ExceptT ε (StateM Session) α) : Prop :=
  ∀ (s : Session) (e : ε), (s.run x).1 = .error e → P e

variable {P : ε → Prop}

theorem failsOnly_pure (a : α) : FailsOnly P (pure a : ExceptT ε (StateM Session) α) := by
  intro s e h
  cases h

theorem failsOnly_throw {e : ε} (h : P e) :
    FailsOnly P (throw e : ExceptT ε (StateM Session) α) := by
  intro s e' he
  cases he
  exact h

/-- What the host is asked may be answered by a fault, but the computation goes on. -/
theorem failsOnly_lift (x : StateM Session α) :
    FailsOnly P (ExceptT.lift x : ExceptT ε (StateM Session) α) := by
  intro s e h
  cases h

theorem FailsOnly.bind {x : ExceptT ε (StateM Session) α} {f : α → ExceptT ε (StateM Session) β}
    (hx : FailsOnly P x) (hf : ∀ a, FailsOnly P (f a)) : FailsOnly P (x >>= f) := by
  intro s e h
  rw [run_bind] at h
  cases hrun : s.run x with
  | mk r s' =>
      rw [hrun] at h
      cases r with
      | error e' =>
          cases h
          exact hx s e (congrArg Prod.fst hrun)
      | ok a => exact hf a s' e h

theorem failsOnly_forM {f : α → ExceptT ε (StateM Session) PUnit} (h : ∀ a, FailsOnly P (f a))
    (xs : List α) : FailsOnly P (xs.forM f) := by
  induction xs with
  | nil => exact failsOnly_pure _
  | cons x xs ih => exact (h x).bind fun _ => ih

theorem failsOnly_ensureParent (p : Path) :
    FailsOnly P (ensureParent p : ExceptT ε (StateM Session) _) := by
  intro s e h
  obtain ⟨r, s', hrun, -⟩ := ensureParent_makes (ε := ε) s p
  rw [hrun] at h
  cases h

end

end DocStamp.Files.Session
