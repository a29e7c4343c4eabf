/-
# What operations do to a session

`Session.run` runs a computation on a session; its laws say what each
question to the host answers and leaves behind, so that commands are
taken apart by rewriting.

Every operation first looks where its path leads.  `locate_eq` and the
lemmas `…_ok_iff` say what it does there.  A directory below another one
is read by its names (`node_below`).
-/
import DocStamp.Files.Host
import DocStamp.Proofs.Files.Follow

namespace DocStamp.Files

open DocStamp.Path (AreNames IsName)

namespace Session

/-! ## Running a computation -/

section

variable {ε α β : Type}

/-- Runs a computation that may fail on a session. -/
def run (s : Session) (x : ExceptT ε (StateM Session) α) : Except ε α × Session := x.run s

@[simp] theorem run_pure (s : Session) (a : α) :
    s.run (pure a : ExceptT ε (StateM Session) α) = (.ok a, s) := rfl

@[simp] theorem run_throw (s : Session) (e : ε) :
    s.run (throw e : ExceptT ε (StateM Session) α) = (.error e, s) := rfl

theorem run_bind (s : Session) (x : ExceptT ε (StateM Session) α)
    (f : α → ExceptT ε (StateM Session) β) :
    s.run (x >>= f) =
      match s.run x with
      | (.ok a, s') => s'.run (f a)
      | (.error e, s') => (.error e, s') := by
  cases h : s.run x with
  | mk r s' =>
      have hbind : s.run (x >>= f) = ExceptT.bindCont f (s.run x).1 (s.run x).2 := rfl
      rw [hbind, h]
      cases r <;> rfl

theorem run_bind_ok {s s' : Session} {x : ExceptT ε (StateM Session) α} {a : α}
    (h : s.run x = (.ok a, s')) (f : α → ExceptT ε (StateM Session) β) :
    s.run (x >>= f) = s'.run (f a) := by
  rw [run_bind, h]

theorem run_bind_error {s s' : Session} {x : ExceptT ε (StateM Session) α} {e : ε}
    (h : s.run x = (.error e, s')) (f : α → ExceptT ε (StateM Session) β) :
    s.run (x >>= f) = (.error e, s') := by
  rw [run_bind, h]

theorem eq_ok_of_toOption {r : Except ε α} {a : α} (h : r.toOption = some a) : r = .ok a := by
  cases r with
  | error e => cases h
  | ok b => exact congrArg _ (Option.some.inj h)

theorem run_eq_of_toOption {s : Session} {x : ExceptT ε (StateM Session) α} {a : α}
    (h : (s.run x).1.toOption = some a) : s.run x = (.ok a, (s.run x).2) :=
  Prod.ext (eq_ok_of_toOption h) rfl

theorem mapError_eq_ok {ε' : Type} {f : ε → ε'} {r : Except ε α} {a : α}
    (h : r.mapError f = .ok a) : r = .ok a := by
  cases r with
  | error e => cases h
  | ok b => exact congrArg _ (Except.ok.inj h)

theorem run_adapt {ε' : Type} (s : Session) (f : ε → ε') (x : ExceptT ε (StateM Session) α) :
    s.run (ExceptT.adapt f x) = ((s.run x).1.mapError f, (s.run x).2) := rfl

/-- Lists asked for one after the other, while the session stays: the first failure is the
result, or else all the lists, one behind the other. -/
theorem run_mapM_flatten {s : Session} {f : α → ExceptT ε (StateM Session) (List β)}
    {P : α → Except ε (List β) → Prop} {xs : List α}
    (h : ∀ x ∈ xs, ∃ r, s.run (f x) = (r, s) ∧ P x r) :
    (∃ x ∈ xs, ∃ e, P x (.error e) ∧
      s.run (do return (← xs.mapM f).flatten) = (.error e, s)) ∨
    (∃ g : α → List β, (∀ x ∈ xs, P x (.ok (g x))) ∧
      s.run (do return (← xs.mapM f).flatten) = (.ok (xs.flatMap g), s)) := by
  let g : α → List β := fun x => match (s.run (f x)).1 with
    | .ok ys => ys
    | .error _ => []
  suffices hmap : (∃ x ∈ xs, ∃ e, P x (.error e) ∧ s.run (xs.mapM f) = (.error e, s)) ∨
      ((∀ x ∈ xs, P x (.ok (g x))) ∧ s.run (xs.mapM f) = (.ok (xs.map g), s)) by
    rcases hmap with ⟨x, hx, e, hP, hrun⟩ | ⟨hP, hrun⟩
    · exact .inl ⟨x, hx, e, hP, run_bind_error hrun _⟩
    · exact .inr ⟨g, hP, run_bind_ok hrun _⟩
  induction xs with
  | nil => exact .inr ⟨List.forall_mem_nil _, rfl⟩
  | cons x xs ih =>
      obtain ⟨r, hrun, hP⟩ := h x List.mem_cons_self
      rw [List.mapM_cons]
      cases r with
      | error e => exact .inl ⟨x, List.mem_cons_self, e, hP, run_bind_error hrun _⟩
      | ok ys =>
          have hg : g x = ys := by simp only [g, hrun]
          rw [run_bind_ok hrun]
          rcases ih fun y hy => h y (List.mem_cons_of_mem _ hy) with
            ⟨y, hy, e, hPe, hrest⟩ | ⟨hPs, hrest⟩
          · exact .inl ⟨y, List.mem_cons_of_mem _ hy, e, hPe, run_bind_error hrest _⟩
          · refine .inr ⟨fun y hy => ?_, ?_⟩
            · rcases List.mem_cons.1 hy with rfl | hy
              · exact hg ▸ hP
              · exact hPs y hy
            · rw [run_bind_ok hrest, List.map_cons, hg]
              rfl

variable (ε)

@[simp] theorem run_currentDir (s : Session) :
    s.run (Host.currentDir : ExceptT ε (StateM Session) Path) = (.ok s.currentDir, s) := rfl

theorem currentDir_eq (s : Session) : s.currentDir = Path.ofLocation s.here := rfl

@[simp] theorem run_readText (s : Session) (p : Path) :
    s.run (Host.readText p : ExceptT ε (StateM Session) _) = (.ok (s.readText p), s) := rfl

@[simp] theorem run_pathExists (s : Session) (p : Path) :
    s.run (Host.pathExists p : ExceptT ε (StateM Session) _) = (.ok (s.pathExists p), s) := rfl

@[simp] theorem run_isDirectory (s : Session) (p : Path) :
    s.run (Host.isDirectory p : ExceptT ε (StateM Session) _) = (.ok (s.isDirectory p), s) := rfl

@[simp] theorem run_listDirectory (s : Session) (p : Path) :
    s.run (Host.listDirectory p : ExceptT ε (StateM Session) _) = (.ok (s.listDirectory p), s) := rfl

@[simp] theorem run_announce (s : Session) (name : String) :
    s.run (Host.announce name : ExceptT ε (StateM Session) _) =
      (.ok (), { s with documents := s.documents ++ [name] }) := rfl

@[simp] theorem run_print (s : Session) (text : String) :
    s.run (Host.print text : ExceptT ε (StateM Session) _) = (.ok (), s.print text) := rfl

theorem run_makeDirectory (s : Session) (p : Path) :
    s.run (Host.makeDirectory p : ExceptT ε (StateM Session) _) =
      match s.makeDirectory p with
      | .ok s' => (.ok (.ok ()), s')
      | .error e => (.ok (.error e), s) := by
  simp only [run, Host.makeDirectory, ExceptT.run, ExceptT.lift, ExceptT.mk, Functor.map,
    StateT.map, attempt]
  cases s.makeDirectory p <;> rfl

theorem run_writeText (s : Session) (p : Path) (t : String) :
    s.run (Host.writeText p t : ExceptT ε (StateM Session) _) =
      match s.writeFile p (.text t) with
      | .ok s' => (.ok (.ok ()), s')
      | .error e => (.ok (.error e), s) := by
  simp only [run, Host.writeText, ExceptT.run, ExceptT.lift, ExceptT.mk, Functor.map,
    StateT.map, attempt]
  cases s.writeFile p (.text t) <;> rfl

/-! ## Questions leave a session as it is -/

variable {ε}

/-- A computation that changes no session. -/
def Quiet (x : ExceptT ε (StateM Session) α) : Prop := ∀ s : Session, (s.run x).2 = s

theorem Quiet.run_eq {x : ExceptT ε (StateM Session) α} (h : Quiet x) (s : Session) :
    s.run x = ((s.run x).1, s) := Prod.ext rfl (h s)

theorem quiet_pure (a : α) : Quiet (pure a : ExceptT ε (StateM Session) α) := fun _ => rfl

theorem quiet_throw (e : ε) : Quiet (throw e : ExceptT ε (StateM Session) α) := fun _ => rfl

theorem quiet_readText (p : Path) : Quiet (Host.readText p : ExceptT ε (StateM Session) _) :=
  fun _ => rfl

theorem quiet_pathExists (p : Path) : Quiet (Host.pathExists p : ExceptT ε (StateM Session) _) :=
  fun _ => rfl

theorem Quiet.bind {x : ExceptT ε (StateM Session) α} {f : α → ExceptT ε (StateM Session) β}
    (hx : Quiet x) (hf : ∀ a, Quiet (f a)) : Quiet (x >>= f) := by
  intro s
  rw [run_bind, hx.run_eq s]
  cases (s.run x).1 with
  | error e => rfl
  | ok a => exact hf a s

theorem Quiet.adapt {ε' : Type} {x : ExceptT ε (StateM Session) α} (hx : Quiet x) (f : ε → ε') :
    Quiet (ExceptT.adapt f x) := by
  intro s
  rw [run_adapt, hx s]

end

/-! ## Where paths lead -/

/-- Why a path is refused before it is followed, if it is. -/
def refusal? (p : Path) : Option Fault :=
  if p.text.toList.contains '\x00' then some .nulCharacter
  else if p.text == "" then some .notFound
  else if pathLimit ≤ p.text.utf8ByteSize then some .nameTooLong
  else none

theorem refusal?_eq_none_iff {p : Path} : refusal? p = none ↔
    '\x00' ∉ p.text.toList ∧ p.text ≠ "" ∧ p.text.utf8ByteSize < pathLimit := by
  unfold refusal?
  by_cases hnul : '\x00' ∈ p.text.toList
  · simp [hnul]
  · by_cases hempty : p.text = ""
    · simp [hempty]
    · by_cases hsize : pathLimit ≤ p.text.utf8ByteSize
      · simp [hnul, hempty, hsize]
      · simp [hnul, hempty, hsize, Nat.not_le.1 hsize]

theorem refusal?_of_size {p : Path} (hnul : '\x00' ∉ p.text.toList) (hne : p.text ≠ "")
    (hsize : pathLimit ≤ p.text.utf8ByteSize) : refusal? p = some .nameTooLong := by
  simp [refusal?, hnul, hne, hsize]

theorem refusal?_ne_notFound {p : Path} (hne : p.text ≠ "") : refusal? p ≠ some .notFound := by
  unfold refusal?
  split
  · simp
  · rw [if_neg (by simpa using hne)]
    split <;> simp

theorem locate_eq (s : Session) (aim : Aim) (p : Path) :
    s.locate aim p =
      match refusal? p with
      | some fault => .error fault
      | none => follow s.root aim linkLimit (startOf p.text s.here) (stepsOf p.text) := by
  simp only [locate, refusal?]
  split
  · rfl
  · split
    · rfl
    · split <;> rfl

theorem locate_ok_iff {s : Session} {aim : Aim} {p : Path} {spot : Spot} :
    s.locate aim p = .ok spot ↔ refusal? p = none ∧
      follow s.root aim linkLimit (startOf p.text s.here) (stepsOf p.text) = .ok spot := by
  rw [locate_eq]
  cases refusal? p with
  | none => simp
  | some fault => simp

theorem locate_keeps {s s' : Session} {aim : Aim} {p : Path} {spot : Spot} {i : Node.Item}
    (hk : s.root.Keeps s'.root) (hhere : s'.here = s.here) (hi : ∀ t, i ≠ .link t)
    (h : s.locate aim p = .ok spot) (hv : s'.root.view spot.location = some i) :
    Revisited (s'.locate aim p) spot.location i := by
  obtain ⟨hrefusal, hfollow⟩ := locate_ok_iff.1 h
  rw [locate_eq, hrefusal, hhere]
  exact follow_keeps hk hi hfollow hv

theorem node_ok_iff {s : Session} {p : Path} {n : Node} :
    s.node p = .ok n ↔ ∃ l, s.locate .target p = .ok (.found l n) := by
  unfold node
  cases h : s.locate .target p with
  | error => simp [bind, Except.bind]
  | ok spot => cases spot <;> simp [bind, Except.bind, pure, Except.pure, throw, throwThe,
      MonadExceptOf.throw]

theorem readText_ok_iff {s : Session} {p : Path} {t : String} :
    s.readText p = .ok t ↔ s.node p = .ok (.file (.text t)) := by
  unfold readText
  cases h : s.node p with
  | error => simp [bind, Except.bind]
  | ok n =>
      cases n with
      | file c => cases c <;> simp [bind, Except.bind, pure, Except.pure, throw, throwThe,
          MonadExceptOf.throw]
      | link | dir => simp [bind, Except.bind, throw, throwThe, MonadExceptOf.throw]

theorem isDirectory_iff {s : Session} {p : Path} :
    s.isDirectory p = true ↔ ∃ n, s.node p = .ok n ∧ n.item = .dir := by
  unfold isDirectory
  cases s.node p <;> simp [Node.isDir_iff]

theorem listDirectory_ok_iff {s : Session} {p : Path} {listed : List (String × Bool)} :
    s.listDirectory p = .ok listed ↔
      ∃ entries, s.node p = .ok (.dir entries) ∧ listed = entries.map fun e => (e.1, e.2.isDir) := by
  unfold listDirectory
  cases h : s.node p with
  | error => simp [bind, Except.bind]
  | ok n =>
      cases n with
      | dir entries => simp [bind, Except.bind, pure, Except.pure, eq_comm]
      | file | link => simp [bind, Except.bind, throw, throwThe, MonadExceptOf.throw]

theorem makeDirectory_ok_iff {s s' : Session} {p : Path} :
    s.makeDirectory p = .ok s' ↔ ∃ d name, s.locate .entry p = .ok (.free d name) ∧
      s' = { s with root := s.root.setAt (.dir []) (d ++ [name]) } := by
  unfold makeDirectory
  cases h : s.locate .entry p with
  | error => simp [bind, Except.bind]
  | ok spot =>
      cases spot with
      | found l n => simp [bind, Except.bind, throw, throwThe, MonadExceptOf.throw]
      | free d name =>
          simp only [bind, Except.bind, pure, Except.pure, Except.ok.injEq, Spot.free.injEq]
          constructor
          · rintro rfl
            exact ⟨d, name, ⟨rfl, rfl⟩, rfl⟩
          · rintro ⟨_, _, ⟨rfl, rfl⟩, rfl⟩
            rfl

theorem writeFile_ok_iff {s s' : Session} {p : Path} {c : Content} :
    s.writeFile p c = .ok s' ↔ ∃ spot, s.locate .file p = .ok spot ∧
      (∀ l entries, spot ≠ .found l (.dir entries)) ∧
      s' = { s with root := s.root.setAt (.file c) spot.location } := by
  unfold writeFile
  cases h : s.locate .file p with
  | error => simp [bind, Except.bind]
  | ok spot =>
      cases spot with
      | free d name => simp [bind, Except.bind, pure, Except.pure, eq_comm, Spot.location]
      | found l n =>
          cases n <;> simp [bind, Except.bind, pure, Except.pure, throw, throwThe,
            MonadExceptOf.throw, eq_comm, Spot.location]

/-! ## Below a directory -/

/-- A path that leads to a directory is followed by its parts alone. -/
theorem node_dir_follow {s : Session} {p : Path} {entries : List (String × Node)}
    (h : s.node p = .ok (.dir entries)) : ∃ l, s.root.at? l = some (.dir entries) ∧
      follow s.root .target linkLimit (startOf p.text s.here) p.parts =
        .ok (.found l (.dir entries)) := by
  obtain ⟨l, hl⟩ := node_ok_iff.1 h
  obtain ⟨-, hfollow⟩ := locate_ok_iff.1 hl
  refine ⟨l, follow_found hfollow, ?_⟩
  rcases stepsOf_eq p with e | e <;> rw [e] at hfollow
  · exact hfollow
  · exact follow_of_trailing hfollow

/-- A directory below one that a path leads to is read by its names, unless the whole path
is refused or a name is too long. -/
theorem node_below {s : Session} {p : Path} {entries es : List (String × Node)}
    (hp : s.node p = .ok (.dir entries)) {names : List String} (hn : AreNames names)
    (hes : (Node.dir entries).at? names = some (.dir es)) :
    s.node (p.join (Path.ofNames names)) =
      match refusal? (p.join (Path.ofNames names)) with
      | some fault => .error fault
      | none =>
          if ∀ x ∈ names, x.utf8ByteSize ≤ nameLimit then .ok (.dir es)
          else .error .nameTooLong := by
  obtain ⟨l, hroot, hfollow⟩ := node_dir_follow hp
  have hat : s.root.at? (l ++ names) = some (.dir es) := by
    rw [Node.at?_append, hroot]
    exact hes
  have habs := Path.isAbsolute_ofNames hn
  have hstart : startOf (p.join (Path.ofNames names)).text s.here = startOf p.text s.here := by
    simp only [startOf, Path.head?_join p habs]
  -- At its end the joined path has nothing more, or the empty piece of a last slash.
  obtain ⟨tail, htail, hsteps⟩ : ∃ tail, (∀ x ∈ tail, Path.isIdle x = true) ∧
      stepsOf (p.join (Path.ofNames names)).text = p.parts ++ (names ++ tail) := by
    rcases stepsOf_eq (p.join (Path.ofNames names)) with e | e
    · exact ⟨[], by simp, by rw [e, Path.parts_join p habs, Path.parts_ofNames hn]; simp⟩
    · exact ⟨[""], by simp [Path.isIdle], by rw [e, Path.parts_join p habs, Path.parts_ofNames hn]; simp⟩
  have hlocate : follow s.root .target linkLimit (startOf p.text s.here)
      (p.parts ++ (names ++ tail)) =
        if ∀ x ∈ names, x.utf8ByteSize ≤ nameLimit then
          .ok (.found (l ++ names) (.dir es))
        else .error .nameTooLong := by
    by_cases hne : names ++ tail = []
    · obtain ⟨rfl, rfl⟩ := List.append_eq_nil_iff.1 hne
      rw [Node.at?_nil, Option.some.injEq] at hes
      simp [hfollow, hes]
    · obtain ⟨k, hk⟩ := follow_append hfollow
      rw [hk _ hne, follow_names hn (Node.view_of_at? hat), follow_end htail hat]
  rw [node, locate_eq, hstart, hsteps, hlocate]
  cases refusal? (p.join (Path.ofNames names)) with
  | some fault => rfl
  | none =>
      by_cases h : ∀ x ∈ names, x.utf8ByteSize ≤ nameLimit
      · simp only [if_pos h]
        rfl
      · simp only [if_neg h]
        rfl

theorem listDirectory_below_ok_iff {s : Session} {p : Path} {entries es : List (String × Node)}
    (hp : s.node p = .ok (.dir entries)) {names : List String} (hn : AreNames names)
    (hes : (Node.dir entries).at? names = some (.dir es)) {listed : List (String × Bool)} :
    s.listDirectory (p.join (Path.ofNames names)) = .ok listed ↔
      refusal? (p.join (Path.ofNames names)) = none ∧
      (∀ x ∈ names, x.utf8ByteSize ≤ nameLimit) ∧ listed = es.map fun e => (e.1, e.2.isDir) := by
  rw [listDirectory_ok_iff, node_below hp hn hes]
  cases refusal? (p.join (Path.ofNames names)) with
  | some fault => simp
  | none =>
      by_cases h : ∀ x ∈ names, x.utf8ByteSize ≤ nameLimit
      · simp only [if_pos h, Except.ok.injEq, Node.dir.injEq, true_and]
        constructor
        · rintro ⟨_, rfl, hl⟩
          exact ⟨h, hl⟩
        · rintro ⟨-, hl⟩
          exact ⟨es, rfl, hl⟩
      · simp only [if_neg h]
        exact ⟨by simp, fun hall => absurd hall.2.1 h⟩

theorem node_dir_of_parts {s : Session} {p q : Path} {entries : List (String × Node)}
    (h : s.node q = .ok (.dir entries)) (hparts : p.parts = q.parts)
    (hstart : startOf p.text s.here = startOf q.text s.here) (hrefusal : refusal? p = none) :
    s.node p = .ok (.dir entries) := by
  obtain ⟨l, hroot, hfollow⟩ := node_dir_follow h
  rw [← hparts, ← hstart] at hfollow
  refine node_ok_iff.2 ⟨l, locate_ok_iff.2 ⟨hrefusal, ?_⟩⟩
  rcases stepsOf_eq p with e | e
  · rw [e, hfollow]
  · obtain ⟨k, hk⟩ := follow_append hfollow
    rw [e, hk _ (by simp), follow_end (by simp [Path.isIdle]) hroot]

/-- What lies directly below a path, with a slash in between, tells what the path leads to. -/
theorem node_of_join_empty {s : Session} {p : Path} {entries : List (String × Node)}
    (h : s.node (p.join ⟨""⟩) = .ok (.dir entries)) : s.node p = .ok (.dir entries) := by
  have hempty : (⟨""⟩ : Path) = Path.ofNames [] := Path.ofNames_nil.symm
  have habs : (⟨""⟩ : Path).isAbsolute = false := hempty ▸ Path.isAbsolute_ofNames Path.areNames_nil
  have hparts : (p.join ⟨""⟩).parts = p.parts := by
    rw [Path.parts_join p habs, hempty, Path.parts_ofNames Path.areNames_nil, List.append_nil]
  have hstart : startOf (p.join ⟨""⟩).text s.here = startOf p.text s.here := by
    simp only [startOf, Path.head?_join p habs]
  obtain ⟨l, hl⟩ := node_ok_iff.1 h
  obtain ⟨hnul, hne, hsize⟩ := refusal?_eq_none_iff.1 (locate_ok_iff.1 hl).1
  refine node_dir_of_parts h hparts.symm hstart.symm (refusal?_eq_none_iff.2 ⟨?_, ?_, ?_⟩)
  · intro hmem
    obtain ⟨part, hpart, hc⟩ := Path.mem_parts_iff.2 ⟨hmem, by decide⟩
    exact hnul (Path.mem_parts_iff.1 ⟨part, hparts ▸ hpart, hc⟩).1
  · intro he
    rcases Path.join_text_cases p habs with ⟨-, ht⟩ | ⟨t, he', -⟩ | ⟨hne', -, -⟩
    · exact hne ht
    · simp [he] at he'
    · exact hne' he
  · have := Path.utf8ByteSize_join p habs
    omega

theorem node_dir_keeps {s s' : Session} {p : Path} {entries : List (String × Node)}
    (hk : s.root.Keeps s'.root) (hhere : s'.here = s.here)
    (h : s.node p = .ok (.dir entries)) :
    ∃ l entries', s.root.at? l = some (.dir entries) ∧ s'.root.at? l = some (.dir entries') ∧
      s'.node p = .ok (.dir entries') := by
  obtain ⟨l, hl⟩ := node_ok_iff.1 h
  have hat := follow_found (locate_ok_iff.1 hl).2
  have hview := hk.dirs (Node.view_of_at? hat)
  obtain ⟨entries', he⟩ := Node.view_eq_dir hview
  obtain ⟨n, hn, -⟩ := locate_keeps hk hhere (by simp) hl hview
  have hn' := follow_found (locate_ok_iff.1 hn).2
  rw [Spot.location, he, Option.some.injEq] at hn'
  exact ⟨l, entries', hat, he, node_ok_iff.2 ⟨l, by rw [hn, ← hn']; rfl⟩⟩

end Session

end DocStamp.Files
