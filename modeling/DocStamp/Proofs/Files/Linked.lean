/-
# Operations where there may be links

A session is `Sound` if its tree is proper and its current directory is
there; links may be anywhere.  From a directory, following a path ends at
what is there or at a free name in a directory (`follow_reached`), and only
whoever asks for the entry itself is given a link.

Two things follow.  Making directories, one after the other (`Makes`),
adds directories where nothing was and changes nothing else (`Extends`),
and a file that has been written is read back by the path that it was
written by (`readText_of_writeFile`).
-/
import DocStamp.Proofs.Files.Operations

namespace DocStamp.Files

/-! ## Following from a directory -/

section

variable {root : Node} {aim : Aim}

theorem view_startOf {here : Location} (h : root.view here = some .dir) (text : String) :
    root.view (startOf text here) = some .dir := by
  unfold startOf
  split
  · exact Node.view_dir_root h
  · exact h

/-- What a spot says is so, and it is a link only if an entry was asked for. -/
structure Spot.Reached (root : Node) (aim : Aim) (spot : Spot) : Prop where
  holds : spot.Holds root
  behind : aim ≠ .entry → ∀ l t, spot ≠ .found l (.link t)

theorem followWith_reached {jump : Location → List String → Except Fault Spot}
    (hjump : ∀ dir pieces spot, root.view dir = some .dir → jump dir pieces = .ok spot →
      spot.Reached root aim)
    {dir : Location} {pieces : List String} {spot : Spot} (hdir : root.view dir = some .dir)
    (h : followWith root aim jump dir pieces = .ok spot) : spot.Reached root aim := by
  induction pieces generalizing dir with
  | nil =>
      obtain ⟨entries, he⟩ := Node.view_eq_dir hdir
      rw [followWith, he] at h
      cases h
      exact ⟨he, by simp⟩
  | cons piece pieces ih =>
      rcases piece_cases piece with hidle | rfl | ⟨hidle, hup⟩
      · exact ih hdir (followWith_idle hidle ▸ h)
      · exact ih (Node.view_dropLast hdir) (followWith_up ▸ h)
      · rw [followWith_name hidle hup] at h
        split at h
        · cases h
        · split at h
          · cases h
          · split at h
            · rename_i hnone
              split at h <;> cases h
              exact ⟨⟨hdir, by simp [Node.view, hnone]⟩, by simp⟩
            · rename_i hd
              exact ih (Node.view_of_at? hd) h
            · rename_i hfile
              split at h <;> cases h
              exact ⟨hfile, by simp⟩
            · rename_i hlink
              split at h
              · rename_i hentry
                cases h
                exact ⟨hlink, fun hne => absurd (by simp_all) hne⟩
              · split at h
                · cases h
                · exact hjump _ _ _ (view_startOf hdir _) h

theorem follow_reached {n : Nat} {dir : Location} {pieces : List String} {spot : Spot}
    (hdir : root.view dir = some .dir) (h : follow root aim n dir pieces = .ok spot) :
    spot.Reached root aim := by
  refine follow_induction
    (motive := fun f => ∀ dir pieces spot, root.view dir = some .dir → f dir pieces = .ok spot →
      spot.Reached root aim)
    (fun _ _ _ _ h => by cases h) (fun jump hjump dir pieces spot hdir h => ?_) n _ _ _ hdir h
  exact followWith_reached hjump hdir h

/-- A path that leads to a file to be written leads there when it is read. -/
theorem followWith_target {jump jump' : Location → List String → Except Fault Spot}
    (hjump : ∀ dir pieces spot, jump dir pieces = .ok spot → jump' dir pieces = .ok spot)
    {dir : Location} {pieces : List String} {spot : Spot}
    (h : followWith root .file jump dir pieces = .ok spot) :
    followWith root .target jump' dir pieces = .ok spot := by
  induction pieces generalizing dir with
  | nil => exact h
  | cons piece pieces ih =>
      rcases piece_cases piece with hidle | rfl | ⟨hidle, hup⟩
      · rw [followWith_idle hidle] at h ⊢
        exact ih h
      · rw [followWith_up] at h ⊢
        exact ih h
      · rw [followWith_name hidle hup] at h ⊢
        rw [if_neg (by simp)]
        split at h
        · cases h
        · split at h
          · cases h
          · rename_i hsize
            rw [if_neg hsize]
            cases hn : root.at? (dir ++ [piece]) with
            | none => simpa only [hn] using h
            | some n =>
                cases n with
                | file => simpa only [hn] using h
                | dir => exact ih (by simpa only [hn] using h)
                | link t =>
                    simp only [hn, reduceCtorEq, decide_false, Bool.and_false,
                      Bool.false_eq_true, if_false] at h ⊢
                    split at h
                    · cases h
                    · rename_i hempty
                      rw [if_neg hempty]
                      exact hjump _ _ _ h

theorem follow_target {n : Nat} {dir : Location} {pieces : List String} {spot : Spot}
    (h : follow root .file n dir pieces = .ok spot) :
    follow root .target n dir pieces = .ok spot := by
  induction n generalizing dir pieces spot with
  | zero => exact followWith_target (fun _ _ _ h => by cases h) h
  | succ n ih => exact followWith_target (fun _ _ _ => ih) h

end

namespace Session

/-- The tree is proper, and the current directory is there. -/
structure Sound (s : Session) : Prop where
  proper : s.root.Proper
  here : s.root.view s.here = some .dir

variable {s s' : Session} {p : Path}

theorem locate_reached (hs : s.root.view s.here = some .dir) {aim : Aim} {spot : Spot}
    (h : s.locate aim p = .ok spot) : spot.Reached s.root aim :=
  follow_reached (view_startOf hs p.text) (locate_ok_iff.1 h).2

/-! ## Making directories -/

/-- Directories were added where nothing was, and nothing else changed. -/
structure Extends (s s' : Session) : Prop where
  here : s'.here = s.here
  documents : s'.documents = s.documents
  printed : s'.printed = s.printed
  view : ∀ l, s'.root.view l = s.root.view l ∨
    s.root.view l = none ∧ s'.root.view l = some .dir

theorem Extends.refl (s : Session) : s.Extends s := ⟨rfl, rfl, rfl, fun _ => .inl rfl⟩

theorem Extends.view_eq (h : s.Extends s') {l : Location} {i : Node.Item}
    (hv : s.root.view l = some i) : s'.root.view l = some i := by
  rcases h.view l with e | ⟨hnone, -⟩
  · rw [e, hv]
  · cases hnone.symm.trans hv

theorem Extends.here_dir (h : s.Extends s') (hs : s.root.view s.here = some .dir) :
    s'.root.view s'.here = some .dir := h.here ▸ h.view_eq hs

theorem Extends.trans {s'' : Session} (h : s.Extends s') (h' : s'.Extends s'') :
    s.Extends s'' := by
  refine ⟨h'.here.trans h.here, h'.documents.trans h.documents, h'.printed.trans h.printed,
    fun l => ?_⟩
  rcases h'.view l with e' | ⟨hnone, hdir⟩
  · exact e' ▸ h.view l
  · rcases h.view l with e | ⟨-, hdir'⟩
    · exact .inr ⟨e ▸ hnone, hdir⟩
    · cases hnone.symm.trans hdir'

theorem makeDirectory_spot (hs : s.root.view s.here = some .dir)
    (h : s.makeDirectory p = .ok s') :
    ∃ d name, s.locate .entry p = .ok (.free d name) ∧ s.root.view d = some .dir ∧
      s.root.view (d ++ [name]) = none ∧
      s' = { s with root := s.root.setAt (.dir []) (d ++ [name]) } ∧
      ∀ l, s'.root.view l = if l = d ++ [name] then some .dir else s.root.view l := by
  obtain ⟨d, name, hl, rfl⟩ := makeDirectory_ok_iff.1 h
  obtain ⟨hdir, hnone⟩ := (locate_reached hs hl).holds
  have hfree : s.root.view (d ++ [name]) ≠ some .dir := by simp [hnone]
  exact ⟨d, name, hl, hdir, hnone, rfl, Node.view_setAt Node.isLeaf_dir_nil hdir hfree⟩

theorem makeDirectory_extends (hs : s.root.view s.here = some .dir)
    (h : s.makeDirectory p = .ok s') : s.Extends s' := by
  obtain ⟨d, name, -, -, hnone, rfl, hview⟩ := makeDirectory_spot hs h
  refine ⟨rfl, rfl, rfl, fun l => ?_⟩
  by_cases hl : l = d ++ [name]
  · exact .inr ⟨hl ▸ hnone, by rw [hview, if_pos hl]⟩
  · exact .inl (by rw [hview, if_neg hl])

/-- Directories were made, one after the other. -/
inductive Makes : Session → Session → Prop
  | refl (s : Session) : Makes s s
  | step {s s' s'' : Session} {p : Path} :
      s.makeDirectory p = .ok s' → Makes s' s'' → Makes s s''

theorem Makes.single (h : s.makeDirectory p = .ok s') : s.Makes s' := .step h (.refl s')

theorem Makes.trans {s'' : Session} (h : s.Makes s') (h' : s'.Makes s'') : s.Makes s'' := by
  induction h with
  | refl s => exact h'
  | step hmake _ ih => exact .step hmake (ih h')

theorem Makes.printed (h : s.Makes s') : s'.printed = s.printed := by
  induction h with
  | refl s => rfl
  | step hmake _ ih =>
      obtain ⟨d, name, -, rfl⟩ := makeDirectory_ok_iff.1 hmake
      exact ih

theorem Makes.extends (h : s.Makes s') (hs : s.root.view s.here = some .dir) : s.Extends s' := by
  induction h with
  | refl s => exact .refl s
  | step hmake _ ih =>
      have hext := makeDirectory_extends hs hmake
      exact hext.trans (ih (hext.here_dir hs))

section

variable {ε : Type}

theorem ensureDirectory_cases (s : Session) (p : Path) :
    (∃ s', s.makeDirectory p = .ok s' ∧
      s.run (ensureDirectory p : ExceptT ε (StateM Session) _) = (.ok (.ok ()), s')) ∨
    (s.isDirectory p = true ∧
      s.run (ensureDirectory p : ExceptT ε (StateM Session) _) = (.ok (.ok ()), s)) ∨
    (∃ e, s.makeDirectory p = .error e ∧ s.isDirectory p = false ∧
      s.run (ensureDirectory p : ExceptT ε (StateM Session) _) = (.ok (.error e), s)) := by
  unfold ensureDirectory
  rw [run_bind, run_makeDirectory]
  cases h : s.makeDirectory p with
  | ok s' => exact .inl ⟨s', rfl, rfl⟩
  | error e =>
      simp only [run_bind, run_isDirectory]
      cases s.isDirectory p with
      | true => exact .inr (.inl ⟨rfl, rfl⟩)
      | false => exact .inr (.inr ⟨e, rfl, rfl, rfl⟩)

/-- The same with the directories above it: only if one of them is missing are they seen to
first. -/
theorem ensureDirectories_cases (s : Session) (n : Nat) {p : Path} (hne : p.text ≠ "") :
    (∃ s', s.makeDirectory p = .ok s' ∧
      s.run (ensureDirectories (n + 1) p : ExceptT ε (StateM Session) _) = (.ok (.ok ()), s')) ∨
    (s.isDirectory p = true ∧
      s.run (ensureDirectories (n + 1) p : ExceptT ε (StateM Session) _) = (.ok (.ok ()), s)) ∨
    (∃ e, s.makeDirectory p = .error e ∧ e ≠ .notFound ∧ s.isDirectory p = false ∧
      s.run (ensureDirectories (n + 1) p : ExceptT ε (StateM Session) _) =
        (.ok (.error e), s)) ∨
    (s.makeDirectory p = .error .notFound ∧ p.parent? = none ∧
      s.run (ensureDirectories (n + 1) p : ExceptT ε (StateM Session) _) =
        (.ok (.error .noTree), s)) ∨
    (∃ q, p.parent? = some q ∧
      (∀ s₁, s.run (ensureDirectories n q : ExceptT ε (StateM Session) _) = (.ok (.ok ()), s₁) →
        s.run (ensureDirectories (n + 1) p : ExceptT ε (StateM Session) _) =
          s₁.run (ensureDirectory p)) ∧
      ∀ e s₁, s.run (ensureDirectories n q : ExceptT ε (StateM Session) _) =
          (.ok (.error e), s₁) →
        s.run (ensureDirectories (n + 1) p : ExceptT ε (StateM Session) _) =
          (.ok (.error e), s₁)) := by
  have hbeq : (p.text == "") = false := beq_eq_false_iff_ne.2 hne
  simp only [ensureDirectories, hbeq, Bool.false_eq_true, if_false]
  rw [run_bind, run_makeDirectory]
  cases h : s.makeDirectory p with
  | ok s' => exact .inl ⟨s', rfl, rfl⟩
  | error e =>
      cases e with
      | notFound =>
          cases hp : p.parent? with
          | none => exact .inr (.inr (.inr (.inl ⟨rfl, rfl, rfl⟩)))
          | some q =>
              refine .inr (.inr (.inr (.inr ⟨q, rfl, ?_, ?_⟩)))
              · intro s₁ hq
                exact run_bind_ok hq _
              · intro e s₁ hq
                exact run_bind_ok hq _
      | _ =>
          simp only [run_bind, run_isDirectory]
          cases s.isDirectory p with
          | true => exact .inr (.inl ⟨rfl, rfl⟩)
          | false => exact .inr (.inr (.inl ⟨_, rfl, by simp, rfl, rfl⟩))

theorem ensureDirectory_makes (s : Session) (p : Path) :
    ∃ r s', s.run (ensureDirectory p : ExceptT ε (StateM Session) _) = (.ok r, s') ∧
      s.Makes s' := by
  rcases ensureDirectory_cases (ε := ε) s p with ⟨s', hmake, hrun⟩ | ⟨-, hrun⟩ | ⟨e, -, -, hrun⟩
  · exact ⟨_, s', hrun, .single hmake⟩
  · exact ⟨_, s, hrun, .refl s⟩
  · exact ⟨_, s, hrun, .refl s⟩

/-- However many of the directories above have to be made, nothing but that is done. -/
theorem ensureDirectories_makes (s : Session) (n : Nat) (p : Path) :
    ∃ r s', s.run (ensureDirectories n p : ExceptT ε (StateM Session) _) = (.ok r, s') ∧
      s.Makes s' := by
  induction n generalizing s p with
  | zero => exact ⟨_, s, rfl, .refl s⟩
  | succ n ih =>
      by_cases hempty : p.text = ""
      · exact ⟨.ok (), s, by simp [ensureDirectories, hempty], .refl s⟩
      · rcases ensureDirectories_cases (ε := ε) s n hempty with
          ⟨s', hmake, hrun⟩ | ⟨-, hrun⟩ | ⟨e, -, -, -, hrun⟩ | ⟨-, -, hrun⟩ |
            ⟨q, -, hmade, hfailed⟩
        · exact ⟨_, s', hrun, .single hmake⟩
        · exact ⟨_, s, hrun, .refl s⟩
        · exact ⟨_, s, hrun, .refl s⟩
        · exact ⟨_, s, hrun, .refl s⟩
        · obtain ⟨r, s₁, hfirst, hmakes⟩ := ih s q
          cases r with
          | error e => exact ⟨_, s₁, hfailed e s₁ hfirst, hmakes⟩
          | ok u =>
              obtain ⟨r', s₂, hthen, hmakes'⟩ := ensureDirectory_makes (ε := ε) s₁ p
              exact ⟨r', s₂, (hmade s₁ hfirst).trans hthen, hmakes.trans hmakes'⟩

theorem ensureParent_makes (s : Session) (p : Path) :
    ∃ r s', s.run (ensureParent p : ExceptT ε (StateM Session) _) = (.ok r, s') ∧
      s.Makes s' := by
  unfold ensureParent
  cases p.parent? with
  | none => exact ⟨_, s, rfl, .refl s⟩
  | some q => exact ensureDirectories_makes s _ q

theorem ensureParent_extends (hs : s.root.view s.here = some .dir) (p : Path) :
    ∃ r s', s.run (ensureParent p : ExceptT ε (StateM Session) _) = (.ok r, s') ∧
      s.Extends s' := by
  obtain ⟨r, s', hrun, hmakes⟩ := ensureParent_makes (ε := ε) s p
  exact ⟨r, s', hrun, hmakes.extends hs⟩

end

/-! ## Reading what was written -/

theorem writeFile_spot (hs : s.root.view s.here = some .dir) {c : Content}
    (h : s.writeFile p c = .ok s') :
    ∃ spot d name, s.locate .file p = .ok spot ∧ spot.location = d ++ [name] ∧
      s.root.view d = some .dir ∧ s.root.view (d ++ [name]) ≠ some .dir ∧
      (∀ t, s.root.view (d ++ [name]) ≠ some (.link t)) ∧
      s' = { s with root := s.root.setAt (.file c) (d ++ [name]) } := by
  obtain ⟨spot, hl, hne, rfl⟩ := writeFile_ok_iff.1 h
  obtain ⟨hholds, hbehind⟩ := locate_reached hs hl
  cases spot with
  | free d name =>
      obtain ⟨hdir, hnone⟩ := hholds
      exact ⟨_, d, name, hl, rfl, hdir, by simp [hnone], by simp [hnone], rfl⟩
  | found l n =>
      obtain ⟨c', rfl⟩ : ∃ c', n = .file c' := by
        cases n with
        | file c' => exact ⟨c', rfl⟩
        | link t => exact absurd rfl (hbehind (by simp) l t)
        | dir entries => exact absurd rfl (hne l entries)
      have hview : s.root.view l = some (.file c') := Node.view_of_at? hholds
      -- A file is not at the root, where a directory is.
      rcases List.eq_nil_or_concat l with rfl | ⟨d, name, rfl⟩
      · cases (Node.view_dir_root hs).symm.trans hview
      · rw [List.concat_eq_append] at hl hview ⊢
        exact ⟨_, d, name, hl, rfl, Node.view_dir_of_append (by simp) hview, by simp [hview],
          by simp [hview], rfl⟩

theorem readText_of_writeFile (hs : s.root.view s.here = some .dir) {t : String}
    (h : s.writeFile p (.text t) = .ok s') : s'.readText p = .ok t := by
  obtain ⟨spot, d, name, hl, hloc, hdir, hnotDir, hnotLink, hs'⟩ := writeFile_spot hs h
  have hview : ∀ l, s'.root.view l =
      if l = d ++ [name] then some (.file (.text t)) else s.root.view l :=
    hs' ▸ Node.view_setAt (Node.isLeaf_file (.text t)) hdir hnotDir
  have hkeeps : s.root.Keeps s'.root := by
    constructor
    · intro x hx
      rw [hview, if_neg fun e : x = d ++ [name] => hnotDir (e ▸ hx), hx]
    · intro x target hx
      rw [hview, if_neg fun e : x = d ++ [name] => hnotLink target (e ▸ hx), hx]
  obtain ⟨n, hn, hi⟩ := locate_keeps (i := .file (.text t)) hkeeps (hs' ▸ rfl) (by simp) hl
    (by rw [hview, if_pos hloc])
  obtain ⟨hrefusal, hfollow⟩ := locate_ok_iff.1 hn
  have hread := node_ok_iff.2 ⟨_, locate_ok_iff.2 ⟨hrefusal, follow_target hfollow⟩⟩
  cases n with
  | file c =>
      cases hi
      exact readText_ok_iff.2 hread
  | dir | link => cases hi

theorem here_dir_of_writeFile (hs : s.root.view s.here = some .dir) {c : Content}
    (h : s.writeFile p c = .ok s') : s'.root.view s'.here = some .dir := by
  obtain ⟨-, d, name, -, -, hdir, hnotDir, -, rfl⟩ := writeFile_spot hs h
  rw [Node.view_setAt (Node.isLeaf_file c) hdir hnotDir, if_neg]
  · exact hs
  · intro e
    exact hnotDir (e ▸ hs)

theorem documents_of_writeFile {c : Content} (h : s.writeFile p c = .ok s') :
    s'.documents = s.documents := by
  obtain ⟨-, -, -, rfl⟩ := writeFile_ok_iff.1 h
  rfl

theorem printed_of_writeFile {c : Content} (h : s.writeFile p c = .ok s') :
    s'.printed = s.printed := by
  obtain ⟨-, -, -, rfl⟩ := writeFile_ok_iff.1 h
  rfl

end Session

end DocStamp.Files
