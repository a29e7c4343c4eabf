/-
# Making the directory that a path lies in

Links may be anywhere.  Asked for the entry itself or for what is behind
all links, a path leads to the same, unless the entry is a link
(`follow_entry_or_link`).  So a directory that has just been made is
there for whoever follows its path, and one that is there is met as
something that exists when it is made again.

Making the directory that a path lies in makes the missing ones above it
first, and stops at the first that cannot be made (`Refuses`).  Whether or
not it succeeds, it only adds directories
(`ensureParent_adds_directories`).
-/
import DocStamp.Proofs.Files.Linked
import DocStamp.Proofs.Path.Ancestors

namespace DocStamp.Files

open DocStamp.Path (IsName)

/-! ## The entry, and what is behind it -/

section

variable {root : Node}

theorem followWith_entry_or_link {jump jump' : Location → List String → Except Fault Spot}
    (hjump : ∀ dir pieces, jump dir pieces = jump' dir pieces ∨
      ∃ l t, jump dir pieces = .ok (.found l (.link t)))
    (dir : Location) (pieces : List String) :
    followWith root .entry jump dir pieces = followWith root .target jump' dir pieces ∨
      ∃ l t, followWith root .entry jump dir pieces = .ok (.found l (.link t)) := by
  induction pieces generalizing dir with
  | nil => exact .inl rfl
  | cons piece pieces ih =>
      rcases piece_cases piece with hidle | rfl | ⟨hidle, hup⟩
      · rw [followWith_idle hidle, followWith_idle hidle]
        exact ih dir
      · rw [followWith_up, followWith_up]
        exact ih dir.dropLast
      · have haim : ∀ aim : Aim, aim ≠ .file → ¬ (aim = .file ∧ pieces = [""]) :=
          fun _ h h' => h h'.1
        rw [followWith_name hidle hup, followWith_name hidle hup, if_neg (haim .entry (by simp)),
          if_neg (haim .target (by simp))]
        by_cases hsize : nameLimit < piece.utf8ByteSize
        · rw [if_pos hsize, if_pos hsize]
          exact .inl rfl
        · rw [if_neg hsize, if_neg hsize]
          cases hn : root.at? (dir ++ [piece]) with
          | none => exact .inl rfl
          | some n =>
              cases n with
              | file c => exact .inl rfl
              | dir entries => exact ih (dir ++ [piece])
              | link t =>
                  cases pieces with
                  | nil => exact .inr ⟨_, t, rfl⟩
                  | cons x xs =>
                      by_cases hempty : (t == "") = true
                      · simp [hempty]
                      · simpa [hempty] using hjump (startOf t dir) (stepsOf t ++ x :: xs)

/-- Only a link tells the entry from what is behind it. -/
theorem follow_entry_or_link (n : Nat) (dir : Location) (pieces : List String) :
    follow root .entry n dir pieces = follow root .target n dir pieces ∨
      ∃ l t, follow root .entry n dir pieces = .ok (.found l (.link t)) := by
  induction n generalizing dir pieces with
  | zero => exact followWith_entry_or_link (fun _ _ => .inl rfl) dir pieces
  | succ n ih => exact followWith_entry_or_link ih dir pieces

/-! ## The names that directories are made with -/

theorem mem_stepsOf {p : Path} {x : String} (h : x ∈ stepsOf p.text) : x ∈ p.parts ∨ x = "" := by
  rcases stepsOf_eq p with e | e <;> rw [e] at h
  · exact .inl h
  · exact (List.mem_append.1 h).imp_right List.mem_singleton.1

theorem no_slash_of_mem_stepsOf {text x : String} (h : x ∈ stepsOf text) : '/' ∉ x.toList := by
  rcases mem_stepsOf (p := ⟨text⟩) h with hpart | rfl
  · exact Path.slash_not_mem_part hpart
  · simp

theorem followWith_free_isName {aim : Aim} {jump : Location → List String → Except Fault Spot}
    (hjump : ∀ dir pieces, (∀ x ∈ pieces, '/' ∉ x.toList) → ∀ d name,
      jump dir pieces = .ok (.free d name) → IsName name)
    {dir d : Location} {pieces : List String} {name : String}
    (hpieces : ∀ x ∈ pieces, '/' ∉ x.toList)
    (h : followWith root aim jump dir pieces = .ok (.free d name)) : IsName name := by
  induction pieces generalizing dir with
  | nil =>
      rw [followWith] at h
      split at h <;> cases h
  | cons piece pieces ih =>
      obtain ⟨hpiece, hrest⟩ := List.forall_mem_cons.1 hpieces
      rcases piece_cases piece with hidle | rfl | ⟨hidle, hup⟩
      · exact ih hrest (followWith_idle hidle ▸ h)
      · exact ih hrest (followWith_up ▸ h)
      · rw [followWith_name hidle hup] at h
        split at h
        · cases h
        · split at h
          · cases h
          · split at h
            · split at h <;> cases h
              obtain ⟨hempty, hhere⟩ := Bool.or_eq_false_iff.1 hidle
              exact ⟨beq_eq_false_iff_ne.1 hempty, beq_eq_false_iff_ne.1 hhere, hup, hpiece⟩
            · exact ih hrest h
            · split at h <;> cases h
            · split at h
              · cases h
              · split at h
                · cases h
                · refine hjump _ _ ?_ _ _ h
                  intro x hx
                  exact (List.mem_append.1 hx).elim no_slash_of_mem_stepsOf (hrest x)

theorem follow_free_isName {aim : Aim} {n : Nat} {dir d : Location} {pieces : List String}
    {name : String} (hpieces : ∀ x ∈ pieces, '/' ∉ x.toList)
    (h : follow root aim n dir pieces = .ok (.free d name)) : IsName name := by
  refine follow_induction
    (motive := fun f => ∀ dir pieces, (∀ x ∈ pieces, '/' ∉ x.toList) → ∀ d name,
      f dir pieces = .ok (.free d name) → IsName name)
    (fun _ _ _ _ _ h => by cases h) (fun jump hjump dir pieces hpieces d name h => ?_) n
    _ _ hpieces _ _ h
  exact followWith_free_isName hjump hpieces h

end

namespace Session

variable {s s' : Session} {p : Path}

theorem locate_entry_or_link (s : Session) (p : Path) :
    s.locate .entry p = s.locate .target p ∨
      ∃ l t, s.locate .entry p = .ok (.found l (.link t)) := by
  rw [locate_eq, locate_eq]
  cases refusal? p with
  | some fault => exact .inl rfl
  | none => exact follow_entry_or_link _ _ _

theorem isDirectory_of_makeDirectory (hs : s.root.view s.here = some .dir)
    (h : s.makeDirectory p = .ok s') : s'.isDirectory p = true := by
  have hext := makeDirectory_extends hs h
  obtain ⟨d, name, hl, -, -, -, hview⟩ := makeDirectory_spot hs h
  obtain ⟨n, hn, hi⟩ := locate_keeps ⟨hext.view_eq, hext.view_eq⟩ hext.here (by simp) hl
    ((hview _).trans (if_pos rfl))
  -- What was made is no link, so it is also what is behind all links.
  rcases locate_entry_or_link _ p with heq | ⟨l, t, hlink⟩
  · exact isDirectory_iff.2 ⟨n, node_ok_iff.2 ⟨_, heq ▸ hn⟩, hi⟩
  · rw [hlink] at hn
    cases hn
    cases hi

theorem makeDirectory_of_isDirectory (h : s.isDirectory p = true) :
    s.makeDirectory p = .error .exists := by
  obtain ⟨n, hn, -⟩ := isDirectory_iff.1 h
  obtain ⟨l, hl⟩ := node_ok_iff.1 hn
  rcases locate_entry_or_link s p with heq | ⟨l', t, hlink⟩
  · rw [makeDirectory, heq, hl]
    rfl
  · rw [makeDirectory, hlink]
    rfl

/-- A path without a parent leads to where it starts, so it is never missing. -/
theorem makeDirectory_ne_notFound (hs : s.root.view s.here = some .dir) (hne : p.text ≠ "")
    (hp : p.parent? = none) : s.makeDirectory p ≠ .error .notFound := by
  have hidle : ∀ x ∈ stepsOf p.text, Path.isIdle x = true := by
    intro x hx
    rcases mem_stepsOf hx with hpart | rfl
    · exact Path.isIdle_of_parent?_eq_none hp x (List.mem_filter.1 hpart).1
    · rfl
  obtain ⟨entries, he⟩ := Node.view_eq_dir (view_startOf hs p.text)
  rw [makeDirectory, locate_eq, follow_end hidle he]
  cases hrefusal : refusal? p with
  | none => simp [bind, Except.bind, throw, throwThe, MonadExceptOf.throw]
  | some fault =>
      rintro ⟨⟩
      exact refusal?_ne_notFound hne hrefusal

theorem makeDirectory_sound (hs : s.Sound) (h : s.makeDirectory p = .ok s') : s'.Sound := by
  have hhere := (makeDirectory_extends hs.here h).here_dir hs.here
  obtain ⟨d, name, hl, hdir, -, rfl, -⟩ := makeDirectory_spot hs.here h
  have hname : IsName name :=
    follow_free_isName (fun _ hx => no_slash_of_mem_stepsOf hx) (locate_ok_iff.1 hl).2
  obtain ⟨entries, he⟩ := Node.view_eq_dir hdir
  exact ⟨Node.Proper.setAt hname (Node.proper_dir_iff.2 (by simp)) hs.proper he, hhere⟩

theorem Makes.sound (h : s.Makes s') (hs : s.Sound) : s'.Sound := by
  induction h with
  | refl s => exact hs
  | step hmake _ ih => exact ih (makeDirectory_sound hs hmake)

/-! ## Making a directory with those above it -/

/-- The directory that a path lies in is there; the empty path is the current directory. -/
def HasParent (s : Session) (p : Path) : Prop :=
  ∃ q, p.parent? = some q ∧ (q.text = "" ∨ s.isDirectory q = true)

/-- No directory is there, and none can be made, though not for want of the one it would lie in. -/
structure Refuses (s : Session) (p : Path) (e : Fault) : Prop where
  missing : s.isDirectory p = false
  refused : s.makeDirectory p = .error e
  parent : e = .notFound → s.HasParent p

section

variable {ε : Type}

theorem isDirectory_of_ensureDirectory (hs : s.root.view s.here = some .dir)
    (h : s.run (ensureDirectory p : ExceptT ε (StateM Session) _) = (.ok (.ok ()), s')) :
    s'.isDirectory p = true := by
  rcases ensureDirectory_cases (ε := ε) s p with ⟨s₁, hmake, hrun⟩ | ⟨hdir, hrun⟩ | ⟨e, -, -, hrun⟩
  · cases hrun.symm.trans h
    exact isDirectory_of_makeDirectory hs hmake
  · cases hrun.symm.trans h
    exact hdir
  · cases hrun.symm.trans h

theorem isDirectory_of_ensureDirectories (hs : s.root.view s.here = some .dir) (hne : p.text ≠ "")
    {n : Nat}
    (h : s.run (ensureDirectories (n + 1) p : ExceptT ε (StateM Session) _) = (.ok (.ok ()), s')) :
    s'.isDirectory p = true := by
  rcases ensureDirectories_cases (ε := ε) s n hne with
    ⟨s₁, hmake, hrun⟩ | ⟨hdir, hrun⟩ | ⟨e, -, -, -, hrun⟩ | ⟨-, -, hrun⟩ | ⟨q, -, hmade, hfailed⟩
  · cases hrun.symm.trans h
    exact isDirectory_of_makeDirectory hs hmake
  · cases hrun.symm.trans h
    exact hdir
  · cases hrun.symm.trans h
  · cases hrun.symm.trans h
  · obtain ⟨r, s₁, hfirst, hmakes⟩ := ensureDirectories_makes (ε := ε) s n q
    cases r with
    | error e => cases (hfailed e s₁ hfirst).symm.trans h
    | ok u =>
        have hs₁ := (hmakes.extends hs).here_dir hs
        exact isDirectory_of_ensureDirectory hs₁ ((hmade s₁ hfirst).symm.trans h)

/-- If a directory is not made, then one above it, or it itself, cannot be.  The number of steps
does not run out before, since a parent is shorter than what lies in it. -/
theorem refuses_of_ensureDirectories (hs : s.root.view s.here = some .dir) {n : Nat}
    (hn : p.text.length < n) {e : Fault}
    (h : s.run (ensureDirectories n p : ExceptT ε (StateM Session) _) = (.ok (.error e), s')) :
    ∃ a ∈ p.ancestors, s'.Refuses a e := by
  induction n generalizing p s' with
  | zero => exact absurd hn (Nat.not_lt_zero _)
  | succ n ih =>
      by_cases hempty : p.text = ""
      · simp [ensureDirectories, hempty] at h
      · rcases ensureDirectories_cases (ε := ε) s n hempty with
          ⟨s₁, -, hrun⟩ | ⟨-, hrun⟩ | ⟨e', hmake, hfound, hdir, hrun⟩ | ⟨hmake, hp, -⟩ |
            ⟨q, hq, hmade, hfailed⟩
        · cases hrun.symm.trans h
        · cases hrun.symm.trans h
        · cases hrun.symm.trans h
          exact ⟨p, Path.mem_ancestors_self p, hdir, hmake, fun he => absurd he hfound⟩
        · exact absurd hmake (makeDirectory_ne_notFound hs hempty hp)
        · have hlt := Path.length_parent?_lt hq
          obtain ⟨r, s₁, hfirst, -⟩ := ensureDirectories_makes (ε := ε) s n q
          cases r with
          | error e' =>
              cases (hfailed e' s₁ hfirst).symm.trans h
              obtain ⟨a, ha, hrefuses⟩ := ih (by omega) hfirst
              exact ⟨a, Path.mem_ancestors_iff.2 (.inr ⟨q, hq, ha⟩), hrefuses⟩
          | ok u =>
              -- Above the path all is there now, so what fails is the path itself.
              have hparent : s₁.HasParent p := by
                obtain ⟨k, rfl⟩ := Nat.exists_eq_add_one_of_ne_zero (n := n) (by omega)
                refine ⟨q, hq, (em (q.text = "")).imp_right fun hne => ?_⟩
                exact isDirectory_of_ensureDirectories hs hne hfirst
              have hthen := (hmade s₁ hfirst).symm.trans h
              rcases ensureDirectory_cases (ε := ε) s₁ p with
                ⟨s₂, -, hrun⟩ | ⟨-, hrun⟩ | ⟨e', hmake, hdir, hrun⟩
              · cases hrun.symm.trans hthen
              · cases hrun.symm.trans hthen
              · cases hrun.symm.trans hthen
                exact ⟨p, Path.mem_ancestors_self p, hdir, hmake, fun _ => hparent⟩

/-- The directory that a path lies in is not made only if there is no such directory, or if it or
one above it cannot be made. -/
theorem refuses_of_ensureParent (hs : s.root.view s.here = some .dir) {e : Fault}
    (h : s.run (ensureParent p : ExceptT ε (StateM Session) _) = (.ok (.error e), s')) :
    (p.parent? = none ∧ e = .noParent p.text) ∨
      ∃ q, p.parent? = some q ∧ ∃ a ∈ q.ancestors, s'.Refuses a e := by
  unfold ensureParent at h
  cases hp : p.parent? with
  | none =>
      rw [hp] at h
      cases h
      exact .inl ⟨rfl, rfl⟩
  | some q =>
      rw [hp] at h
      exact .inr ⟨q, rfl, refuses_of_ensureDirectories hs (Nat.lt_succ_self _) h⟩

theorem hasParent_of_ensureParent (hs : s.root.view s.here = some .dir)
    (h : s.run (ensureParent p : ExceptT ε (StateM Session) _) = (.ok (.ok ()), s')) :
    s'.HasParent p := by
  unfold ensureParent at h
  cases hp : p.parent? with
  | none =>
      rw [hp] at h
      cases h
  | some q =>
      rw [hp] at h
      refine ⟨q, hp, ?_⟩
      by_cases hq : q.text = ""
      · exact .inl hq
      · exact .inr (isDirectory_of_ensureDirectories hs hq h)

theorem HasParent.ensureParent_again (h : s.HasParent p) :
    s.run (ensureParent p : ExceptT ε (StateM Session) _) = (.ok (.ok ()), s) := by
  obtain ⟨q, hq, hdir⟩ := h
  simp only [ensureParent, hq]
  by_cases hempty : q.text = ""
  · simp [ensureDirectories, hempty]
  · have hthere := hdir.resolve_left hempty
    have hbeq : (q.text == "") = false := beq_eq_false_iff_ne.2 hempty
    simp only [ensureDirectories, hbeq, Bool.false_eq_true, if_false, run_bind, run_makeDirectory,
      makeDirectory_of_isDirectory hthere, run_isDirectory, hthere, if_true, run_pure]

end

end Session

/-- Making the directory that a path lies in gives back a session in which all that could be seen is
as it was and all that was added are directories, whether or not it succeeds.  If it does, the
directory is there, and doing it again succeeds and changes nothing.  If it does not, the path has no
parent, or one of the directories from the parent upwards is not there and cannot be made. -/
theorem Session.ensureParent_adds_directories {ε : Type} {s : Session} (hs : s.Sound) (p : Path) :
    ∃ r s', s.run (ensureParent p : ExceptT ε (StateM Session) _) = (.ok r, s') ∧
      s'.Sound ∧ s'.here = s.here ∧ s'.documents = s.documents ∧ s'.printed = s.printed ∧
      (∀ l i, s.root.view l = some i → s'.root.view l = some i) ∧
      (∀ l i, s.root.view l = none → s'.root.view l = some i → i = .dir) ∧
      (r = .ok () → ∃ q, p.parent? = some q ∧
        (q.text = "" → s'.root.view s'.here = some .dir) ∧
        (q.text ≠ "" → s'.isDirectory q = true) ∧
        s'.run (ensureParent p : ExceptT ε (StateM Session) _) = (.ok (.ok ()), s')) ∧
      (∀ e, r = .error e → (p.parent? = none ∧ e = .noParent p.text) ∨
        ∃ q, p.parent? = some q ∧ ∃ a ∈ q.ancestors, s'.Refuses a e) := by
  obtain ⟨r, s', hrun, hmakes⟩ := ensureParent_makes (ε := ε) s p
  have hext := hmakes.extends hs.here
  have hs' := hmakes.sound hs
  refine ⟨r, s', hrun, hs', hext.here, hext.documents, hext.printed, fun l i => hext.view_eq,
    ?_, ?_, ?_⟩
  · intro l i hnone hi
    rcases hext.view l with e | ⟨-, hdir⟩
    · cases (e.symm.trans hi).symm.trans hnone
    · exact Option.some.inj (hi.symm.trans hdir)
  · rintro rfl
    have hparent := hasParent_of_ensureParent hs.here hrun
    have hagain := hparent.ensureParent_again (ε := ε)
    obtain ⟨q, hq, hdir⟩ := hparent
    exact ⟨q, hq, fun _ => hs'.here, hdir.resolve_left, hagain⟩
  · rintro e rfl
    exact refuses_of_ensureParent hs.here hrun

/-- A link to a directory, and one that leads nowhere. -/
def linkedSession : Session where
  root := .dir [("docs", .dir []), ("out", .link "docs"), ("gone", .link "nowhere")]
  here := []

/-- Through a link, the directory that `..` leads out of is made first.  Behind the link that leads
nowhere nothing can be made. -/
theorem Session.ensureParent_adds_directories_linked :
    linkedSession.Sound ∧
    (∃ s', linkedSession.run (ensureParent ⟨"out/a/../b/x.rst"⟩ : ExceptT Unit (StateM Session) _) =
        (.ok (.ok ()), s') ∧
      s'.root.view ["docs", "a"] = some .dir ∧ s'.isDirectory ⟨"out/a/../b"⟩ = true ∧
      s'.root.view ["gone"] = some (.link "nowhere") ∧
      s'.run (ensureParent ⟨"out/a/../b/x.rst"⟩ : ExceptT Unit (StateM Session) _) =
        (.ok (.ok ()), s')) ∧
    ∃ fault s', linkedSession.run
        (ensureParent ⟨"gone/a/x.rst"⟩ : ExceptT Unit (StateM Session) _) =
        (.ok (.error fault), s') ∧
      s'.root.view ["gone"] = some (.link "nowhere") ∧
      ∃ a ∈ (⟨"gone/a"⟩ : Path).ancestors, s'.Refuses a fault := by
  have hs : linkedSession.Sound := by
    refine ⟨?_, rfl⟩
    simp +decide [linkedSession, Node.proper_dir_iff]
  refine ⟨hs, ?_, ?_⟩
  · obtain ⟨r, s', hrun, -, -, -, -, hkept, -, hdone, -⟩ :=
      ensureParent_adds_directories (ε := Unit) hs ⟨"out/a/../b/x.rst"⟩
    have hok : (linkedSession.run
        (ensureParent ⟨"out/a/../b/x.rst"⟩ : ExceptT Unit (StateM Session) _)).1.toOption.bind
          Except.toOption = some () := by
      decide +kernel
    have hmade : (linkedSession.run
        (ensureParent ⟨"out/a/../b/x.rst"⟩ : ExceptT Unit (StateM Session) _)).2.root.view
          ["docs", "a"] = some .dir := by
      decide +kernel
    rw [hrun] at hok hmade
    obtain rfl := eq_ok_of_toOption (r := r) hok
    obtain ⟨q, hq, -, hdir, hagain⟩ := hdone rfl
    obtain rfl : q = ⟨"out/a/../b"⟩ := Option.some.inj (hq.symm.trans (by decide +kernel))
    exact ⟨s', hrun, hmade, hdir (by decide), hkept _ _ rfl, hagain⟩
  · obtain ⟨r, s', hrun, -, -, -, -, hkept, -, -, hrefuses⟩ :=
      ensureParent_adds_directories (ε := Unit) hs ⟨"gone/a/x.rst"⟩
    have hfails : (linkedSession.run
        (ensureParent ⟨"gone/a/x.rst"⟩ : ExceptT Unit (StateM Session) _)).1.toOption.bind
          Except.toOption = none := by
      decide +kernel
    rw [hrun] at hfails
    cases r with
    | ok u => cases hfails
    | error fault =>
        have hparent : (⟨"gone/a/x.rst"⟩ : Path).parent? = some ⟨"gone/a"⟩ := by decide +kernel
        rcases hrefuses fault rfl with ⟨hnone, -⟩ | ⟨q, hq, hancestor⟩
        · cases hnone.symm.trans hparent
        · cases hq.symm.trans hparent
          exact ⟨fault, s', hrun, hkept _ _ rfl, hancestor⟩

end DocStamp.Files
