/-
# Following paths

Where no link can be seen, a path that leads somewhere leads to its
location (`follow_ok`): the text alone decides.  What a path leads to
survives every change that keeps directories and links where they are
(`follow_keeps`).  With links, a path below another leads below what the
other leads to (`follow_append`).
-/
import DocStamp.Proofs.Files.View
import DocStamp.Proofs.Path.Location

namespace DocStamp.Files

open DocStamp.Path (AreNames IsName move parts)

/-! ## Spots -/

/-- The location of a spot, whether or not something is there. -/
def Spot.location : Spot → Location
  | .found l _ => l
  | .free d name => d ++ [name]

/-- What a spot says is so: the node is there, or the directory is and nothing in it. -/
def Spot.Holds (root : Node) : Spot → Prop
  | .found l n => root.at? l = some n
  | .free d name => root.view d = some .dir ∧ root.view (d ++ [name]) = none

/-! ## The pieces that a path is followed by -/

theorem stepsOf_eq (p : Path) : stepsOf p.text = p.parts ∨ stepsOf p.text = p.parts ++ [""] := by
  simp only [stepsOf]
  split
  · exact .inr rfl
  · exact .inl rfl

theorem stepsOf_of_getLast? {p : Path} (h : p.text.toList.getLast? ≠ some '/') :
    stepsOf p.text = p.parts := by
  simp [stepsOf, h, Path.parts]

theorem foldl_move_stepsOf (p : Path) (d : Location) :
    (stepsOf p.text).foldl move d = p.parts.foldl move d := by
  rcases stepsOf_eq p with h | h <;> rw [h]
  simp [move, Path.isIdle]

/-! ## One piece at a time -/

section

variable {root : Node} {aim : Aim} {jump : Location → List String → Except Fault Spot}
  {dir : Location} {piece : String} {pieces : List String}

theorem followWith_idle (h : Path.isIdle piece = true) :
    followWith root aim jump dir (piece :: pieces) = followWith root aim jump dir pieces := by
  have h' : (piece == "" || piece == ".") = true := h
  rw [followWith, if_pos h']

theorem followWith_up :
    followWith root aim jump dir (".." :: pieces) = followWith root aim jump dir.dropLast pieces := by
  rw [followWith]
  rfl

theorem followWith_name (hidle : Path.isIdle piece = false) (hup : piece ≠ "..") :
    followWith root aim jump dir (piece :: pieces) =
      if aim = .file ∧ pieces = [""] then .error .isDirectory
      else if nameLimit < piece.utf8ByteSize then .error .nameTooLong
      else
        match root.at? (dir ++ [piece]) with
        | none => if pieces.isEmpty then .ok (.free dir piece) else .error .notFound
        | some (.dir _) => followWith root aim jump (dir ++ [piece]) pieces
        | some (.file c) =>
            if pieces.isEmpty then .ok (.found (dir ++ [piece]) (.file c))
            else .error .notDirectory
        | some (.link target) =>
            if pieces.isEmpty && aim = .entry then .ok (.found (dir ++ [piece]) (.link target))
            else if target == "" then .error .notFound
            else jump (startOf target dir) (stepsOf target ++ pieces) := by
  have h : ¬ (piece == "" || piece == ".") = true := by simpa [Path.isIdle] using hidle
  exact (if_neg h).trans (if_neg (by simpa using hup))

theorem followWith_last {n : Node} (hidle : Path.isIdle piece = false) (hup : piece ≠ "..")
    (hsize : ¬ nameLimit < piece.utf8ByteSize) (hn : root.at? (dir ++ [piece]) = some n)
    (hlink : ∀ t, n.item ≠ .link t) :
    followWith root aim jump dir [piece] = .ok (.found (dir ++ [piece]) n) := by
  rw [followWith_name hidle hup, if_neg (by simp), if_neg hsize, hn]
  cases n with
  | dir => simp [followWith, hn]
  | file => rfl
  | link t => exact absurd rfl (hlink t)

theorem piece_cases (piece : String) :
    Path.isIdle piece = true ∨ piece = ".." ∨ (Path.isIdle piece = false ∧ piece ≠ "..") := by
  by_cases hup : piece = ".."
  · exact .inr (.inl hup)
  · cases h : Path.isIdle piece with
    | true => exact .inl rfl
    | false => exact .inr (.inr ⟨rfl, hup⟩)

end

/-! ## Without links the text decides -/

/-- Where no link can be seen, following from a directory leads to the location that the
pieces spell. -/
theorem followWith_ok {root : Node} {aim : Aim} (hfree : root.LinkFree)
    {jump : Location → List String → Except Fault Spot} {dir : Location} {pieces : List String}
    {spot : Spot} (hdir : root.view dir = some .dir)
    (h : followWith root aim jump dir pieces = .ok spot) :
    spot.location = pieces.foldl move dir ∧ spot.Holds root := by
  induction pieces generalizing dir with
  | nil =>
      obtain ⟨entries, he⟩ := Node.view_eq_dir hdir
      rw [followWith, he] at h
      cases h
      exact ⟨rfl, he⟩
  | cons piece pieces ih =>
      rw [List.foldl_cons]
      rcases piece_cases piece with hidle | rfl | ⟨hidle, hup⟩
      · rw [followWith_idle hidle] at h
        simpa [move, hidle] using ih hdir h
      · rw [followWith_up] at h
        exact ih (Node.view_dropLast hdir) h
      · have hmove : move dir piece = dir ++ [piece] := by simp [move, hidle, hup]
        rw [followWith_name hidle hup] at h
        rw [hmove]
        split at h
        · cases h
        · split at h
          · cases h
          · split at h
            · rename_i hnone
              cases pieces with
              | nil =>
                  cases h
                  exact ⟨rfl, hdir, by simp [Node.view, hnone]⟩
              | cons => cases h
            · rename_i hd
              exact ih (Node.view_of_at? hd) h
            · rename_i c hc
              cases pieces with
              | nil =>
                  cases h
                  exact ⟨rfl, hc⟩
              | cons => cases h
            · rename_i t ht
              exact absurd (Node.view_of_at? ht) (hfree _ t)

theorem follow_ok {root : Node} {aim : Aim} (hfree : root.LinkFree) {n : Nat} {dir : Location}
    {pieces : List String} {spot : Spot} (hdir : root.view dir = some .dir)
    (h : follow root aim n dir pieces = .ok spot) :
    spot.location = pieces.foldl move dir ∧ spot.Holds root := by
  cases n with
  | zero => exact followWith_ok hfree hdir h
  | succ n => exact followWith_ok hfree hdir h

theorem followWith_free {root : Node} {aim : Aim} (hfree : root.LinkFree)
    {jump : Location → List String → Except Fault Spot} {dir d : Location}
    {pieces : List String} {name : String}
    (h : followWith root aim jump dir pieces = .ok (.free d name)) :
    name ∈ pieces ∧ name.utf8ByteSize ≤ nameLimit := by
  induction pieces generalizing dir with
  | nil =>
      rw [followWith] at h
      split at h <;> cases h
  | cons piece pieces ih =>
      have hlater : (name ∈ pieces ∧ name.utf8ByteSize ≤ nameLimit) →
          name ∈ piece :: pieces ∧ name.utf8ByteSize ≤ nameLimit :=
        fun hl => ⟨List.mem_cons_of_mem _ hl.1, hl.2⟩
      rcases piece_cases piece with hidle | rfl | ⟨hidle, hup⟩
      · exact hlater (ih (followWith_idle hidle ▸ h))
      · exact hlater (ih (followWith_up ▸ h))
      · rw [followWith_name hidle hup] at h
        split at h
        · cases h
        · split at h
          · cases h
          · rename_i hsize
            split at h
            · split at h <;> cases h
              exact ⟨List.mem_cons_self, Nat.not_lt.1 hsize⟩
            · exact hlater (ih h)
            · split at h <;> cases h
            · rename_i t ht
              exact absurd (Node.view_of_at? ht) (hfree _ t)

theorem follow_free {root : Node} {aim : Aim} (hfree : root.LinkFree) {n : Nat}
    {dir d : Location} {pieces : List String} {name : String}
    (h : follow root aim n dir pieces = .ok (.free d name)) :
    name ∈ pieces ∧ name.utf8ByteSize ≤ nameLimit := by
  cases n <;> exact followWith_free hfree h

/-! ## What survives a change -/

/-- Directories and links stay where they are. -/
structure Node.Keeps (a b : Node) : Prop where
  dirs : ∀ {l : Location}, a.view l = some .dir → b.view l = some .dir
  links : ∀ {l : Location} {t : String}, a.view l = some (.link t) → b.view l = some (.link t)

theorem Node.Keeps.refl (a : Node) : a.Keeps a := ⟨id, id⟩

theorem Node.Keeps.trans {a b c : Node} (hab : a.Keeps b) (hbc : b.Keeps c) : a.Keeps c :=
  ⟨fun h => hbc.dirs (hab.dirs h), fun h => hbc.links (hab.links h)⟩

/-- A result that leads to a location, where an `i` is. -/
def Revisited (result : Except Fault Spot) (l : Location) (i : Node.Item) : Prop :=
  ∃ n, result = .ok (.found l n) ∧ n.item = i

theorem followWith_keeps {a b : Node} {aim : Aim} (hk : a.Keeps b) {i : Node.Item}
    (hi : ∀ t, i ≠ .link t) {jump jump' : Location → List String → Except Fault Spot}
    (hjump : ∀ {d ps spot}, jump d ps = .ok spot → b.view spot.location = some i →
      Revisited (jump' d ps) spot.location i)
    {dir : Location} {pieces : List String} {spot : Spot}
    (h : followWith a aim jump dir pieces = .ok spot) (hv : b.view spot.location = some i) :
    Revisited (followWith b aim jump' dir pieces) spot.location i := by
  induction pieces generalizing dir with
  | nil =>
      rw [followWith] at h
      split at h
      · cases h
        obtain ⟨m, hm, rfl⟩ := Node.view_eq_some hv
        rw [Spot.location] at hm ⊢
        exact ⟨m, by rw [followWith, hm], rfl⟩
      · cases h
  | cons piece pieces ih =>
      rcases piece_cases piece with hidle | rfl | ⟨hidle, hup⟩
      · rw [followWith_idle hidle] at h ⊢
        exact ih h
      · rw [followWith_up] at h ⊢
        exact ih h
      · rw [followWith_name hidle hup] at h
        split at h
        · cases h
        · rename_i hfile
          split at h
          · cases h
          · rename_i hsize
            -- A spot at the last name: nothing was there, or a file.
            have hlast : pieces = [] → spot.location = dir ++ [piece] →
                Revisited (followWith b aim jump' dir (piece :: pieces)) spot.location i := by
              intro hp hl
              obtain ⟨m, hm, rfl⟩ := Node.view_eq_some hv
              rw [hl] at hm ⊢
              exact ⟨m, by rw [hp, followWith_last hidle hup hsize hm hi], rfl⟩
            split at h
            · cases pieces with
              | nil => cases h; exact hlast rfl rfl
              | cons => cases h
            · rename_i hd
              obtain ⟨entries, he⟩ := Node.view_eq_dir (hk.dirs (Node.view_of_at? hd))
              rw [followWith_name hidle hup, if_neg hfile, if_neg hsize, he]
              exact ih h
            · cases pieces with
              | nil => cases h; exact hlast rfl rfl
              | cons => cases h
            · rename_i t ht
              have ht' := Node.view_eq_link (hk.links (Node.view_of_at? ht))
              rw [followWith_name hidle hup, if_neg hfile, if_neg hsize, ht']
              split at h
              · cases h
                rw [Spot.location, Node.view_of_at? ht', Option.some.injEq] at hv
                exact absurd hv.symm (hi t)
              · rename_i hentry
                split at h
                · cases h
                · rename_i hempty
                  simpa only [if_neg hentry, if_neg hempty] using hjump h hv

/-- What a path leads to is reached again after any change that keeps directories and links
where they are. -/
theorem follow_keeps {a b : Node} {aim : Aim} (hk : a.Keeps b) {i : Node.Item}
    (hi : ∀ t, i ≠ .link t) {n : Nat} {dir : Location} {pieces : List String} {spot : Spot}
    (h : follow a aim n dir pieces = .ok spot) (hv : b.view spot.location = some i) :
    Revisited (follow b aim n dir pieces) spot.location i := by
  induction n generalizing dir pieces spot with
  | zero => exact followWith_keeps hk hi (fun h => by cases h) h hv
  | succ n ih => exact followWith_keeps hk hi ih h hv

/-! ## Below what a path leads to -/

section

variable {root : Node}

/-- What holds when no link is left, and of following pieces with one link more, holds of
following. -/
theorem follow_induction {aim : Aim}
    {motive : (Location → List String → Except Fault Spot) → Prop}
    (stop : motive fun _ _ => .error .tooManyLinks)
    (step : ∀ jump, motive jump → motive (followWith root aim jump)) :
    ∀ n, motive (follow root aim n)
  | 0 => step _ stop
  | n + 1 => step _ (follow_induction stop step n)

theorem follow_found {aim : Aim} {n : Nat} {dir l : Location} {pieces : List String} {m : Node}
    (h : follow root aim n dir pieces = .ok (.found l m)) : root.at? l = some m := by
  refine follow_induction
    (motive := fun f => ∀ dir pieces, f dir pieces = .ok (.found l m) → root.at? l = some m)
    (fun _ _ h => by cases h) (fun jump hjump dir pieces h => ?_) n dir pieces h
  induction pieces generalizing dir with
  | nil =>
      rw [followWith] at h
      split at h
      · cases h
        assumption
      · cases h
  | cons piece pieces ih =>
      rcases piece_cases piece with hidle | rfl | ⟨hidle, hup⟩
      · exact ih _ (followWith_idle hidle ▸ h)
      · exact ih _ (followWith_up ▸ h)
      · rw [followWith_name hidle hup] at h
        split at h
        · cases h
        · split at h
          · cases h
          · split at h
            · split at h <;> cases h
            · exact ih _ h
            · split at h <;> cases h
              assumption
            · split at h
              · cases h
                assumption
              · split at h
                · cases h
                · exact hjump _ _ h

theorem follow_end {aim : Aim} {n : Nat} {dir : Location} {tail : List String} {m : Node}
    (htail : ∀ x ∈ tail, Path.isIdle x = true) (h : root.at? dir = some m) :
    follow root aim n dir tail = .ok (.found dir m) := by
  have hwith : ∀ jump, followWith root aim jump dir tail = .ok (.found dir m) := by
    intro jump
    induction tail with
    | nil => rw [followWith, h]
    | cons x tail ih =>
        obtain ⟨hx, hrest⟩ := List.forall_mem_cons.1 htail
        rw [followWith_idle hx]
        exact ih hrest
  cases n <;> exact hwith _

/-- A path with a slash at its end leads where it leads without. -/
theorem follow_of_trailing {n : Nat} {dir l : Location} {xs : List String} {m : Node}
    (h : follow root .target n dir (xs ++ [""]) = .ok (.found l m)) :
    follow root .target n dir xs = .ok (.found l m) := by
  refine follow_induction
    (motive := fun f => ∀ dir xs, f dir (xs ++ [""]) = .ok (.found l m) →
      f dir xs = .ok (.found l m))
    (fun _ _ h => by cases h) (fun jump hjump dir xs h => ?_) n dir xs h
  induction xs generalizing dir with
  | nil => rwa [List.nil_append, followWith_idle rfl] at h
  | cons x xs ih =>
      rw [List.cons_append] at h
      rcases piece_cases x with hidle | rfl | ⟨hidle, hup⟩
      · rw [followWith_idle hidle] at h ⊢
        exact ih _ h
      · rw [followWith_up] at h ⊢
        exact ih _ h
      · have hne : (xs ++ [""]).isEmpty = false := by simp
        rw [followWith_name hidle hup, if_neg (by simp)] at h ⊢
        split at h
        · cases h
        · rename_i hsize
          rw [if_neg hsize]
          cases hn : root.at? (dir ++ [x]) with
          | none => simp [hn] at h
          | some k =>
              cases k with
              | dir => exact ih _ (by simpa only [hn] using h)
              | file => simp [hn] at h
              | link t =>
                  simp only [hn, hne, Bool.false_and, Bool.false_eq_true, if_false] at h
                  split at h
                  · cases h
                  · rename_i hempty
                    rw [← List.append_assoc] at h
                    simpa [hempty] using hjump _ _ h

/-- Whatever lies below a path that leads to a directory is looked for in that directory. -/
theorem follow_append {n : Nat} {dir l : Location} {xs : List String}
    {entries : List (String × Node)}
    (h : follow root .target n dir xs = .ok (.found l (.dir entries))) :
    ∃ k, ∀ ys, ys ≠ [] → follow root .target n dir (xs ++ ys) = follow root .target k l ys := by
  -- Beside the statement, the induction carries that one step more is again `follow`.
  refine (follow_induction
    (motive := fun f => (∃ k, followWith root .target f = follow root .target k) ∧
      ∀ dir xs, f dir xs = .ok (.found l (.dir entries)) →
        ∃ k, ∀ ys, ys ≠ [] → f dir (xs ++ ys) = follow root .target k l ys)
    ⟨⟨0, rfl⟩, fun _ _ h => by cases h⟩ (fun jump ⟨⟨k₀, hk₀⟩, hjump⟩ => ?_) n).2 dir xs h
  refine ⟨⟨k₀ + 1, by rw [hk₀]; rfl⟩, fun dir xs h => ?_⟩
  induction xs generalizing dir with
  | nil =>
      rw [followWith] at h
      split at h
      · cases h
        exact ⟨k₀, fun ys _ => by rw [hk₀, List.nil_append]⟩
      · cases h
  | cons x xs ih =>
      rcases piece_cases x with hidle | rfl | ⟨hidle, hup⟩
      · simp only [List.cons_append, followWith_idle hidle] at h ⊢
        exact ih _ h
      · simp only [List.cons_append, followWith_up] at h ⊢
        exact ih _ h
      · rw [followWith_name hidle hup, if_neg (by simp)] at h
        split at h
        · cases h
        · rename_i hsize
          split at h
          · split at h <;> cases h
          · rename_i hd
            obtain ⟨k, hk⟩ := ih _ h
            refine ⟨k, fun ys hys => ?_⟩
            rw [← hk ys hys, List.cons_append, followWith_name hidle hup, if_neg (by simp),
              if_neg hsize, hd]
          · split at h <;> cases h
          · rename_i t ht
            rw [if_neg (by simp)] at h
            split at h
            · cases h
            · rename_i hempty
              obtain ⟨k, hk⟩ := hjump _ _ h
              refine ⟨k, fun ys hys => ?_⟩
              rw [← hk ys hys, List.cons_append, followWith_name hidle hup, if_neg (by simp),
                if_neg hsize, ht]
              simp [hempty, List.append_assoc]

/-- Names that lead through directories are followed to their end, unless one is too long. -/
theorem follow_names {n : Nat} {tail : List String} :
    ∀ {dir : Location} {names : List String}, AreNames names →
      root.view (dir ++ names) = some .dir →
      follow root .target n dir (names ++ tail) =
        if ∀ x ∈ names, x.utf8ByteSize ≤ nameLimit then
          follow root .target n (dir ++ names) tail
        else .error .nameTooLong
  | dir, [], _, _ => by simp
  | dir, x :: xs, hx, hv => by
      have hname := hx x List.mem_cons_self
      have happ : dir ++ x :: xs = dir ++ [x] ++ xs := by simp
      rw [happ] at hv ⊢
      have hd : root.view (dir ++ [x]) = some .dir := by
        cases xs with
        | nil => simpa using hv
        | cons => exact Node.view_dir_of_append (by simp) hv
      obtain ⟨entries, he⟩ := Node.view_eq_dir hd
      have hxs : AreNames xs := fun y hy => hx y (List.mem_cons_of_mem _ hy)
      have hstep : follow root .target n dir (x :: (xs ++ tail)) =
          if nameLimit < x.utf8ByteSize then .error .nameTooLong
          else follow root .target n (dir ++ [x]) (xs ++ tail) := by
        cases n <;>
          simp [follow, followWith_name hname.isIdle_eq hname.ne_up, he]
      rw [List.cons_append, hstep, follow_names hxs hv]
      by_cases hsize : nameLimit < x.utf8ByteSize
      · have hnot : ¬ ∀ y ∈ x :: xs, y.utf8ByteSize ≤ nameLimit :=
          fun h => absurd (h x List.mem_cons_self) (Nat.not_le.2 hsize)
        rw [if_pos hsize, if_neg hnot]
      · have hiff : (∀ y ∈ x :: xs, y.utf8ByteSize ≤ nameLimit) ↔
            ∀ y ∈ xs, y.utf8ByteSize ≤ nameLimit := by
          simp [Nat.not_lt.1 hsize]
        simp only [if_neg hsize, hiff]

end

end DocStamp.Files
