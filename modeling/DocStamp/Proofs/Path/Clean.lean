/-
# Clean forms

`Path.place` walks the parts of a path from the root or from nowhere in
particular, and the clean form of the path spells the place that is
reached (`resolve_here`).  Names below a path lead below its place
(`Named.place_join`), and what is left of the longer clean form when the
shorter one is taken off its front are these names
(`Place.below?_append`).

The place that is reached by no part at all is spelt `.`, as no other
place is.  It begins no other clean form, so nothing is taken off there.
-/
import DocStamp.Proofs.Path.Location

namespace DocStamp

open DocStamp.Path (AreNames IsName isIdle joinPieces ofNames ofLocation stepOf?)

/-! ## Walking parts -/

namespace Place

/-- Goes on from a place by one part of a path. -/
def move (here : Place) (part : String) : Place :=
  match stepOf? part with
  | some step => here.walk step
  | none => here

/-- Where a path begins: at the root, or nowhere in particular. -/
def start (p : Path) : Place := if p.isAbsolute then .rooted [] else .floating 0 []

def append : Place → List String → Place
  | .rooted names, more => .rooted (names ++ more)
  | .floating ups names, more => .floating ups (names ++ more)

theorem append_nil (place : Place) : place.append [] = place := by
  cases place <;> simp [append]

theorem foldl_walk (pieces : List String) (here : Place) :
    (pieces.filterMap stepOf?).foldl walk here = pieces.foldl move here := by
  induction pieces generalizing here with
  | nil => rfl
  | cons piece pieces ih =>
      rw [List.foldl_cons, ← ih]
      cases h : stepOf? piece <;> simp [h, move]

theorem move_of_isIdle {part : String} (h : isIdle part = true) (here : Place) :
    here.move part = here := by
  simp [move, stepOf?, h]

theorem move_empty (here : Place) : here.move "" = here := move_of_isIdle rfl here

theorem move_here (here : Place) : here.move "." = here := move_of_isIdle rfl here

theorem foldl_move_filter (pieces : List String) (here : Place) :
    (pieces.filter (· != "")).foldl move here = pieces.foldl move here := by
  rw [← foldl_walk, ← foldl_walk, Path.filterMap_stepOf?_filter]

theorem foldl_move_names {names : List String} (h : AreNames names) (here : Place) :
    names.foldl move here = here.append names := by
  induction names generalizing here with
  | nil => cases here <;> simp [append]
  | cons n ns ih =>
      have hn := (h n List.mem_cons_self).stepOf?_eq
      rw [List.foldl_cons, ih fun x hx => h x (List.mem_cons_of_mem _ hx)]
      cases here <;> simp [move, hn, walk, append]

end Place

namespace Path

/-- The place that the parts of a path lead to. -/
def place (p : Path) : Place := p.parts.foldl Place.move (.start p)

theorem ofPath_eq (p : Path) : Place.ofPath p = p.place := by
  have hparts : p.place = (piecesOf p.text).foldl Place.move (.start p) := by
    rw [place, parts, Place.foldl_move_filter]
  rw [hparts, Place.ofPath, steps, List.foldl_append, Place.foldl_walk, Place.start, isAbsolute]
  unfold shape
  split
  · rename_i h
    simp [h, Lead.steps]
  · rename_i h
    simp [h, Lead.steps, Place.move_empty]
  · rename_i body _ h
    rw [h, List.foldl_cons, Place.move_empty]
    rfl
  · rename_i body h
    rw [h, List.foldl_cons, Place.move_here]
    rfl
  · rfl

/-- Seen from where one is, the clean form of a path spells its place. -/
theorem resolve_here (p : Path) : resolve ⟨"."⟩ p = p.place.toPath := by
  unfold resolve
  cases hp : p.isAbsolute with
  | true => rw [if_pos rfl, clean, ofPath_eq]
  | false =>
      have hdot : (⟨"."⟩ : Path).parts = ["."] := by decide
      have hstart : Place.start (join ⟨"."⟩ p) = Place.start p := by
        have habs : (join ⟨"."⟩ p).isAbsolute = false := by
          rw [isAbsolute_eq, head?_join _ hp]
          rfl
        simp only [Place.start, habs, hp]
      have hplace : (join ⟨"."⟩ p).place = p.place := by
        rw [place, parts_join _ hp, hdot, hstart, List.singleton_append, List.foldl_cons,
          Place.move_here, place]
      rw [if_neg Bool.false_ne_true, clean, ofPath_eq, hplace]

theorem Named.isAbsolute_eq {p : Path} (h : p.Named) : p.isAbsolute = false := by
  obtain ⟨names, hn, rfl⟩ := h
  exact isAbsolute_ofNames hn

theorem Named.place_join {p : Path} (h : p.Named) (base : Path) :
    (base.join p).place = base.place.append p.parts := by
  have hp := h.isAbsolute_eq
  have hstart : Place.start (base.join p) = Place.start base := by
    simp only [Place.start, Path.isAbsolute_eq, head?_join base hp]
  obtain ⟨names, hn, rfl⟩ := h
  rw [place, parts_join base hp, hstart, List.foldl_append, parts_ofNames hn,
    Place.foldl_move_names hn, place]

end Path

/-! ## The names of a place -/

namespace Place

/-- The names at the end of a place. -/
def names : Place → List String
  | .rooted names => names
  | .floating _ names => names

theorem areNames_walk {here : Place} {part : String} {step : Path.Step} (h : AreNames here.names)
    (hslash : '/' ∉ part.toList) (hstep : stepOf? part = some step) :
    AreNames (here.walk step).names := by
  unfold stepOf? at hstep
  split at hstep
  · cases hstep
  · rename_i hidle
    split at hstep
    · cases hstep
      cases here with
      | rooted l => exact h.dropLast
      | floating ups l =>
          cases l with
          | nil => exact Path.areNames_nil
          | cons n ns => exact h.dropLast
    · rename_i hup
      simp only [isIdle, Bool.or_eq_true, beq_iff_eq, not_or] at hidle
      rw [beq_iff_eq] at hup
      cases hstep
      have hname : AreNames [part] := fun n hn =>
        List.mem_singleton.1 hn ▸ ⟨hidle.1, hidle.2, hup, hslash⟩
      cases here <;> exact h.append hname

theorem areNames_foldl_move {pieces : List String} (hp : ∀ x ∈ pieces, '/' ∉ x.toList)
    {here : Place} (h : AreNames here.names) : AreNames (pieces.foldl move here).names := by
  induction pieces generalizing here with
  | nil => exact h
  | cons piece pieces ih =>
      refine ih (fun x hx => hp x (List.mem_cons_of_mem _ hx)) ?_
      unfold move
      split
      · rename_i hstep
        exact areNames_walk h (hp piece List.mem_cons_self) hstep
      · exact h

end Place

theorem Path.areNames_place (p : Path) : AreNames p.place.names := by
  refine Place.areNames_foldl_move (fun x hx => slash_not_mem_part hx) ?_
  unfold Place.start
  split <;> exact Path.areNames_nil

/-! ## Taking a clean form off the front of another -/

namespace Path

/-- A piece of a clean form: a name, or `..`. -/
structure IsPiece (x : String) : Prop where
  active : isIdle x = false
  no_slash : '/' ∉ x.toList

theorem IsName.isPiece {n : String} (h : IsName n) : IsPiece n := ⟨h.isIdle_eq, h.no_slash⟩

theorem IsPiece.exists_step {x : String} (h : IsPiece x) : ∃ step, stepOf? x = some step := by
  unfold stepOf?
  rw [if_neg (by simp [h.active])]
  split
  · exact ⟨_, rfl⟩
  · exact ⟨_, rfl⟩

theorem length_filterMap_stepOf? {pieces : List String} (h : ∀ x ∈ pieces, IsPiece x) :
    (pieces.filterMap stepOf?).length = pieces.length := by
  induction pieces with
  | nil => rfl
  | cons x xs ih =>
      obtain ⟨step, hstep⟩ := (h x List.mem_cons_self).exists_step
      simp [hstep, ih fun y hy => h y (List.mem_cons_of_mem _ hy)]

theorem shape_joinPieces {pieces : List String} (h : ∀ x ∈ pieces, IsPiece x)
    (hne : pieces ≠ []) : (⟨joinPieces pieces⟩ : Path).shape = (.bare, pieces) := by
  have hp : piecesOf (joinPieces pieces) = pieces :=
    piecesOf_joinPieces hne fun x hx => (h x hx).no_slash
  cases pieces with
  | nil => exact absurd rfl hne
  | cons x xs =>
      have hx := (h x List.mem_cons_self).active
      simp only [isIdle, Bool.or_eq_false_iff, beq_eq_false_iff_ne] at hx
      simp only [shape, hp]
      split <;> simp_all

theorem dropPieces_pieces {a : List String} (h : ∀ x ∈ a, IsPiece x) (b : List String) :
    dropPieces a.length (a ++ b) = b := by
  induction a with
  | nil => simp [dropPieces]
  | cons x xs ih =>
      have hx := (h x List.mem_cons_self).active
      simp [dropPieces, hx, ih fun y hy => h y (List.mem_cons_of_mem _ hy)]

theorem steps_joinPieces {pieces : List String} (h : ∀ x ∈ pieces, IsPiece x)
    (hne : pieces ≠ []) : (⟨joinPieces pieces⟩ : Path).steps = pieces.filterMap stepOf? := by
  rw [steps, shape_joinPieces h hne]
  rfl

theorem below?_joinPieces {pieces more : List String} (h : ∀ x ∈ pieces, IsPiece x)
    (hne : pieces ≠ []) (hmore : ∀ x ∈ more, IsPiece x) :
    (⟨joinPieces (pieces ++ more)⟩ : Path).below? ⟨joinPieces pieces⟩ =
      some ⟨joinPieces more⟩ := by
  have hall : ∀ x ∈ pieces ++ more, IsPiece x := by
    intro x hx
    rcases List.mem_append.1 hx with hx | hx
    · exact h x hx
    · exact hmore x hx
  have hactive : ∀ x ∈ more, isIdle x = false := fun x hx => (hmore x hx).active
  have hlen : (pieces.filterMap stepOf?).length = pieces.length := length_filterMap_stepOf? h
  unfold below?
  rw [steps_joinPieces hall (by simp [hne]), steps_joinPieces h hne, List.filterMap_append,
    if_pos (List.isPrefixOf_iff_prefix.2 ⟨_, rfl⟩), shape_joinPieces hall (by simp [hne]), hlen]
  cases hk : pieces.length with
  | zero => exact absurd (List.length_eq_zero_iff.1 hk) hne
  | succ k =>
      have hdrop : dropPieces (k + 1) (pieces ++ more) = more := hk ▸ dropPieces_pieces h more
      show some (⟨joinPieces (trimEnd ((dropPieces (k + 1) (pieces ++ more)).dropWhile isIdle))⟩ :
        Path) = _
      rw [hdrop, dropWhile_of_active hactive, trimEnd_of_active hactive]

end Path

namespace Place

theorem toPath_floating {ups : Nat} {l : List String} (h : List.replicate ups ".." ++ l ≠ []) :
    (floating ups l).toPath = ⟨joinPieces (List.replicate ups ".." ++ l)⟩ := by
  cases ups with
  | zero =>
      cases l with
      | nil => exact absurd rfl h
      | cons n ns => rfl
  | succ ups => rfl

theorem isPiece_of_floating (ups : Nat) {l : List String} (h : AreNames l) :
    ∀ x ∈ List.replicate ups ".." ++ l, Path.IsPiece x := by
  intro x hx
  rcases List.mem_append.1 hx with hx | hx
  · rw [List.eq_of_mem_replicate hx]
    exact ⟨rfl, by decide⟩
  · exact (h x hx).isPiece

theorem pieces_ne_nil {ups : Nat} {l : List String} (h : floating ups l ≠ floating 0 []) :
    List.replicate ups ".." ++ l ≠ [] := by
  intro hnil
  obtain ⟨hups, rfl⟩ := List.append_eq_nil_iff.1 hnil
  obtain rfl : ups = 0 := by simpa using hups
  exact h rfl

theorem toPath_ne_here {here : Place} (h : AreNames here.names) (hne : here ≠ .floating 0 []) :
    here.toPath.text ≠ "." := by
  intro htext
  cases here with
  | rooted l =>
      have hhead := congrArg (·.toList.head?) htext
      simp [toPath, Path.ofShape] at hhead
  | floating ups l =>
      have hpieces := pieces_ne_nil hne
      have hall : ∀ x ∈ List.replicate ups ".." ++ l, Path.IsPiece x := isPiece_of_floating ups h
      rw [toPath_floating hpieces] at htext
      have hself : Path.piecesOf "." = List.replicate ups ".." ++ l :=
        htext ▸ Path.piecesOf_joinPieces hpieces fun x hx => (hall x hx).no_slash
      have hdot : "." ∈ List.replicate ups ".." ++ l := hself ▸ by decide
      cases (hall "." hdot).active

theorem toPath_append_nowhere {more : List String} (hne : more ≠ []) :
    ((floating 0 []).append more).toPath = ofNames more := by
  rw [append, toPath_floating (by simpa using hne)]
  rfl

/-- What remains of the clean form of names below a place, when the clean form of the place is
taken off. -/
theorem below?_append {here : Place} (h : AreNames here.names) (hhere : here ≠ .floating 0 [])
    {more : List String} (hmore : AreNames more) :
    (here.append more).toPath.below? here.toPath = some (ofNames more) := by
  cases here with
  | rooted l => exact Path.below?_of_append (h.append hmore)
  | floating ups l =>
      have hpieces := pieces_ne_nil hhere
      have hlonger : List.replicate ups ".." ++ (l ++ more) ≠ [] := by
        rw [← List.append_assoc]
        exact List.append_ne_nil_of_left_ne_nil hpieces more
      rw [append, toPath_floating hpieces, toPath_floating hlonger, ← List.append_assoc]
      exact Path.below?_joinPieces (isPiece_of_floating ups h) hpieces
        fun x hx => (hmore x hx).isPiece

/-! ## The steps of a clean form -/

theorem steps_rooted {l : List String} (h : AreNames l) :
    (rooted l).toPath.steps = .root :: l.map .name := Path.steps_ofLocation h

theorem steps_floating {ups : Nat} {l : List String} (h : AreNames l)
    (hne : floating ups l ≠ floating 0 []) :
    (floating ups l).toPath.steps = List.replicate ups .up ++ l.map .name := by
  have hpieces := pieces_ne_nil hne
  have hups : (List.replicate ups "..").filterMap stepOf? = List.replicate ups .up := by
    induction ups with
    | zero => rfl
    | succ ups ih => simp [List.replicate_succ, stepOf?, isIdle]
  rw [toPath_floating hpieces, Path.steps_joinPieces (isPiece_of_floating ups h) hpieces,
    List.filterMap_append, hups, Path.filterMap_stepOf? h]

theorem isAbsolute_floating {ups : Nat} {l : List String} (h : AreNames l)
    (hne : floating ups l ≠ floating 0 []) : (floating ups l).toPath.isAbsolute = false := by
  have hpieces := pieces_ne_nil hne
  rw [toPath_floating hpieces, Path.isAbsolute,
    Path.shape_joinPieces (isPiece_of_floating ups h) hpieces]
  rfl

theorem steps_nowhere : (floating 0 []).toPath.steps = [.here] := by decide

theorem fileName?_toPath (here : Place) (h : AreNames here.names) :
    here.toPath.fileName? = here.names.getLast? := by
  have hlast : ∀ (front : List Path.Step) (l : List String), l ≠ [] →
      (front ++ l.map Path.Step.name).getLast? = l.getLast?.map .name := by
    intro front l hl
    rw [List.getLast?_append, List.getLast?_map, List.getLast?_eq_some_getLast hl]
    rfl
  unfold Path.fileName?
  cases here with
  | rooted l =>
      rw [steps_rooted (l := l) h, ← List.singleton_append, names]
      by_cases hl : l = []
      · simp [hl]
      · rw [hlast _ l hl, List.getLast?_eq_some_getLast hl]
        rfl
  | floating ups l =>
      by_cases hne : floating ups l = floating 0 []
      · rw [hne, steps_nowhere]
        rfl
      · rw [steps_floating (l := l) h hne, names]
        by_cases hl : l = []
        · cases ups with
          | zero => exact absurd (by rw [hl]) hne
          | succ ups => simp [hl, List.getLast?_replicate]
        · rw [hlast _ l hl, List.getLast?_eq_some_getLast hl]
          rfl

/-! ## Places seen from a directory -/

/-- The location of a place, seen from a directory. -/
def locate (here : Files.Location) : Place → Files.Location
  | .rooted names => names
  | .floating ups names => here.take (here.length - ups) ++ names

theorem locate_append (here : Files.Location) (place : Place) (more : List String) :
    (place.append more).locate here = place.locate here ++ more := by
  cases place with
  | rooted names => rfl
  | floating ups names => exact (List.append_assoc _ _ _).symm

/-- One part of a path leads from the location of a place to that of the next. -/
theorem locate_move (here : Files.Location) (place : Place) (part : String) :
    (place.move part).locate here = Path.move (place.locate here) part := by
  by_cases hidle : isIdle part = true
  · simp [move, stepOf?, Path.move, hidle]
  · by_cases hup : part = ".."
    · have hstep : stepOf? part = some .up := by simp [stepOf?, hup, isIdle]
      have hmove : ∀ l : Files.Location, Path.move l part = l.dropLast := by
        intro l
        simp [Path.move, hup, isIdle]
      rw [move, hstep, hmove]
      cases place with
      | rooted names => rfl
      | floating ups names =>
          cases names with
          | nil =>
              simp only [walk, locate, List.append_nil]
              rw [List.dropLast_eq_take, List.take_take, List.length_take]
              congr 1
              omega
          | cons n ns => simp [walk, locate, List.dropLast_append_of_ne_nil]
    · have hstep : stepOf? part = some (.name part) := by simp [stepOf?, hup, hidle]
      rw [move, hstep]
      cases place <;> simp [walk, locate, Path.move, hidle, hup]

end Place

/-- Where a path leads from a directory is its place, seen from there. -/
theorem Path.location_eq (here : Files.Location) (p : Path) :
    p.location here = p.place.locate here := by
  have hstart : Files.startOf p.text here = (Place.start p).locate here := by
    unfold Place.start
    cases hp : p.isAbsolute with
    | true => rw [startOf_of_isAbsolute hp]; rfl
    | false => rw [startOf_of_relative hp]; simp [Place.locate]
  have hfold : ∀ (parts : List String) (place : Place),
      parts.foldl move (place.locate here) = (parts.foldl Place.move place).locate here := by
    intro parts
    induction parts with
    | nil => intro place; rfl
    | cons part parts ih =>
        intro place
        rw [List.foldl_cons, List.foldl_cons, ← Place.locate_move, ih]
  rw [location, hstart, hfold, place]

theorem Path.place_of_isAbsolute {p : Path} (h : p.isAbsolute = true) (here : Files.Location) :
    p.place = .rooted (p.location here) := by
  rw [← ofPath_eq, ofPath_of_isAbsolute h, location, startOf_of_isAbsolute h]

theorem Path.place_of_relative {p : Path} (h : p.isAbsolute = false) :
    ∃ ups names, p.place = .floating ups names := by
  have hmove : ∀ (parts : List String) (ups : Nat) (names : List String),
      ∃ ups' names', parts.foldl Place.move (.floating ups names) = .floating ups' names' := by
    intro parts
    induction parts with
    | nil => intro ups names; exact ⟨ups, names, rfl⟩
    | cons part parts ih =>
        intro ups names
        obtain ⟨ups', names', hstep⟩ : ∃ ups' names',
            Place.move (.floating ups names) part = .floating ups' names' := by
          unfold Place.move stepOf?
          split
          · rename_i step heq
            split at heq
            · cases heq
            · split at heq
              · cases heq
                cases names <;> exact ⟨_, _, rfl⟩
              · cases heq
                exact ⟨_, _, rfl⟩
          · exact ⟨_, _, rfl⟩
        rw [List.foldl_cons, hstep]
        exact ih ups' names'
  have hstart : Place.start p = .floating 0 [] := by simp [Place.start, h]
  rw [place, hstart]
  exact hmove p.parts 0 []

end DocStamp
