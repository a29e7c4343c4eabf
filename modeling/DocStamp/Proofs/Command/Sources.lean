/-
# The search finds what a plain filter finds

The search for sources never looks into a directory that a pattern
excludes, nor into the one that the output goes to.  Nothing is lost by
that, because what is left out is closed under going down
(`Kept.of_prefix`): the sources found are exactly the entries of the
whole tree that pass the filter (`findSources_eq_filter`).

`Searched` is the invariant of the search below one directory.  The
bound on its depth never shows: a path that is short enough to be read
has far fewer names than the bound has levels.
-/
import DocStamp.Proofs.Files.Operations
import DocStamp.Proofs.Path.Order

namespace DocStamp.Command

open Files (Fault Location Node Session)
open DocStamp.Path (AreNames IsName Precedes ofNames)

/-! ## What is left out -/

/-- No pattern excludes the names, and they do not lie in the directory left out. -/
structure Kept (settings : Settings) (skip : Option Location) (names : Location) : Prop where
  included : settings.isExcluded (ofNames names) = false
  beside : ∀ r ∈ skip, ¬ r <+: names

/-- A directory below the documents that is to be looked into. -/
structure Scanned (settings : Settings) (skip : Option Location) (tree : Node)
    (names : Location) : Prop where
  there : tree.view names = some .dir
  kept : Kept settings skip names

/-- What is to be found: something that is no directory, has the suffix and is not left out. -/
structure IsSource (settings : Settings) (skip : Option Location) (tree : Node)
    (names : Location) : Prop where
  there : ∃ i, tree.view names = some i ∧ i ≠ .dir
  suffix : settings.sourceSuffix.toList <:+ (ofNames names).text.toList
  kept : Kept settings skip names

section

variable {settings : Settings} {skip : Option Location} {tree : Node}

theorem IsSource.areNames {names : Location} (h : IsSource settings skip tree names)
    (htree : tree.Proper) : AreNames names := by
  obtain ⟨_, hi, -⟩ := h.there
  exact htree.areNames hi

/-- Whatever excludes a directory excludes everything below it. -/
theorem isExcluded_below {pre names : Location} (hn : AreNames names) (hp : pre <+: names)
    (h : settings.isExcluded (ofNames pre) = true) :
    settings.isExcluded (ofNames names) = true := by
  obtain ⟨pattern, hmem, hex⟩ := List.any_eq_true.1 h
  obtain ⟨a, ha, hmatch⟩ := List.any_eq_true.1 hex
  exact List.any_eq_true.2 ⟨pattern, hmem,
    List.any_eq_true.2 ⟨a, Path.ancestors_subset hn hp ha, hmatch⟩⟩

theorem Kept.of_prefix {pre names : Location} (hn : AreNames names) (hp : pre <+: names)
    (h : Kept settings skip names) : Kept settings skip pre := by
  refine ⟨Bool.eq_false_iff.2 fun hx => ?_, fun r hr hpre => h.beside r hr (hpre.trans hp)⟩
  exact Bool.noConfusion (h.included.symm.trans (isExcluded_below hn hp hx))

theorem kept_nil (hskip : ∀ r ∈ skip, r ≠ []) : Kept settings skip [] := by
  refine ⟨?_, fun r hr hp => hskip r hr (List.prefix_nil.1 hp)⟩
  rw [Settings.isExcluded, List.any_eq_false]
  intro pattern _
  simp [Glob.Pattern.excludes, Path.ancestors, Path.ofNames_nil, Path.ancestorsUpTo]

theorem Kept.append_iff {names : Location} {n : String} (h : Kept settings skip names) :
    Kept settings skip (names ++ [n]) ↔
      settings.isExcluded (ofNames (names ++ [n])) = false ∧ ∀ r ∈ skip, r ≠ names ++ [n] := by
  constructor
  · intro h'
    exact ⟨h'.included, fun r hr e => h'.beside r hr (e ▸ List.prefix_rfl)⟩
  · rintro ⟨hex, hne⟩
    refine ⟨hex, fun r hr hp => ?_⟩
    rcases List.prefix_concat_iff.1 hp with e | hp
    · exact hne r hr e
    · exact h.beside r hr hp

theorem classify_eq {names : Location} {n : String} (h : Kept settings skip names)
    (hn : AreNames (names ++ [n])) (hskip : ∀ r ∈ skip, AreNames r) (isDir : Bool) :
    (¬ Kept settings skip (names ++ [n]) ∧
      classify settings (skip.map ofNames) (ofNames (names ++ [n])) isDir = .nothing) ∨
    (Kept settings skip (names ++ [n]) ∧
      classify settings (skip.map ofNames) (ofNames (names ++ [n])) isDir =
        if isDir then .directory
        else if settings.sourceSuffix.toList.isSuffixOf (ofNames (names ++ [n])).text.toList then
          .source
        else .nothing) := by
  have hany : (skip.map ofNames).any (Path.sameSteps (ofNames (names ++ [n]))) = true ↔
      ∃ r ∈ skip, r = names ++ [n] := by
    cases skip with
    | none => simp
    | some r =>
        have hr := hskip r rfl
        simp [Path.sameSteps_ofNames hn hr, eq_comm]
  unfold classify
  by_cases hleft : (settings.isExcluded (ofNames (names ++ [n])) ||
      (skip.map ofNames).any (Path.sameSteps (ofNames (names ++ [n])))) = true
  · refine .inl ⟨fun hk => ?_, if_pos hleft⟩
    obtain ⟨hex, hne⟩ := h.append_iff.1 hk
    rw [Bool.or_eq_true, hany, hex] at hleft
    rcases hleft with hleft | ⟨r, hr, e⟩
    · cases hleft
    · exact hne r hr e
  · refine .inr ⟨h.append_iff.2 ?_, if_neg hleft⟩
    rw [Bool.or_eq_true, hany, not_or, Bool.not_eq_true] at hleft
    exact ⟨hleft.1, fun r hr e => hleft.2 ⟨r, hr, e⟩⟩

end

/-! ## The search below one directory -/

/-- What the search below some names gives: a fault of a directory that is to be looked
into, or, where all these can be read, every source once. -/
def Searched (s : Session) (settings : Settings) (docsDir : Path) (skip : Option Location)
    (tree : Node) (names : Location) : Except Fault (List Path) → Prop
  | .error fault => ∃ dir, names <+: dir ∧ Scanned settings skip tree dir ∧
      s.listDirectory (docsDir.join (ofNames dir)) = .error fault
  | .ok found => found.Nodup ∧
      (∀ dir, names <+: dir → Scanned settings skip tree dir →
        ∃ listed, s.listDirectory (docsDir.join (ofNames dir)) = .ok listed) ∧
      ∀ p, p ∈ found ↔ ∃ source, names <+: source ∧ IsSource settings skip tree source ∧
        p = ofNames source

section

variable {s : Session} {settings : Settings} {docsDir : Path} {skip : Option Location}
  {entries : List (String × Node)}

theorem listDirectory_below (hdocs : s.node docsDir = .ok (.dir entries)) {names : Location}
    (hn : AreNames names) {es : List (String × Node)}
    (hes : (Node.dir entries).at? names = some (.dir es)) {listed : List (String × Bool)}
    (h : s.listDirectory (docsDir.join (ofNames names)) = .ok listed) :
    listed = es.map (fun e => (e.1, e.2.isDir)) ∧ 2 * names.length ≤ Files.pathLimit := by
  obtain ⟨hrefusal, -, hlisted⟩ := (Session.listDirectory_below_ok_iff hdocs hn hes).1 h
  refine ⟨hlisted, ?_⟩
  have hsize := (Session.refusal?_eq_none_iff.1 hrefusal).2.2
  have hjoin := Path.utf8ByteSize_join docsDir (Path.isAbsolute_ofNames hn)
  have := hn.two_mul_length_le_bytes
  omega

theorem searched_of_not_kept {tree : Node} (htree : tree.Proper) {names : Location}
    (h : ¬ Kept settings skip names) : Searched s settings docsDir skip tree names (.ok []) := by
  refine ⟨List.nodup_nil, fun dir hp hdir => ?_, fun p => ⟨by simp, ?_⟩⟩
  · exact absurd (hdir.kept.of_prefix (htree.areNames hdir.there) hp) h
  · rintro ⟨source, hp, hsource, -⟩
    obtain ⟨i, hi, -⟩ := hsource.there
    exact absurd (hsource.kept.of_prefix (htree.areNames hi) hp) h

theorem searched_leaf {tree : Node} {names : Location} {i : Node.Item}
    (hv : tree.view names = some i) (hi : i ≠ .dir) {found : List Path}
    (hnodup : found.Nodup)
    (h : ∀ p, p ∈ found ↔ IsSource settings skip tree names ∧ p = ofNames names) :
    Searched s settings docsDir skip tree names (.ok found) := by
  have hnot : tree.view names ≠ some .dir := by simpa [hv] using hi
  have honly : ∀ {l j}, names <+: l → tree.view l = some j → l = names := by
    rintro _ j ⟨rest, rfl⟩ hl
    by_cases hrest : rest = []
    · simp [hrest]
    · exact absurd (Node.view_dir_of_append hrest hl) hnot
  refine ⟨hnodup, fun dir hp hdir => ?_, fun p => (h p).trans ⟨?_, ?_⟩⟩
  · exact absurd (honly hp hdir.there ▸ hdir.there) hnot
  · rintro ⟨hsource, rfl⟩
    exact ⟨names, List.prefix_rfl, hsource, rfl⟩
  · rintro ⟨source, hp, hsource, rfl⟩
    obtain ⟨j, hj, -⟩ := hsource.there
    exact honly hp hj ▸ ⟨hsource, rfl⟩

/-- What is at or below a directory is the directory or lies at or below one of its entries. -/
theorem below_cases {tree : Node} {names l : Location} {es : List (String × Node)}
    {i : Node.Item} (hes : tree.at? names = some (.dir es)) (hp : names <+: l)
    (hv : tree.view l = some i) : l = names ∨ ∃ e ∈ es, names ++ [e.1] <+: l := by
  obtain ⟨rest, rfl⟩ := hp
  rw [Node.view_append hes] at hv
  cases rest with
  | nil => exact .inl (by simp)
  | cons x xs =>
      obtain ⟨m, hm, -⟩ := Node.view_eq_some hv
      obtain ⟨child, hc, -⟩ := Option.bind_eq_some_iff.1 (Node.at?_cons _ x xs ▸ hm)
      exact .inr ⟨(x, child), Node.mem_of_lookup hc, xs, by simp⟩

theorem searched_dir {tree : Node} (htree : tree.Proper) {names : Location}
    {es : List (String × Node)} (hes : tree.at? names = some (.dir es))
    {listed : List (String × Bool)}
    (hlist : s.listDirectory (docsDir.join (ofNames names)) = .ok listed)
    (hlisted : listed = es.map fun e => (e.1, e.2.isDir)) {g : String × Bool → List Path}
    (h : ∀ x ∈ listed, Searched s settings docsDir skip tree (names ++ [x.1]) (.ok (g x))) :
    Searched s settings docsDir skip tree names (.ok (listed.flatMap g)) := by
  have hmem : ∀ {e}, e ∈ es → (e.1, e.2.isDir) ∈ listed := fun he =>
    hlisted ▸ List.mem_map_of_mem he
  refine ⟨?_, fun dir hp hdir => ?_, fun p => ?_⟩
  · -- Sources below different entries have different names.
    have hnodup : listed.Pairwise fun a b => a.1 ≠ b.1 := by
      rw [hlisted, List.pairwise_map]
      exact List.pairwise_map.1 (htree.at? hes).2.nodup
    refine List.pairwise_flatMap.2 ⟨fun x hx => (h x hx).1, ?_⟩
    refine hnodup.imp_of_mem fun {a b} ha hb hne p hp q hq e => ?_
    obtain ⟨source, hpre, hsource, rfl⟩ := ((h a ha).2.2 p).1 hp
    obtain ⟨source', hpre', hsource', rfl⟩ := ((h b hb).2.2 q).1 hq
    obtain rfl := (Path.ofNames_inj (hsource.areNames htree) (hsource'.areNames htree)).1 e
    have hab := (List.prefix_of_prefix_length_le hpre hpre' (by simp)).eq_of_length (by simp)
    exact hne (by simpa using hab)
  · rcases below_cases hes hp hdir.there with rfl | ⟨e, he, hp'⟩
    · exact ⟨listed, hlist⟩
    · exact (h _ (hmem he)).2.1 dir hp' hdir
  · rw [List.mem_flatMap]
    constructor
    · rintro ⟨x, hx, hpx⟩
      obtain ⟨source, hp, hsource, rfl⟩ := ((h x hx).2.2 p).1 hpx
      exact ⟨source, (List.prefix_append _ _).trans hp, hsource, rfl⟩
    · rintro ⟨source, hp, hsource, rfl⟩
      obtain ⟨i, hi, hne⟩ := hsource.there
      rcases below_cases hes hp hi with rfl | ⟨e, he, hp'⟩
      · rw [Node.view_of_at? hes, Option.some.injEq] at hi
        exact absurd hi.symm hne
      · exact ⟨_, hmem he, ((h _ (hmem he)).2.2 _).2 ⟨source, hp', hsource, rfl⟩⟩

/-- One entry of a directory that is looked into: it is left out, or it is a directory to be
searched by `below`, or nothing lies below it. -/
theorem searched_entry {tree : Node} (htree : tree.Proper) (hskip : ∀ r ∈ skip, AreNames r)
    {names : Location} (hkept : Kept settings skip names) {es : List (String × Node)}
    (hes : tree.at? names = some (.dir es)) {e : String × Node} (he : e ∈ es)
    {below : ExceptT Fault (StateM Session) (List Path)}
    (hbelow : Scanned settings skip tree (names ++ [e.1]) → ∃ r, s.run below = (r, s) ∧
      Searched s settings docsDir skip tree (names ++ [e.1]) r) :
    ∃ r, s.run (match classify settings (skip.map ofNames) (ofNames (names ++ [e.1])) e.2.isDir with
        | .nothing => pure []
        | .source => pure [ofNames (names ++ [e.1])]
        | .directory => below) = (r, s) ∧
      Searched s settings docsDir skip tree (names ++ [e.1]) r := by
  have hat : tree.at? (names ++ [e.1]) = some e.2 := by
    have hlookup := (htree.at? hes).2.lookup_of_mem he
    simp [Node.at?_append, hes, Node.at?_cons, Node.entry?, hlookup, Node.at?_nil]
  have hview := Node.view_of_at? hat
  rcases classify_eq hkept (htree.at? hat).1 hskip e.2.isDir with ⟨hnot, hc⟩ | ⟨hkept', hc⟩
  · rw [hc]
    exact ⟨_, rfl, searched_of_not_kept htree hnot⟩
  · rw [hc]
    by_cases hdir : e.2.isDir = true
    · rw [if_pos hdir]
      exact hbelow ⟨hview.trans (congrArg some (Node.isDir_iff.1 hdir)), hkept'⟩
    · have hleaf : e.2.item ≠ .dir := fun hi => hdir (Node.isDir_iff.2 hi)
      rw [if_neg hdir]
      by_cases hsuffix :
          settings.sourceSuffix.toList.isSuffixOf (ofNames (names ++ [e.1])).text.toList = true
      · have hsource : IsSource settings skip tree (names ++ [e.1]) :=
          ⟨⟨_, hview, hleaf⟩, List.isSuffixOf_iff_suffix.1 hsuffix, hkept'⟩
        rw [if_pos hsuffix]
        exact ⟨_, rfl, searched_leaf hview hleaf (by simp) (by simp [hsource])⟩
      · have hsource : ¬ IsSource settings skip tree (names ++ [e.1]) :=
          fun h => hsuffix (List.isSuffixOf_iff_suffix.2 h.suffix)
        rw [if_neg hsuffix]
        exact ⟨_, rfl, searched_leaf hview hleaf (by simp) (by simp [hsource])⟩

/-- The search below a directory, by induction on the levels that are left.  The names so
far and the levels left make up the bound, and there are few names. -/
theorem sourcesBelow_run (htree : (Node.dir entries).Proper)
    (hdocs : s.node docsDir = .ok (.dir entries)) (hskip : ∀ r ∈ skip, AreNames r) (n : Nat) :
    ∀ {names : Location}, names.length + n = Files.pathLimit →
      2 * names.length ≤ Files.pathLimit + 2 → Scanned settings skip (.dir entries) names →
      ∃ r, s.run (sourcesBelow settings docsDir (skip.map ofNames) n (ofNames names)) = (r, s) ∧
        Searched s settings docsDir skip (.dir entries) names r := by
  induction n with
  | zero =>
      intro names hlen hfew
      simp only [Files.pathLimit] at hlen hfew
      omega
  | succ n ih =>
      intro names hlen hfew hscan
      have hn := htree.areNames hscan.there
      obtain ⟨es, hes⟩ := Node.view_eq_dir hscan.there
      unfold sourcesBelow
      rw [Session.run_bind, Session.run_listDirectory]
      cases hlist : s.listDirectory (docsDir.join (ofNames names)) with
      | error fault => exact ⟨.error fault, rfl, names, List.prefix_rfl, hscan, hlist⟩
      | ok listed =>
          obtain ⟨hlisted, hfew'⟩ := listDirectory_below hdocs hn hes hlist
          have hentry : ∀ x ∈ listed, ∃ r, s.run (
              match classify settings (skip.map ofNames) ((ofNames names).join ⟨x.1⟩) x.2 with
              | .nothing => pure []
              | .source => pure [(ofNames names).join ⟨x.1⟩]
              | .directory => sourcesBelow settings docsDir (skip.map ofNames) n
                  ((ofNames names).join ⟨x.1⟩)) = (r, s) ∧
              Searched s settings docsDir skip (.dir entries) (names ++ [x.1]) r := by
            intro x hx
            obtain ⟨e, he, rfl⟩ := List.mem_map.1 (hlisted ▸ hx)
            rw [Path.ofNames_join hn ((htree.at? hes).2.isName e he)]
            refine searched_entry htree hskip hscan.kept hes he (ih ?_ ?_)
            · simp only [List.length_append, List.length_singleton]
              omega
            · simp only [List.length_append, List.length_singleton]
              omega
          rcases Session.run_mapM_flatten hentry with ⟨x, -, fault, hsearched, hrun⟩ | ⟨g, hsearched, hrun⟩
          · obtain ⟨dir, hp, hdir, hfault⟩ := hsearched
            exact ⟨_, hrun, dir, (List.prefix_append _ _).trans hp, hdir, hfault⟩
          · exact ⟨_, hrun, searched_dir htree hes hlist hlisted hsearched⟩

/-! ## The whole search -/

theorem findSources_run (settings : Settings) (htree : (Node.dir entries).Proper)
    (hdocs : s.node docsDir = .ok (.dir entries)) (hskip : ∀ r ∈ skip, r ≠ [] ∧ AreNames r) :
    ∃ r, s.run (findSources settings docsDir (skip.map ofNames)) = (r, s) ∧
      Searched s settings docsDir skip (.dir entries) [] r ∧
      ∀ sources, r = .ok sources → sources.Pairwise Precedes := by
  have hscan : Scanned settings skip (.dir entries) [] :=
    ⟨by simp [Node.view, Node.at?_nil, Node.item], kept_nil fun r hr => (hskip r hr).1⟩
  obtain ⟨r, hrun, hr⟩ := sourcesBelow_run (s := s) htree hdocs (fun r hr => (hskip r hr).2)
    Files.pathLimit (by simp) (by simp) hscan
  unfold findSources
  rw [Path.ofNames_nil] at hrun
  cases r with
  | error fault => exact ⟨.error fault, Session.run_bind_error hrun _, hr, by simp⟩
  | ok found =>
      obtain ⟨hnodup, hreads, hmem⟩ := hr
      have hperm := List.mergeSort_perm found Path.before
      have hnamed : ∀ p ∈ found, p.Named := by
        intro p hp
        obtain ⟨source, -, hsource, rfl⟩ := (hmem p).1 hp
        exact ⟨source, hsource.areNames htree, rfl⟩
      refine ⟨.ok (found.mergeSort Path.before), Session.run_bind_ok hrun _,
        ⟨hperm.nodup_iff.2 hnodup, hreads, fun p => hperm.mem_iff.trans (hmem p)⟩, ?_⟩
      rintro sources ⟨⟩
      exact Path.pairwise_precedes_mergeSort hnodup hnamed

end

/-- Documents with a link that leads back up, and an output directory among them. -/
def linkedDocs : List (String × Node) :=
  [("a-b", .dir [("x.rst", .file (.text ""))]),
   ("a", .dir [("x.rst", .file (.text "")), ("up.rst", .link "..")]),
   ("_build", .dir [("x.rst", .file (.text ""))]),
   ("out", .dir [("a", .dir [("x.rst", .file (.text ""))])])]

def linkedSession : Session where
  root := .dir [("docs", .dir linkedDocs)]
  here := []

end DocStamp.Command
