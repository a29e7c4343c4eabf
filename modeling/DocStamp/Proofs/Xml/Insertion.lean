/-
# A comment put into the content of an element

A position in the content of an element is one that the reader passes:
between two items, or within character data, but not within a reference
(`At`).  In the tree of the document it is a place with nodes in front of
it, at each level down to it (`Spot`).

When a comment is put there, the text is still content, of the same
nodes but for the comment at that place (`insert_comment`).  Character
data on both sides of it is no longer one node, so the tree changes by
more than the comment: this is what `Commented` says.
-/
import DocStamp.Proofs.Xml.Element
import DocStamp.Proofs.Xml.Front

namespace DocStamp.Xml

/-! ## Comments -/

/-- What can stand inside a comment. -/
structure IsComment (body : List Char) : Prop where
  chars : ∀ c ∈ body, IsXmlChar c
  noDashes : ¬ ['-', '-'] <:+: body
  noLast : body.getLast? ≠ some '-'

def commentText (body : List Char) : List Char := "<!--".toList ++ (body ++ "-->".toList)

namespace IsComment

variable {body : List Char} (h : IsComment body)

include h

theorem not_end {x y : List Char} {c : Char} (hbody : body = x ++ c :: y) (b : List Char) :
    "-->".toList.isPrefixOf (c :: y ++ ("-->".toList ++ b)) = false := by
  refine Bool.eq_false_iff.2 fun hend => ?_
  obtain ⟨more, hmore⟩ : ∃ more, '-' :: '-' :: '>' :: more = c :: (y ++ ("-->".toList ++ b)) :=
    List.isPrefixOf_iff_prefix.1 hend
  obtain ⟨rfl, hnext⟩ := List.cons.inj hmore
  cases y with
  | nil => exact h.noLast (by rw [hbody, List.getLast?_concat])
  | cons d y =>
      obtain ⟨rfl, -⟩ := List.cons.inj hnext
      exact h.noDashes ⟨x, y, by rw [hbody]; simp⟩

theorem skipComment (b : List Char) (p : Position) :
    ∃ q, Cursor.skipComment ⟨commentText body ++ b, p⟩ = .ok ⟨b, q⟩ := by
  have hopen : ∀ cs p, Cursor.advance 4 ⟨"<!--".toList ++ cs, p⟩ = ⟨cs, p.after "<!--".toList⟩ :=
    Cursor.advance_append "<!--".toList
  have hread : ∀ q, Cursor.readUntil (fun cs => "-->".toList.isPrefixOf cs)
      (body ++ ("-->".toList ++ b)) q = .ok (body, ⟨"-->".toList ++ b, q.after body⟩) := by
    intro q
    refine Cursor.readUntil_append (fun x c y hbody => ⟨?_, h.not_end hbody b⟩)
      ⟨'-', '-' :: '>' :: b, rfl, by decide, rfl⟩
    exact isLegal_of_isXmlChar (h.chars c (by simp [hbody]))
  have hdashes : Text.occursIn ['-', '-'] body = false :=
    Bool.eq_false_iff.2 fun hdashes => h.noDashes (occursIn_iff.1 hdashes)
  have hlast : (body.getLast? == some '-') = false := beq_eq_false_iff_ne.2 h.noLast
  simp only [Cursor.skipComment, commentText, List.append_assoc, hopen, hread, bind, Except.bind,
    Cursor.expectString_append, hdashes, hlast, Bool.or_self, Bool.false_eq_true, if_false]
  exact ⟨_, rfl⟩

theorem isItem (n : Nat) (scope : Scope) :
    Cursor.IsItem n scope (commentText body) (.node .comment) := by
  refine ⟨by simp [commentText], fun m b p _ _ => ?_⟩
  obtain ⟨q, hq⟩ := h.skipComment b p
  refine ⟨q, ?_⟩
  rw [commentText, List.append_assoc] at hq ⊢
  rw [Cursor.readItem_comment, hq]
  rfl

end IsComment

/-! ## Places in a tree -/

/-- A place in the content of an element, with the nodes in front of it. -/
inductive Spot where
  | here (before : List Node)
  /-- The place is in the content of a child. -/
  | inside (before : List Node) (name : Name) (spot : Spot)

/-- The same place with one more item in front, at the outermost level. -/
def Spot.behind (item : Item) : Spot → Spot
  | .here before => .here (item.push before)
  | .inside before name spot => .inside (item.push before) name spot

/-- Nodes without and with a comment at a place. -/
inductive Commented : Spot → List Node → List Node → Prop
  | here (nodes : List Node) : Commented (.here []) nodes (.comment :: nodes)
  /-- Character data is two nodes with the comment, and one without. -/
  | split (s s₁ s₂ : String) (nodes : List Node) :
      Commented (.here [.text s₁]) (Node.consText s nodes)
        (.text s₁ :: .comment :: Node.consText s₂ nodes)
  | behind {spot : Spot} {old new : List Node} (item : Item) : Commented spot old new →
      Commented (spot.behind item) (item.push old) (item.push new)
  | inside {spot : Spot} {old new : List Node} (name : Name) (nodes : List Node) :
      Commented spot old new →
      Commented (.inside [] name spot) (.element name old :: nodes) (.element name new :: nodes)

namespace Cursor

/-- The text `pre` leads from the beginning of content to a place in it, when `post` follows. -/
inductive At (post : List Char) : Scope → List Char → Spot → Prop
  | here {scope : Scope} : At post scope [] (.here [])
  /-- In or behind character data.  Every reference in front of the place is complete. -/
  | within {scope : Scope} {raw : List Char} {ds : List Datum} {p : Position} :
      raw ≠ [] → '<' ∉ raw → resolve raw p = .ok ds →
      At post scope raw (.here [.text (String.ofList (dataChars ds))])
  /-- Behind an item, at a place in the content that follows it. -/
  | behind {scope : Scope} {piece pre : List Char} {spot : Spot} {item : Item} {n : Nat}
      {p q : Position} :
      readItem n scope ⟨piece ++ (pre ++ post), p⟩ = .ok (some item, ⟨pre ++ post, q⟩) →
      At post scope pre spot → At post scope (piece ++ pre) (spot.behind item)
  /-- Behind a start tag, at a place in the content of that element. -/
  | inside {scope : Scope} {piece pre : List Char} {spot : Spot} {tag : StartTag}
      {p q : Position} :
      readStartTag scope ⟨'<' :: (piece ++ (pre ++ post)), p⟩ =
        .ok (some tag, ⟨pre ++ post, q⟩) → tag.opened = true →
      At post tag.scope pre spot → At post scope ('<' :: (piece ++ pre)) (.inside [] tag.name spot)

/-- The text `pre` leads from the beginning of a document to a place in the content of its root,
when `post` follows. -/
inductive InRoot (post : List Char) : List Char → Spot → Prop
  | intro {front piece pre : List Char} {spot : Spot} {tag : StartTag} {p q : Position} :
      skipFront ((front ++ '<' :: (piece ++ (pre ++ post))).length + 1)
        (.start (front ++ '<' :: (piece ++ (pre ++ post)))) =
          .ok ⟨'<' :: (piece ++ (pre ++ post)), p⟩ →
      readStartTag [] ⟨'<' :: (piece ++ (pre ++ post)), p⟩ = .ok (some tag, ⟨pre ++ post, q⟩) →
      tag.opened = true → At post tag.scope pre spot →
      InRoot post (front ++ '<' :: (piece ++ pre)) spot

theorem readStartTag_alone {scope : Scope} {piece : List Char} {tag : StartTag} {p q : Position}
    (h : readStartTag scope ⟨'<' :: piece, p⟩ = .ok (some tag, ⟨[], q⟩)) (b : List Char)
    (p' : Position) :
    ∃ q', readStartTag scope ⟨'<' :: (piece ++ b), p'⟩ = .ok (some tag, ⟨b, q'⟩) := by
  obtain ⟨a, ha, htag⟩ := isStartTag_readStartTag h
  rw [List.append_nil] at ha
  rw [ha]
  exact htag.reads b p'

/-! ## Content, from its first item on -/

variable {n m : Nat} {scope : Scope} {opened : TagName} {cs a c pre post body : List Char}
  {p : Position} {k' : Cursor} {nodes : List Node} {item : Item}

theorem IsContent.mono (h : IsContent n scope opened a nodes) (hnm : n ≤ m) :
    IsContent m scope opened a nodes :=
  ⟨h.ne_nil, fun l b p hl => h.reads l b p (Nat.le_trans hnm hl)⟩

theorem IsItem.mono (h : IsItem n scope a item) (hnm : n ≤ m) : IsItem m scope a item :=
  ⟨h.ne_nil, fun l b p hl => h.reads l b p (Nat.le_trans hnm hl)⟩

theorem of_readContent (h : readContent n scope opened ⟨cs, p⟩ = .ok (nodes, k'))
    (hstart : startsWith ⟨cs, p⟩ "</" = false) :
    ∃ l item more k₁, n = l + 1 ∧ nodes = item.push more ∧
      readItem l scope ⟨cs, p⟩ = .ok (some item, k₁) ∧
      readContent l scope opened k₁ = .ok (more, k') := by
  cases n with
  | zero => cases h
  | succ n =>
      rw [readContent_eq, hstart] at h
      obtain ⟨⟨item?, k₁⟩, hread, hafter⟩ := ok_of_bind h
      obtain ⟨⟨more, k₂⟩, hmore, hnodes⟩ := ok_of_bind hafter
      cases hnodes
      cases item? with
      | none =>
          obtain ⟨rest, q⟩ := k₁
          obtain ⟨c, rfl, hcontent⟩ := isContent_readContent hmore
          have hend := rest_of_readItem hread
          exact absurd (List.append_eq_nil_iff.1 hend).1 hcontent.ne_nil
      | some item => exact ⟨n, item, more, k₁, rfl, rfl, hread, hmore⟩

theorem readItem_unique {p q : Position} {item₁ item₂ : Item} {k₁ k₂ : Cursor}
    (h₁ : readItem n scope ⟨cs, p⟩ = .ok (some item₁, k₁))
    (h₂ : readItem m scope ⟨cs, q⟩ = .ok (some item₂, k₂)) : item₁ = item₂ ∧ k₁.rest = k₂.rest := by
  obtain ⟨a₁, ha₁, hitem₁, hend₁⟩ := isItem_readItem h₁
  obtain ⟨a₂, ha₂, hitem₂, hend₂⟩ := isItem_readItem h₂
  obtain ⟨q₁, hq₁⟩ := hitem₁.reads (max n m) k₁.rest p (Nat.le_max_left n m) hend₁
  obtain ⟨q₂, hq₂⟩ := hitem₂.reads (max n m) k₂.rest p (Nat.le_max_right n m) hend₂
  rw [← ha₁] at hq₁
  rw [← ha₂, hq₁] at hq₂
  obtain ⟨hitems, hcursors⟩ := Prod.mk.inj (Except.ok.inj hq₂)
  exact ⟨Option.some.inj hitems, (Cursor.mk.inj hcursors).1⟩

theorem exists_append_of_not_mem {raw raw' rest : List Char} (h : raw ++ post = raw' ++ rest)
    (hraw : '<' ∉ raw) (hrest : rest.head? = some '<') :
    ∃ b, raw' = raw ++ b ∧ post = b ++ rest := by
  rcases List.append_eq_append_iff.1 h with ⟨b, hraw', hpost⟩ | ⟨b, hb, hrest'⟩
  · exact ⟨b, hraw', hpost⟩
  · cases b with
    | nil => exact ⟨[], by simpa using hb.symm, by simpa using hrest'.symm⟩
    | cons d b =>
        rw [hrest'] at hrest
        cases hrest
        exact absurd (hb ▸ List.mem_append_right raw' List.mem_cons_self) hraw

theorem of_readContent_text {raw : List Char} (hne : raw ≠ []) (hraw : '<' ∉ raw)
    (h : readContent n scope opened ⟨raw ++ post, p⟩ = .ok (nodes, k')) :
    ∃ l s more rest q, n = l + 1 ∧ nodes = Node.consText s more ∧
      readText ⟨raw ++ post, p⟩ = .ok (s, ⟨rest, q⟩) ∧
      readContent l scope opened ⟨rest, q⟩ = .ok (more, k') := by
  obtain ⟨d, raw, rfl⟩ := List.exists_cons_of_ne_nil hne
  have hd : d ≠ '<' := fun hd => hraw (hd ▸ List.mem_cons_self)
  have hstart : startsWith ⟨d :: raw ++ post, p⟩ "</" = false := by
    simp [startsWith, List.isPrefixOf_cons_cons, Ne.symm hd]
  obtain ⟨l, item, more, ⟨rest, q⟩, rfl, rfl, hread, hmore⟩ := of_readContent h hstart
  rw [List.cons_append, readItem_text l scope hd] at hread
  obtain ⟨⟨s, k₂⟩, htext, hitem⟩ := ok_of_bind hread
  cases hitem
  exact ⟨l, s, more, rest, q, rfl, rfl, htext, hmore⟩

theorem of_readElement_tag {tag : StartTag} {node : Node} (htag : IsStartTag scope a tag)
    (hopened : tag.opened = true)
    (h : readElement n scope ⟨'<' :: (a ++ cs), p⟩ = .ok (some node, k')) :
    ∃ l children q, n = l + 1 ∧ node = .element tag.name children ∧
      readContent l tag.scope tag.written ⟨cs, q⟩ = .ok (children, k') := by
  cases n with
  | zero => cases h
  | succ l =>
      obtain ⟨q, hq⟩ := htag.reads cs p
      rw [readElement_eq] at h
      obtain ⟨r, hr, hcontent⟩ := ok_of_bind h
      obtain rfl := Except.ok.inj (hq.symm.trans hr)
      simp only [hopened, if_true] at hcontent
      obtain ⟨⟨children, k₁⟩, hchildren, hend⟩ := ok_of_bind hcontent
      cases hend
      exact ⟨l, children, q, rfl, rfl, hchildren⟩

theorem of_readContent_tag {tag : StartTag} (htag : IsStartTag scope a tag)
    (hopened : tag.opened = true)
    (h : readContent n scope opened ⟨'<' :: (a ++ cs), p⟩ = .ok (nodes, k')) :
    ∃ l children more k₁ q, n = l + 2 ∧ nodes = .element tag.name children :: more ∧
      readContent l tag.scope tag.written ⟨cs, q⟩ = .ok (children, k₁) ∧
      readContent (l + 1) scope opened k₁ = .ok (more, k') := by
  have hstart : startsWith ⟨'<' :: (a ++ cs), p⟩ "</" = false := by
    obtain ⟨d, a, rfl, hslash, -⟩ := htag.begins
    simp [startsWith, List.isPrefixOf_cons_cons, Ne.symm hslash]
  obtain ⟨l, item, more, k₁, rfl, rfl, hread, hmore⟩ := of_readContent h hstart
  rw [readItem_tag l scope htag.begins] at hread
  obtain ⟨⟨node?, k₂⟩, helement, hitem⟩ := ok_of_bind hread
  obtain ⟨hnode, rfl⟩ := Prod.mk.inj (Except.ok.inj hitem)
  obtain ⟨node, rfl, rfl⟩ := Option.map_eq_some_iff.1 hnode
  obtain ⟨l, children, q, rfl, rfl, hchildren⟩ := of_readElement_tag htag hopened helement
  exact ⟨l, children, more, _, q, rfl, rfl, hchildren, hmore⟩

section

variable (hbody : IsComment body)

include hbody

theorem IsContent.comment (h : IsContent n scope opened a nodes) :
    IsContent (n + 1) scope opened (commentText body ++ a) (.comment :: nodes) :=
  (hbody.isItem n scope).isContent h (.inl rfl)

/-- Within character data, a comment makes two items of one. -/
theorem insert_within {raw : List Char} {ds : List Datum} {q : Position} (hne : raw ≠ [])
    (hraw : '<' ∉ raw) (hds : resolve raw q = .ok ds)
    (h : readContent n scope opened ⟨raw ++ post, p⟩ = .ok (nodes, k')) :
    ∃ post' nodes', post = post' ++ k'.rest ∧
      Commented (.here [.text (String.ofList (dataChars ds))]) nodes nodes' ∧
      IsContent (n + 2) scope opened (raw ++ (commentText body ++ post')) nodes' := by
  obtain ⟨l, s, more, rest, q', rfl, rfl, hread, hmore⟩ := of_readContent_text hne hraw h
  obtain ⟨raw', ds', hrest, hdata, rfl, hend⟩ := of_readText hread
  obtain ⟨c, rfl, hcontent⟩ := isContent_readContent hmore
  obtain ⟨d, c, rfl⟩ := List.exists_cons_of_ne_nil hcontent.ne_nil
  obtain rfl := hend d rfl
  obtain ⟨b, rfl, rfl⟩ := exists_append_of_not_mem hrest hraw rfl
  obtain ⟨hleft, ds₂, hright⟩ := hdata.cut hds
  have hitem : IsItem (l + 2) scope raw (.text (String.ofList (dataChars ds))) :=
    isItem_of_isRaw hleft hne
  have hmark : ∀ {rest}, raw.head? = some '<' ∨ ∀ d ∈ (commentText body ++ rest).head?, d = '<' :=
    .inr fun d hd => (Option.some.inj hd).symm
  by_cases hb : b = []
  · -- The comment stands behind all of the data.
    subst hb
    obtain rfl : ds = ds' := by
      have hall := hdata.resolves p
      rw [List.append_nil, hleft.resolves] at hall
      exact Except.ok.inj hall
    exact ⟨'<' :: c, _, rfl, .behind (.text _) (.here more),
      hitem.isContent ((hcontent.comment hbody).mono (by omega)) hmark⟩
  · have hsecond : IsItem l scope b (.text (String.ofList (dataChars ds₂))) :=
      isItem_of_isRaw hright hb
    have hcontent' := hsecond.isContent hcontent (.inr fun d hd => (Option.some.inj hd).symm)
    exact ⟨b ++ '<' :: c, _, (List.append_assoc _ _ _).symm, .split _ _ _ more,
      hitem.isContent (hcontent'.comment hbody) hmark⟩

/-- A comment at any place in content is read there, and all else as before. -/
theorem insert_comment {spot : Spot} (hat : At post scope pre spot)
    (h : readContent n scope opened ⟨pre ++ post, p⟩ = .ok (nodes, k')) :
    ∃ post' nodes', post = post' ++ k'.rest ∧ Commented spot nodes nodes' ∧
      IsContent (n + 2) scope opened (pre ++ (commentText body ++ post')) nodes' := by
  -- On the way to the place: each item that is passed, and each start tag, is read as before.
  induction hat generalizing n opened p nodes k' with
  | here =>
      obtain ⟨a, ha, hcontent⟩ := isContent_readContent h
      exact ⟨a, .comment :: nodes, ha, .here nodes, (hcontent.comment hbody).mono (by omega)⟩
  | within hne hraw hds => exact insert_within hbody hne hraw hds h
  | @behind scope piece pre spot item m q₁ q₂ hread hat ih =>
      rw [List.append_assoc] at h
      have hstart := not_endTag_of_readItem hread
      obtain ⟨l, item', more, ⟨rest, q⟩, rfl, rfl, hread', hmore⟩ := of_readContent h hstart
      obtain ⟨rfl, rfl⟩ := readItem_unique hread hread'
      obtain ⟨a, ha, hitem, hend⟩ := isItem_readItem hread'
      obtain rfl := List.append_cancel_right ha
      obtain ⟨post', nodes', hpost, hcommented, hcontent⟩ := ih hmore
      refine ⟨post', item.push nodes', hpost, .behind item hcommented, ?_⟩
      rw [List.append_assoc]
      refine (hitem.mono (by omega)).isContent hcontent (hend.imp_right fun hpre => ?_)
      cases pre with
      | nil => exact fun d hd => (Option.some.inj hd).symm
      | cons d pre => exact hpre
  | @inside scope piece pre spot tag q₁ q₂ hread hopened hat ih =>
      obtain ⟨a, ha, htag⟩ := isStartTag_readStartTag hread
      obtain rfl := List.append_cancel_right ha
      rw [List.cons_append, List.append_assoc] at h
      obtain ⟨l, children, more, ⟨rest, q⟩, q', rfl, rfl, hchildren, hmore⟩ :=
        of_readContent_tag htag hopened h
      obtain ⟨post₁, children', hpost, hcommented, hcontent⟩ := ih hchildren
      obtain ⟨c, rfl, hrest⟩ := isContent_readContent hmore
      refine ⟨post₁ ++ c, _, by rw [hpost, List.append_assoc], .inside tag.name more hcommented, ?_⟩
      have helement := (htag.isElement hopened hcontent).isItem
      have hall := helement.isContent (hrest.mono (by omega)) (.inl rfl)
      simp only [List.cons_append, List.append_assoc] at hall ⊢
      exact hall

end

end Cursor

/-! ## Documents -/

theorem endsMisc_tag {a : List Char} (hbegins : Cursor.BeginsElement a)
    (b : List Char) (p : Position) :
    EndsMisc ('<' :: (a ++ b)) ∧ Cursor.startsWith ⟨'<' :: (a ++ b), p⟩ "<!DOCTYPE" = false := by
  obtain ⟨c, a, rfl, -, hquestion, hbang⟩ := hbegins
  refine ⟨endsMisc_markup hbang hquestion (a ++ b), ?_⟩
  simp [Cursor.startsWith, List.isPrefixOf_cons_cons, Ne.symm hbang]

/-- A document with a comment at some place in its root is read as before, but for the comment. -/
theorem parse_insert {pre post body : List Char} (hbody : IsComment body) {spot : Spot}
    (hat : Cursor.InRoot post pre spot) {root : Node}
    (h : parse (String.ofList (pre ++ post)) = .ok root) :
    ∃ name old new, root = .element name old ∧ Commented spot old new ∧
      parse (String.ofList (pre ++ (commentText body ++ post))) = .ok (.element name new) := by
  obtain @⟨front, piece, pre, spot, tag, p, q, hfront, htag, hopened, hat⟩ := hat
  obtain ⟨k, k₁, k₂, hk, -, -, hroot, hmisc, hend⟩ := parse_eq_ok_iff.1 h
  simp only [String.toList_ofList, String.length_ofList, List.append_assoc, List.cons_append]
    at hk hroot hmisc
  obtain rfl := Except.ok.inj (hfront.symm.trans hk)
  obtain ⟨a, ha, hlocal⟩ := Cursor.isStartTag_readStartTag htag
  obtain rfl := List.append_cancel_right ha
  obtain ⟨l, old, q', hl, rfl, hold⟩ := Cursor.of_readElement_tag hlocal hopened hroot
  obtain ⟨post', new, rfl, hcommented, hnew⟩ := Cursor.insert_comment hbody hat hold
  have helement := hlocal.isElement hopened hnew
  refine ⟨tag.name, old, new, rfl, hcommented, parse_eq_ok_iff.2 ?_⟩
  simp only [String.toList_ofList, String.length_ofList, List.append_assoc, List.cons_append]
  -- The text is longer than before, so each bound is larger.
  generalize hsize : (front ++ '<' :: (piece ++ (pre ++ (post' ++ k₁.rest)))).length = size
    at hfront hmisc hl
  generalize hsize' : (front ++ '<' :: (piece ++ (pre ++ (commentText body ++
    (post' ++ k₁.rest))))).length = size'
  have hless : size < size' := by
    rw [← hsize, ← hsize']
    simp [commentText]
    omega
  obtain ⟨hends, htype⟩ := endsMisc_tag hlocal.begins (pre ++ (commentText body ++ (post' ++ k₁.rest))) p
  obtain ⟨q₁, hq₁⟩ := Cursor.of_skipFront rfl hfront (Nat.succ_lt_succ hless) hends
  obtain ⟨q₂, hq₂⟩ := helement.reads (2 * size' + 2) k₁.rest q₁ (by omega)
  simp only [List.append_assoc] at hq₂
  obtain ⟨a, ha, hmisc⟩ := Cursor.of_skipMisc hmisc
  obtain ⟨q₃, hq₃⟩ := hmisc (size' + 1) [] [] q₂ (by omega) (List.forall_mem_nil _) (.inl rfl)
  rw [List.append_nil, ← hend, ← ha] at hq₃
  exact ⟨_, _, _, hq₁, htype, rfl, hq₂, hq₃, hend⟩

end DocStamp.Xml
