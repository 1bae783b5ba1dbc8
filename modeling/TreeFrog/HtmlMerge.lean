import TreeFrog.HtmlCopy

/-!
`append`, `prepend` and `merge` on parsed texts: which of them copy a tree as it is printed, at its
place among the children that are there.
-/

namespace TreeFrog.HtmlMerge

open ErbParser hiding parse parseLoop
open HtmlElement THtmlParser HtmlForest HtmlScan HtmlTag HtmlParser HtmlShown HtmlCopy

variable {d d' o : THtmlParser} {i p c : ℕ} {index : ℤ} {s : QString}

/-! ### Parsed texts -/

/-- The tables that are built by adding elements at the end, each below the root or an element with
a name. -/
inductive Grown : THtmlParser → Prop where
  | new : Grown .new
  | modify {d : THtmlParser} (h : Grown d) (i : ℕ) {f : THtmlElement → THtmlElement}
      (hparent : ∀ e, (f e).parent = e.parent) (hchildren : ∀ e, (f e).children = e.children)
      (htag : ∀ e, (f e).tag = e.tag) : Grown (d.modify i f)
  | inserted {d d' : THtmlParser} {p : ℕ} {e : THtmlElement} (h : Grown d)
      (hins : Inserted d d' p (-1) e) (hp : p < d.elementCount)
      (htag : p = 0 ∨ (d.elements p).tag ≠ []) (he : d.elementCount = 1 → e.tag ≠ []) : Grown d'

namespace Grown

lemma forest (h : Grown d) : Forest d := by
  induction h with
  | new => exact forest_new
  | modify _ i hparent hchildren _ ih =>
    exact (SubLinks.modify _ i hparent fun e => (hchildren e).symm ▸ .refl _).forest ih
  | inserted _ hins hp htag _ ih => exact hins.forest ih hp (ne_newIndex hp htag)

lemma startElement (h : Grown d) (hd : Built d) (hp : p < d.elementCount)
    (htag : p = 0 ∨ (d.elements p).tag ≠ []) {t : StartTag} (ht : t.name ≠ []) :
    Grown (startElement d t p) := by
  obtain ⟨d₁, hins, hbuilt, -, hrest⟩ := startElement_spec hd hp htag ht
  have h₁ : Grown d₁ := h.inserted hins hp htag fun _ => ht
  split_ifs at hrest
  · have hpn := lt_newIndex hd.forest hp (ne_newIndex hp htag)
    have hpos := newIndex_pos hd.forest
    have hcount := hins.count_eq
    refine h₁.inserted hrest (by omega) ?_ fun hone => by omega
    rw [hins.old p hpn]
    exact htag
  · rw [hrest]
    exact h₁

lemma appendText (h : Grown d) (w : QString) : Grown (appendText d w) :=
  h.modify _ (fun _ => rfl) (fun _ => rfl) fun _ => rfl

lemma endElement (h : Grown d) (hd : Built d) (hi : i < d.elementCount)
    (htag : 0 < i → (d.elements i).tag ≠ [])
    (hparent : (d.elements i).parent = 0 ∨ (d.elements (d.elements i).parent).tag ≠ [])
    (tag : QString) : Grown (endElement d tag i) := by
  rcases Nat.eq_zero_or_pos i with rfl | hpos
  · rw [HtmlParser.endElement, if_neg (lt_irrefl 0)]
    exact h.appendText _
  · obtain ⟨hbuilt, hins⟩ := endElement_spec hd hpos hi (htag hpos) tag
    have h₁ : Grown (d.modify i fun e => { e with tagClosed := true }) :=
      h.modify i (fun _ => rfl) (fun _ => rfl) fun _ => rfl
    have hlt := hd.forest.parent_lt i hpos hi
    refine h₁.inserted hins (hlt.trans hi) ?_ fun hone => ?_
    · rw [elements_modify_ne _ hlt.ne]
      exact hparent
    · rw [elementCount_modify] at hone
      omega

end Grown

/-- The elements with children, and the first one, have a name. -/
structure Named (d : THtmlParser) : Prop where
  first : 1 < d.elementCount → (d.elements 1).tag ≠ []
  parent : ∀ i < d.elementCount,
    (d.elements i).parent = 0 ∨ (d.elements (d.elements i).parent).tag ≠ []

namespace Named

lemma modify (hn : Named d) (i : ℕ) {f : THtmlElement → THtmlElement}
    (hparent : ∀ e, (f e).parent = e.parent) (htag : ∀ e, (f e).tag = e.tag) :
    Named (d.modify i f) := by
  have hsame : ∀ j, ((d.modify i f).elements j).parent = (d.elements j).parent ∧
      ((d.modify i f).elements j).tag = (d.elements j).tag := by
    intro j
    rw [elements_modify]
    split_ifs with hj
    · rw [hj]
      exact ⟨hparent _, htag _⟩
    · exact ⟨rfl, rfl⟩
  refine ⟨fun h => ?_, fun j hj => ?_⟩
  · rw [(hsame 1).2]
    exact hn.first h
  · rw [(hsame j).1, (hsame _).2]
    exact hn.parent j hj

lemma inserted {e : THtmlElement} (hn : Named d) (h : Inserted d d' p index e) (hd : Forest d)
    (hp : p < d.elementCount) (htag : p = 0 ∨ (d.elements p).tag ≠ [])
    (he : d.elementCount = 1 → e.tag ≠ []) : Named d' := by
  have hne := ne_newIndex hp htag
  have hpn := lt_newIndex hd hp hne
  have hle := newIndex_le hd
  have hcount := h.count_eq
  have hold : ∀ j < newIndex d, (d'.elements j).tag = (d.elements j).tag := by
    intro j hj
    rw [h.old j hj]
    rfl
  constructor
  · intro hone
    rcases Nat.lt_or_ge 1 (newIndex d) with hlt | hge
    · rw [hold 1 hlt]
      exact hn.first (by omega)
    · have hnew : newIndex d = 1 := by omega
      -- an element that is used again would be empty, and the first one is not
      have hone : d.elementCount = 1 := by
        by_contra hne'
        have hre : Reuses d := by
          by_contra hre
          rw [newIndex, if_neg hre] at hnew
          exact hne' hnew
        have hlast : d.lastIndex = 1 := by rwa [newIndex, if_pos hre] at hnew
        have hempty := (isEmpty_iff.mp hre.2).1
        rw [THtmlParser.last, hlast] at hempty
        exact hn.first hre.1 hempty
      have hnew' := h.new
      rw [hnew] at hnew'
      rw [hnew']
      exact he hone
  · intro j hj
    rcases Nat.lt_or_ge j (newIndex d) with hlt | hge
    · have hq : (d.elements j).parent < newIndex d := by
        rcases Nat.eq_zero_or_pos j with rfl | hpos
        · rw [hd.root]
          exact hlt
        · exact (hd.parent_lt j hpos (by omega)).trans hlt
      rw [h.parent_old hlt, hold _ hq]
      exact hn.parent j (by omega)
    · obtain rfl : j = newIndex d := by omega
      -- the new element: its parent has a name or is the root
      have hparent : (d'.elements (newIndex d)).parent = p := by rw [h.new]; rfl
      rw [hparent, hold p hpn]
      exact htag

end Named

lemma Grown.named (h : Grown d) : Named d := by
  induction h with
  | new => exact ⟨fun h => absurd h (by simp [THtmlParser.new]), fun _ _ => .inl rfl⟩
  | modify _ i hparent _ htag ih => exact ih.modify i hparent htag
  | inserted h hins hp htag he ih => exact ih.inserted hins h.forest hp htag he

lemma parseLoop_grown (txt : QString) {fuel : ℕ} {st st' : State} (hd : Built st.doc)
    (h : Grown st.doc) (hok : parseLoop txt fuel st = .ok st') : Grown st'.doc := by
  induction fuel generalizing st with
  | zero =>
    rw [parseLoop] at hok
    split_ifs at hok
    exact Except.ok.inj hok ▸ h
  | succ fuel ih =>
    obtain ⟨doc, rest, asserted⟩ := st
    rcases rest with _ | ⟨c, r⟩
    · exact Except.ok.inj hok ▸ h
    rw [parseLoop] at hok
    by_cases htag : isTag (c :: r) = true
    · obtain rfl : c = '<' := by
        rw [isTag, Bool.and_eq_true, decide_eq_true_eq] at htag
        exact Option.some.inj htag.1
      simp only [decide_true, htag, Bool.and_self, if_true] at hok
      have hlast := hd.forest.lastIndex_lt
      rcases isStartTag_or htag with hs | ⟨u, rfl, -⟩
      · obtain ⟨t, p, hparse, hread, hnear⟩ := parseTag_start txt ⟨doc, r, asserted⟩ hd hs
        obtain ⟨t', r', hread', hname, -, -⟩ := readStartTag_ok txt hs
        obtain rfl : t = t' := Except.ok.inj (hread.symm.trans hread')
        have ht : t.name ≠ [] := hname ▸ name_ne hs
        rw [hparse] at hok
        refine ih (built_start hd ht hnear) ?_ hok
        refine h.startElement hd ((hnear.le hd.forest hlast).trans_lt hlast) ?_ ht
        rcases Nat.eq_zero_or_pos p with hp | hp
        · exact .inl hp
        · exact .inr (tag_ne_of_isOpen (hnear.stops hp))
      · obtain ⟨i, hparse, hnear⟩ := parseTag_end txt ⟨doc, '/' :: u, asserted⟩ hd rfl
        rw [hparse] at hok
        have hi := (hnear.le hd.forest hlast).trans_lt hlast
        refine ih (built_end hd hnear) ?_ hok
        exact h.endElement hd hi (fun hi => tag_ne_of_isOpened (hnear.stops hi))
          (h.named.parent i hi) _
    · have hok' : parseLoop txt fuel ⟨HtmlParser.appendText doc [c], r, asserted⟩ = .ok st' := by
        simpa [htag] using hok
      exact ih (hd.appendText _) (h.appendText _) hok'

/-- **A parsed text** has grown so. -/
theorem parse_grown {trimMode : TrimMode} {text : QString} {st : State}
    (h : parse trimMode text = .ok st) : Grown st.doc :=
  parseLoop_grown (trimmedText trimMode text) built_new .new h

lemma Named.solid (hn : Named d) (hd : Forest d) (hpos : 0 < i) (hi : i < d.elementCount) :
    Solid (treeOf d i) := by
  induction hm : d.elementCount - i using Nat.strong_induction_on generalizing i with
  | _ m ih =>
    subst hm
    rw [treeOf_eq hd.ordered hi, Solid, solids_iff]
    refine ⟨fun hempty => ?_, fun t ht => ?_⟩
    · rw [List.map_eq_nil_iff, List.eq_nil_iff_forall_not_mem]
      intro c hc
      obtain ⟨-, hlt, hparent⟩ := hd.child i hi c hc
      have htag := hn.parent c hlt
      rw [hparent] at htag
      exact (htag.resolve_left hpos.ne') (isEmpty_iff.mp hempty).1
    · obtain ⟨c, hc, rfl⟩ := List.mem_map.mp ht
      have hlt := hd.lt_child hi hc
      have hcount := (hd.child i hi c hc).2.1
      exact ih _ (by omega) (by omega) hcount rfl

/-! ### What is printed of the children -/

/-- The recursion at the element ends with the text. -/
def Prints (d : THtmlParser) (i : ℕ) (s : QString) : Prop :=
  ∃ fuel, elementsToString fuel d i = some s

/-- The children are printed so, in order; those that print nothing do not count. -/
def PrintsChildren (d : THtmlParser) (p : ℕ) (ts : List QString) : Prop :=
  ∃ l, List.Forall₂ (Prints d) (d.elements p).children l ∧ nonblank l = ts

lemma forall₂_of_mapM {α β : Type*} {f : α → Option β} {l : List α} {r : List β}
    (h : l.mapM f = some r) : List.Forall₂ (fun x y => f x = some y) l r := by
  induction l generalizing r with
  | nil =>
    obtain rfl : r = [] := (Option.some.inj h).symm
    exact .nil
  | cons x l ih =>
    rw [List.mapM_cons] at h
    obtain ⟨y, hy, h⟩ := Option.bind_eq_some_iff.mp h
    obtain ⟨ys, hys, h⟩ := Option.bind_eq_some_iff.mp h
    obtain rfl : y :: ys = r := Option.some.inj h
    exact .cons hy (ih hys)

lemma exists_of_forall₂ {α β : Type*} {R : α → β → Prop} {l : List α} {r : List β}
    (h : List.Forall₂ R l r) {x : α} (hx : x ∈ l) : ∃ y, R x y := by
  induction h with
  | nil => cases hx
  | cons hxy _ ih =>
    rcases List.mem_cons.mp hx with rfl | hmem
    · exact ⟨_, hxy⟩
    · exact ih hmem

lemma elementsToString_unique (hd : Ordered d) {fuel : ℕ} (hi : i < d.elementCount)
    (h : elementsToString fuel d i = some s) : s = shown d i := by
  induction fuel generalizing i s with
  | zero => cases h
  | succ fuel ih =>
    rw [elementsToString] at h
    obtain ⟨strings, hmap, rfl⟩ := Option.map_eq_some_iff.mp h
    have hstrings : strings = (d.elements i).children.map (shown d) := by
      have hall := forall₂_of_mapM hmap
      have hchild := hd i hi
      generalize (d.elements i).children = cs at hall hchild
      clear hmap h hi
      induction hall with
      | nil => rfl
      | cons hx _ ihl =>
        rw [List.map_cons, ih (hchild _ List.mem_cons_self).2 hx,
          ← ihl fun c hc => hchild c (List.mem_cons_of_mem _ hc)]
    rw [shown_eq hd hi, hstrings, List.flatMap_def]

lemma prints_iff (hd : Ordered d) (hi : i < d.elementCount) : Prints d i s ↔ s = shown d i := by
  constructor
  · rintro ⟨fuel, h⟩
    exact elementsToString_unique hd hi h
  · rintro rfl
    exact ⟨d.elementCount, elementsToString_eq hd hi (Nat.le_add_left _ _)⟩

lemma printsChildren_iff {ts : List QString} (hd : Forest d) (hp : p < d.elementCount) :
    PrintsChildren d p ts ↔ ts = texts d p := by
  have hlist : ∀ cs : List ℕ, (∀ c ∈ cs, c < d.elementCount) → ∀ l : List QString,
      List.Forall₂ (Prints d) cs l ↔ l = cs.map (shown d) := by
    intro cs hcs
    induction cs with
    | nil => exact fun l => by simp
    | cons c cs ih =>
      have ih' := ih fun c hc => hcs c (List.mem_cons_of_mem _ hc)
      intro l
      rw [List.forall₂_cons_left_iff]
      constructor
      · rintro ⟨s, l, hs, hl, rfl⟩
        rw [(prints_iff hd.ordered (hcs c List.mem_cons_self)).mp hs, (ih' l).mp hl, List.map_cons]
      · rintro rfl
        exact ⟨_, _, (prints_iff hd.ordered (hcs c List.mem_cons_self)).mpr rfl,
          (ih' _).mpr rfl, rfl⟩
  have hchildren := hlist _ fun c hc => (hd.child p hp c hc).2.1
  constructor
  · rintro ⟨l, hl, rfl⟩
    rw [(hchildren l).mp hl, texts]
  · rintro rfl
    exact ⟨_, (hchildren _).mpr rfl, rfl⟩

/-! ### An element below itself -/

lemma foldlM_keeps {α β : Type*} {P : β → Prop} {f : β → α → Option β}
    (hstep : ∀ b a b', P b → f b a = some b' → P b') {l : List α} {b b' : β} (hb : P b)
    (h : l.foldlM f b = some b') : P b' := by
  induction l generalizing b with
  | nil => exact Option.some.inj h ▸ hb
  | cons a l ih =>
    rw [List.foldlM_cons] at h
    obtain ⟨b₁, hb₁, h⟩ := Option.bind_eq_some_iff.mp h
    exact ih (hstep b a b₁ hb hb₁) h

/-- The element is one of its own children, and has a name. -/
structure Looped (d : THtmlParser) (p : ℕ) : Prop where
  lt : p < d.elementCount
  tag : (d.elements p).tag ≠ []
  child : p ∈ (d.elements p).children

namespace Looped

lemma modify (h : Looped d p) (i : ℕ) {f : THtmlElement → THtmlElement}
    (hf : i = p → ∀ e : THtmlElement,
      (e.tag ≠ [] → (f e).tag ≠ []) ∧ (p ∈ e.children → p ∈ (f e).children)) :
    Looped (d.modify i f) p := by
  by_cases hi : p = i
  · subst hi
    obtain ⟨htag, hchild⟩ := hf rfl (d.elements p)
    exact ⟨h.lt, by rw [elements_modify_self]; exact htag h.tag,
      by rw [elements_modify_self]; exact hchild h.child⟩
  · exact ⟨h.lt, by rw [elements_modify_ne _ hi]; exact h.tag,
      by rw [elements_modify_ne _ hi]; exact h.child⟩

lemma place (h : Looped d p) (q : ℕ) (index : ℤ) (i : ℕ) :
    Looped (d.modify q fun e => { e with children := place e.children index i }) p :=
  h.modify q fun _ _ => ⟨id, fun hp => mem_place.mpr (.inr hp)⟩

lemma insert (h : Looped d p) (q : ℕ) (index : ℤ) :
    Looped (d.insertNewElement q index) p ∧ (d.insertNewElement q index).lastIndex ≠ p := by
  have hlt := h.lt
  rw [insertNewElement]
  split_ifs with hre
  · have hne : d.lastIndex ≠ p := by
      rintro rfl
      exact h.tag (isEmpty_iff.mp hre.2).1
    have herase : ∀ i, Looped
        (d.modify i fun e => { e with children := e.children.erase d.lastIndex }) p :=
      fun i => h.modify i fun _ _ =>
        ⟨id, fun hp => (List.mem_erase_of_ne (Ne.symm hne)).mpr hp⟩
    exact ⟨((herase _).modify _ fun hi => absurd hi hne).place _ _ _, hne⟩
  · have hgrow : Looped d.grow p := by
      have hsame : d.grow.elements p = d.elements p := Function.update_of_ne hlt.ne ..
      exact ⟨Nat.lt_succ_of_lt hlt, hsame ▸ h.tag, hsame ▸ h.child⟩
    refine ⟨(hgrow.modify _ fun hi => absurd hi hlt.ne').place _ _ _, ?_⟩
    exact hlt.ne'

lemma attach {fuel q : ℕ} (h : Looped d p)
    (hok : THtmlParser.attach index fuel d q o = some d') : Looped d' p := by
  induction fuel generalizing d q o d' with
  | zero => cases hok
  | succ fuel ih =>
    rw [THtmlParser.attach] at hok
    split_ifs at hok with hcount
    · exact Option.some.inj hok ▸ h
    · obtain ⟨hins, hne⟩ := h.insert q index
      have hstart : Looped ((d.insertNewElement q index).modify
          (d.insertNewElement q index).lastIndex fun e => copyContent e (o.elements 1)) p :=
        hins.modify _ fun hi => absurd hi hne
      exact foldlM_keeps (fun _ _ _ hd hd' => ih hd hd') hstart hok

lemma not_prints (h : Looped d p) : ¬Prints d p s := by
  rintro ⟨fuel, hfuel⟩
  induction fuel generalizing s with
  | zero => cases hfuel
  | succ fuel ih =>
    rw [elementsToString] at hfuel
    obtain ⟨strings, hmap, -⟩ := Option.map_eq_some_iff.mp hfuel
    obtain ⟨t, ht⟩ := exists_of_forall₂ (forall₂_of_mapM hmap) h.child
    exact ih ht

lemma not_printsChildren (h : Looped d p) (ts : List QString) : ¬PrintsChildren d p ts := by
  rintro ⟨l, hl, -⟩
  obtain ⟨t, ht⟩ := exists_of_forall₂ hl h.child
  exact h.not_prints ht

end Looped

lemma looped_of_attach {fuel : ℕ} (hp : p < d.elementCount) (hnew : p = newIndex d)
    (hcount : 1 < o.elementCount) (htag : (o.elements 1).tag ≠ [])
    (h : attach index fuel d p o = some d') : Looped d' p := by
  cases fuel with
  | zero => cases h
  | succ fuel =>
    have hre : Reuses d := by
      by_contra hre
      rw [newIndex, if_neg hre] at hnew
      exact hp.ne hnew
    obtain rfl : p = d.lastIndex := hnew.trans (if_pos hre)
    rw [attach, if_neg (by omega)] at h
    simp only [insert_reuse hre] at h
    have hlast : (d.changeParent d.lastIndex d.lastIndex index).lastIndex = d.lastIndex := rfl
    rw [hlast] at h
    have hstart : Looped ((d.changeParent d.lastIndex d.lastIndex index).modify d.lastIndex
        fun e => copyContent e (o.elements 1)) d.lastIndex := by
      refine ⟨hp, ?_, ?_⟩
      · rw [elements_modify_self]
        exact htag
      · rw [elements_modify_self, changeParent, elements_modify_self]
        exact mem_place.mpr (.inl rfl)
    exact foldlM_keeps (P := (Looped · d.lastIndex)) (fun _ _ _ hd hd' => hd.attach hd') hstart h

/-! ### The operations on parsed texts -/

/-- `append` adds a copy of the tree of the first element of `o` behind the children of `p`. -/
def Appends (d o : THtmlParser) (p : ℕ) : Prop :=
  ∃ d' s ts, d.append p o = some d' ∧ Prints o 1 s ∧ PrintsChildren d p ts ∧
    PrintsChildren d' p (ts ++ [s])

/-- `prepend` adds it in front of the children. -/
def Prepends (d o : THtmlParser) (p : ℕ) : Prop :=
  ∃ d' s ts, d.prepend p o = some d' ∧ Prints o 1 s ∧ PrintsChildren d p ts ∧
    PrintsChildren d' p (s :: ts)

/-- `merge` adds copies of all children of the first element of `o`, in their order, in front of the
children of the first element. -/
def Merges (d o : THtmlParser) : Prop :=
  ∃ d' us ts, d.merge o = some d' ∧ PrintsChildren o 1 us ∧ PrintsChildren d 1 ts ∧
    PrintsChildren d' 1 (us ++ ts)

/-- What `merge` makes of the children, in the order in which they come to stand. -/
def mergedTexts (o : THtmlParser) : List QString :=
  nonblank ((o.elements 1).children.map fun c => (mirror (treeOf o c)).toString).reverse

lemma nonblank_node {e : THtmlElement} (htag : e.tag ≠ []) (ts : List HTree) :
    nonblank [(HTree.node e ts).toString] = [(HTree.node e ts).toString] := by
  have hne : (HTree.node e ts).toString ≠ [] := by
    rw [HTree.toString, THtmlElement.toString]
    simp [htag]
  simp [nonblank, hne]

/-- The element is the last one and empty, so that it is taken again for a new element. -/
def Vacant (d : THtmlParser) (p : ℕ) : Prop := p = d.lastIndex ∧ d.last.isEmpty

lemma ne_newIndex_iff (hp : p < d.elementCount) (hcount : 1 < d.elementCount) :
    p ≠ newIndex d ↔ ¬Vacant d p := by
  rw [newIndex]
  split_ifs with hre
  · simp [Vacant, hre.2]
  · have hempty : ¬d.last.isEmpty := fun h => hre ⟨hcount, h⟩
    simp [Vacant, hempty, hp.ne]

section Parsed

variable (hd : Forest d) (hcount : 1 < d.elementCount) (hdn : Named d) (ho : Forest o)
  (hon : Named o) (hocount : 1 < o.elementCount) (hp : p < d.elementCount)

include hd hcount ho hon hocount hp

omit hcount in
lemma attaches_iff (hindex : index = 0 ∨ index = -1) :
    (∃ d' s ts, attach index o.elementCount d p o = some d' ∧ Prints o 1 s ∧
      PrintsChildren d p ts ∧ PrintsChildren d' p (if index = 0 then s :: ts else ts ++ [s])) ↔
    p ≠ newIndex d ∧ (copied index (treeOf o 1)).toString = (treeOf o 1).toString := by
  have hfirst : (relink (o.elements 1) 0 []).tag ≠ [] := hon.first hocount
  have hcopy : nonblank [(copied index (treeOf o 1)).toString] =
      [(copied index (treeOf o 1)).toString] := by
    rw [treeOf_eq ho.ordered hocount, copied]
    split_ifs
    · exact nonblank_node hfirst _
    · exact nonblank_node hfirst _
  have hspec (hne : p ≠ newIndex d) : ∃ d', attach index o.elementCount d p o = some d' ∧
      Forest d' ∧ p < d'.elementCount ∧ texts d' p =
        if index = 0 then (copied index (treeOf o 1)).toString :: texts d p
        else texts d p ++ [(copied index (treeOf o 1)).toString] := by
    obtain ⟨d', hok, hatt⟩ := attach_spec hindex o.elementCount hd hp hne ho.ordered hocount le_rfl
      (hon.solid ho Nat.one_pos hocount)
    have htexts := hatt.texts_eq hindex hd hp hne
    rw [hcopy] at htexts
    exact ⟨d', hok, hatt.forest, (lt_newIndex hd hp hne).trans hatt.new_lt, htexts⟩
  constructor
  · rintro ⟨d', s, ts, hok, hs, hts, hchildren⟩
    -- otherwise the copy is below itself, and its printing never ends
    have hne : p ≠ newIndex d := fun hnew =>
      (looped_of_attach hp hnew hocount hfirst hok).not_printsChildren _ hchildren
    obtain ⟨d₁, hok₁, hd₁, hp₁, htexts⟩ := hspec hne
    obtain rfl := Option.some.inj (hok₁.symm.trans hok)
    have heq := (printsChildren_iff hd₁ hp₁).mp hchildren
    rw [htexts, (prints_iff ho.ordered hocount).mp hs, (printsChildren_iff hd hp).mp hts] at heq
    refine ⟨hne, ?_⟩
    split_ifs at heq
    · exact (List.cons.inj heq).1.symm
    · exact (List.cons.inj (List.append_cancel_left heq)).1.symm
  · rintro ⟨hne, hsame⟩
    obtain ⟨d', hok, hd', hp', htexts⟩ := hspec hne
    rw [hsame] at htexts
    exact ⟨d', _, _, hok, (prints_iff ho.ordered hocount).mpr rfl,
      (printsChildren_iff hd hp).mpr rfl, (printsChildren_iff hd' hp').mpr htexts.symm⟩

lemma appends_iff : Appends d o p ↔ ¬Vacant d p := by
  have h := attaches_iff hd ho hon hocount hp (.inr rfl)
  rw [ne_newIndex_iff hp hcount] at h
  exact h.trans (and_iff_left rfl)

lemma prepends_iff : Prepends d o p ↔
    ¬Vacant d p ∧ (mirror (treeOf o 1)).toString = (treeOf o 1).toString := by
  have h := attaches_iff hd ho hon hocount hp (.inl rfl)
  rw [ne_newIndex_iff hp hcount] at h
  exact h

omit hp in
include hdn in
lemma merges_iff (htag : (d.elements 1).tag = (o.elements 1).tag) :
    Merges d o ↔ mergedTexts o = texts o 1 := by
  have hlinks := subLinks_merged d o
  have hcount' : 1 < (merged d o).elementCount := hlinks.count_eq ▸ hcount
  have hne : 1 ≠ newIndex (merged d o) := by
    refine ne_newIndex hcount' (.inr ?_)
    rw [merged, elements_modify_self, (mergeElement_keeps _ _).2.2]
    exact hdn.first hcount
  have hcs : ∀ c ∈ (o.elements 1).children, 1 < c ∧ c < o.elementCount ∧ Solid (treeOf o c) := by
    intro c hc
    have hlt := ho.lt_child hocount hc
    have hcc := (ho.child 1 hocount c hc).2.1
    exact ⟨hlt, hcc, hon.solid ho (by omega) hcc⟩
  obtain ⟨d', hok, hd', hp', htexts⟩ := prepend_all (hlinks.forest hd) hcount' hne ho.ordered hcs
  have hmerge : d.merge o = some d' := by
    rw [merge, if_neg]
    · exact hok
    · simp [htag]
      omega
  rw [texts_merged hd hcount] at htexts
  constructor
  · rintro ⟨d₁, us, ts, hok₁, hus, hts, hchildren⟩
    obtain rfl := Option.some.inj (hmerge.symm.trans hok₁)
    have heq := (printsChildren_iff hd' hp').mp hchildren
    rw [htexts, (printsChildren_iff hd hcount).mp hts,
      (printsChildren_iff ho hocount).mp hus] at heq
    exact (List.append_cancel_right heq).symm
  · intro h
    refine ⟨d', texts o 1, texts d 1, hmerge, (printsChildren_iff ho hocount).mpr rfl,
      (printsChildren_iff hd hcount).mpr rfl, (printsChildren_iff hd' hp').mpr ?_⟩
    rw [htexts, ← h]
    rfl

end Parsed

/-- **Copying between parsed texts**: `append` copies in document order unless the parent is the
last element and empty; `prepend` and `merge` mirror the order at every level, so that they copy in
document order only where that is printed the same. -/
theorem copies_iff {trimMode trimMode' : TrimMode} {text text' : QString} {st st' : State}
    (h : parse trimMode text = .ok st) (h' : parse trimMode' text' = .ok st')
    (hcount : 1 < st.doc.elementCount) (hcount' : 1 < st'.doc.elementCount)
    (hp : p < st.doc.elementCount) :
    (Appends st.doc st'.doc p ↔ ¬Vacant st.doc p) ∧
    (Prepends st.doc st'.doc p ↔ ¬Vacant st.doc p ∧
      (mirror (treeOf st'.doc 1)).toString = (treeOf st'.doc 1).toString) ∧
    ((st.doc.elements 1).tag = (st'.doc.elements 1).tag →
      (Merges st.doc st'.doc ↔ mergedTexts st'.doc = texts st'.doc 1)) := by
  have hd := (parse_built h).forest
  have ho := (parse_built h').forest
  have hon := (parse_grown h').named
  exact ⟨appends_iff hd hcount ho hon hcount' hp, prepends_iff hd hcount ho hon hcount' hp,
    merges_iff hd hcount (parse_grown h).named ho hon hcount'⟩

theorem copies_iff_link : ∃ st st', parse .trimOff (lit "<p></p>") = .ok st ∧
    parse .trimOff (lit "<p><a></a></p>") = .ok st' ∧
    (Appends st.doc st'.doc 1 ↔ ¬Vacant st.doc 1) ∧
    (Prepends st.doc st'.doc 1 ↔ ¬Vacant st.doc 1 ∧
      (mirror (treeOf st'.doc 1)).toString = (treeOf st'.doc 1).toString) ∧
    ((st.doc.elements 1).tag = (st'.doc.elements 1).tag →
      (Merges st.doc st'.doc ↔ mergedTexts st'.doc = texts st'.doc 1)) := by
  obtain ⟨st, h, -⟩ := parse_asserts_iff .trimOff (lit "<p></p>")
  obtain ⟨st', h', -⟩ := parse_asserts_iff .trimOff (lit "<p><a></a></p>")
  have hrun : (parse .trimOff (lit "<p></p>")).toOption.map (·.doc.elementCount) = some 3 := by
    decide
  have hrun' : (parse .trimOff (lit "<p><a></a></p>")).toOption.map (·.doc.elementCount) =
      some 4 := by
    decide
  rw [h, Except.toOption, Option.map_some, Option.some.injEq] at hrun
  rw [h', Except.toOption, Option.map_some, Option.some.injEq] at hrun'
  exact ⟨st, st', h, h', copies_iff h h' (by omega) (by omega) (by omega)⟩

/-- `<p></p>` and `<p><a></a><b></b></p>`: the order is reversed, and where the parent is the empty
element behind the closed one it comes below itself. -/
theorem copies_reversed : ∃ st st', parse .trimOff (lit "<p></p>") = .ok st ∧
    parse .trimOff (lit "<p><a></a><b></b></p>") = .ok st' ∧
    1 < st.doc.elementCount ∧ 1 < st'.doc.elementCount ∧ 2 < st.doc.elementCount ∧
    (st.doc.elements 1).tag = (st'.doc.elements 1).tag ∧
    ¬Appends st.doc st'.doc 2 ∧ ¬Prepends st.doc st'.doc 1 ∧ ¬Merges st.doc st'.doc := by
  obtain ⟨st, h, -⟩ := parse_asserts_iff .trimOff (lit "<p></p>")
  obtain ⟨st', h', -⟩ := parse_asserts_iff .trimOff (lit "<p><a></a><b></b></p>")
  have hrun : (parse .trimOff (lit "<p></p>")).toOption.map (fun st =>
      (st.doc.elementCount, st.doc.last.isEmpty, (st.doc.elements 1).tag)) =
        some (3, true, ['p']) := by
    decide
  have hrun' : (parse .trimOff (lit "<p><a></a><b></b></p>")).toOption.map (fun st =>
      (st.doc.elementCount, (st.doc.elements 1).tag,
        decide ((mirror (treeOf st.doc 1)).toString = (treeOf st.doc 1).toString),
        decide (mergedTexts st.doc = texts st.doc 1))) = some (5, ['p'], false, false) := by
    decide +kernel
  rw [h, Except.toOption, Option.map_some, Option.some.injEq, Prod.mk.injEq,
    Prod.mk.injEq] at hrun
  rw [h', Except.toOption, Option.map_some, Option.some.injEq, Prod.mk.injEq, Prod.mk.injEq,
    Prod.mk.injEq, decide_eq_false_iff_not, decide_eq_false_iff_not] at hrun'
  obtain ⟨hcount, hlast, htag⟩ := hrun
  obtain ⟨hcount', htag', hmirror, hmerged⟩ := hrun'
  have hd := (parse_built h).forest
  have ho := (parse_built h').forest
  have hon := (parse_grown h').named
  have hvacant : Vacant st.doc 2 := ⟨by rw [lastIndex, hcount], hlast⟩
  refine ⟨st, st', h, h', by omega, by omega, by omega, htag.trans htag'.symm, ?_, ?_, ?_⟩
  · rw [appends_iff hd (by omega) ho hon (by omega) (by omega)]
    exact not_not.mpr hvacant
  · rw [prepends_iff hd (by omega) ho hon (by omega) (by omega)]
    exact fun hboth => hmirror hboth.2
  · rw [merges_iff hd (by omega) (parse_grown h).named ho hon (by omega) (htag.trans htag'.symm)]
    exact hmerged

end TreeFrog.HtmlMerge
