import TreeFrog.HtmlForest

/-!
The trees in the element table, and their serialisation. What is printed of a table splits at each
element into the text before, the text of its tree and the text behind; a change at one element, or
below, keeps the two others.
-/

namespace TreeFrog.HtmlShown

open ErbParser HtmlElement THtmlParser HtmlForest

variable {d d' : THtmlParser} {i p c x n : ℕ}

/-! ### Trees -/

/-- An element with its descendants; the links of the element are not used. -/
inductive HTree where
  | node (e : THtmlElement) (children : List HTree)

mutual

def HTree.toString : HTree → QString
  | .node e children => e.toString ++ toStrings children ++ e.endTag

def toStrings : List HTree → QString
  | [] => []
  | t :: ts => t.toString ++ toStrings ts

end

lemma toStrings_eq (ts : List HTree) : toStrings ts = ts.flatMap HTree.toString := by
  induction ts with
  | nil => rfl
  | cons t ts ih => rw [toStrings, ih, List.flatMap_cons]

def tree (d : THtmlParser) : ℕ → ℕ → HTree
  | 0, _ => .node {} []
  | fuel + 1, i => .node (relink (d.elements i) 0 []) ((d.elements i).children.map (tree d fuel))

def treeOf (d : THtmlParser) (i : ℕ) : HTree := tree d d.elementCount i

lemma tree_succ (hd : Ordered d) {fuel : ℕ} (hi : i < d.elementCount)
    (hfuel : d.elementCount ≤ i + fuel) : tree d (fuel + 1) i = tree d fuel i := by
  induction fuel generalizing i with
  | zero => omega
  | succ fuel ih =>
    rw [tree, tree]
    congr 1
    refine List.map_congr_left fun c hc => ?_
    obtain ⟨hlt, hcount⟩ := hd i hi c hc
    exact ih hcount (by omega)

lemma treeOf_eq (hd : Ordered d) (hi : i < d.elementCount) : treeOf d i =
    .node (relink (d.elements i) 0 []) ((d.elements i).children.map (treeOf d)) := by
  rw [treeOf, ← tree_succ hd hi (Nat.le_add_left ..), tree]
  rfl

/-! ### What is printed -/

def shown (d : THtmlParser) (i : ℕ) : QString := (treeOf d i).toString

lemma shown_eq (hd : Ordered d) (hi : i < d.elementCount) : shown d i =
    (d.elements i).toString ++ (d.elements i).children.flatMap (shown d) ++
      (d.elements i).endTag := by
  rw [shown, treeOf_eq hd hi, HTree.toString, toStrings_eq, List.flatMap_map]
  rfl

lemma elementsToString_eq (hd : Ordered d) {fuel : ℕ} (hi : i < d.elementCount)
    (hfuel : d.elementCount ≤ i + fuel) : elementsToString fuel d i = some (shown d i) := by
  induction fuel generalizing i with
  | zero => omega
  | succ fuel ih =>
    have hchildren : (d.elements i).children.mapM (elementsToString fuel d) =
        some ((d.elements i).children.map (shown d)) := by
      have hall := hd i hi
      generalize (d.elements i).children = children at hall
      induction children with
      | nil => rfl
      | cons c children ihc =>
        obtain ⟨hlt, hc⟩ := hall c List.mem_cons_self
        rw [List.mapM_cons, ih hc (by omega),
          ihc fun c' hc' => hall c' (List.mem_cons_of_mem _ hc')]
        rfl
    rw [elementsToString, hchildren, Option.map_some, shown_eq hd hi, List.flatMap_def]

/-- **`toString` ends**, with the text of the tree of the root. -/
theorem toString_eq (hd : Forest d) : d.toString = some (shown d 0) :=
  elementsToString_eq hd.ordered hd.pos (Nat.le_add_left ..)

/-! ### Descendants -/

/-- `i` is `c` or one of its descendants. -/
inductive Below (d : THtmlParser) (c : ℕ) : ℕ → Prop where
  | refl : Below d c c
  | step {i : ℕ} (hpos : 0 < i) (h : Below d c (d.elements i).parent) : Below d c i

namespace Below

lemma le (h : Below d c i) (hd : Forest d) (hi : i < d.elementCount) : c ≤ i := by
  induction h with
  | refl => exact le_rfl
  | step hpos _ ih =>
    have hlt := hd.parent_lt _ hpos hi
    exact (ih (hlt.trans hi)).trans hlt.le

lemma parent (h : Below d c i) (hpos : 0 < c) : Below d (d.elements c).parent i := by
  induction h with
  | refl => exact .step hpos .refl
  | step hpos' _ ih => exact .step hpos' ih

lemma total (h₁ : Below d c i) (h₂ : Below d x i) : Below d c x ∨ Below d x c := by
  induction h₁ with
  | refl => exact .inr h₂
  | step hpos h₁ ih =>
    cases h₂ with
    | refl => exact .inl (.step hpos h₁)
    | step _ h₂ => exact ih h₂

lemma sibling (hd : Forest d) (hp : p < d.elementCount) (hc : c ∈ (d.elements p).children)
    (hx : x ∈ (d.elements p).children) (hne : c ≠ x) (h : Below d x i) : ¬Below d c i := by
  have hnot {a b : ℕ} (ha : a ∈ (d.elements p).children) (hb : b ∈ (d.elements p).children)
      (hab : a ≠ b) : ¬Below d a b := by
    obtain ⟨hpos, hlt, hparent⟩ := hd.child p hp b hb
    rintro (_ | ⟨_, hbelow⟩)
    · exact hab rfl
    · rw [hparent] at hbelow
      have h₁ := hbelow.le hd hp
      have h₂ := hd.lt_child hp ha
      omega
  intro h'
  rcases total h' h with hcx | hxc
  · exact hnot hc hx hne hcx
  · exact hnot hx hc hne.symm hxc

end Below

/-! ### The text around an element -/

/-- What is printed before the element. -/
def before (d : THtmlParser) (x : ℕ) : QString :=
  if (d.elements x).parent < x then
    before d (d.elements x).parent ++ (d.elements (d.elements x).parent).toString ++
      ((d.elements (d.elements x).parent).children.takeWhile (· ≠ x)).flatMap (shown d)
  else []
termination_by x

/-- What is printed behind its tree. -/
def behind (d : THtmlParser) (x : ℕ) : QString :=
  if (d.elements x).parent < x then
    (((d.elements (d.elements x).parent).children.dropWhile (· ≠ x)).drop 1).flatMap (shown d) ++
      (d.elements (d.elements x).parent).endTag ++ behind d (d.elements x).parent
  else []
termination_by x

lemma before_zero (hd : Forest d) : before d 0 = [] := by
  rw [before, if_neg (by rw [hd.root]; exact lt_irrefl 0)]

lemma behind_zero (hd : Forest d) : behind d 0 = [] := by
  rw [behind, if_neg (by rw [hd.root]; exact lt_irrefl 0)]

lemma before_child (h : (d.elements x).parent = p) (hlt : p < x) : before d x =
    before d p ++ (d.elements p).toString ++
      ((d.elements p).children.takeWhile (· ≠ x)).flatMap (shown d) := by
  subst h
  rw [before, if_pos hlt]

lemma behind_child (h : (d.elements x).parent = p) (hlt : p < x) : behind d x =
    (((d.elements p).children.dropWhile (· ≠ x)).drop 1).flatMap (shown d) ++
      (d.elements p).endTag ++ behind d p := by
  subst h
  rw [behind, if_pos hlt]

lemma children_split {l : List ℕ} (h : x ∈ l) :
    l.takeWhile (· ≠ x) ++ x :: (l.dropWhile (· ≠ x)).drop 1 = l := by
  obtain ⟨a, b, rfl, hx⟩ := List.eq_append_cons_of_mem h
  have hall : ∀ c ∈ a, decide (c ≠ x) = true := fun c hc => decide_eq_true fun h => hx (h ▸ hc)
  rw [List.takeWhile_append_of_pos hall, List.dropWhile_append_of_pos hall]
  simp

/-- **Each element is printed once**, between the text before it and the text behind it. -/
theorem shown_split (hd : Forest d) (hl : Linked d) (hx : x < d.elementCount) :
    shown d 0 = before d x ++ shown d x ++ behind d x := by
  induction x using Nat.strong_induction_on with
  | _ x ih =>
    rcases Nat.eq_zero_or_pos x with rfl | hpos
    · rw [before_zero hd, behind_zero hd]
      simp
    · have hlt := hd.parent_lt x hpos hx
      have hp := hlt.trans hx
      have hsplit := children_split (hl x hpos hx)
      rw [ih _ hlt hp, before_child rfl hlt, behind_child rfl hlt, shown_eq hd.ordered hp]
      conv_lhs => rw [← hsplit]
      simp only [List.flatMap_append, List.flatMap_cons, List.append_assoc]

/-! ### Changes at one element -/

/-- The table `d'` differs from `d` at the element `x` and below, and in that the child `n`, for
which nothing is printed, is no longer listed. -/
structure Outside (d d' : THtmlParser) (x n : ℕ) : Prop where
  blank : ∀ i < d.elementCount, n ∈ (d.elements i).children → shown d n = []
  count_le : ∀ i < d.elementCount, i ≠ n → i < d'.elementCount
  parent_eq : (d'.elements x).parent = (d.elements x).parent
  old : ∀ i < d.elementCount, i ≠ n → i ≠ x → d'.elements i =
    relink (d.elements i) (d.elements i).parent ((d.elements i).children.erase n)

lemma flatMap_erase {f : ℕ → QString} {l : List ℕ} (h : n ∈ l → f n = []) :
    (l.erase n).flatMap f = l.flatMap f := by
  by_cases hn : n ∈ l
  · obtain ⟨a, b, rfl, ha⟩ := List.eq_append_cons_of_mem hn
    rw [List.erase_append_right _ ha, List.erase_cons_head, List.flatMap_append,
      List.flatMap_append, List.flatMap_cons, h hn, List.nil_append]
  · rw [List.erase_of_not_mem hn]

lemma Outside.shown_eq (h : Outside d d' x n) (hd : Forest d) (hd' : Forest d')
    (hi : i < d.elementCount) (hin : i ≠ n) (hx : ¬Below d i x) : shown d' i = shown d i := by
  induction hn : d.elementCount - i using Nat.strong_induction_on generalizing i with
  | _ m ih =>
    subst hn
    have hix : i ≠ x := by
      rintro rfl
      exact hx .refl
    have hold := h.old i hi hin hix
    rw [HtmlShown.shown_eq hd.ordered hi, HtmlShown.shown_eq hd'.ordered (h.count_le i hi hin),
      hold]
    have hchildren : ((d.elements i).children.erase n).flatMap (shown d') =
        (d.elements i).children.flatMap (shown d) := by
      rw [← flatMap_erase (h.blank i hi)]
      refine List.flatMap_congr fun c hc => ?_
      obtain ⟨hcn, hmem⟩ := (hd.nodup i hi).mem_erase_iff.mp hc
      obtain ⟨hpos, hlt, hparent⟩ := hd.child i hi c hmem
      have hic := hd.lt_child hi hmem
      refine ih _ (by omega) hlt hcn (fun hbelow => hx ?_) rfl
      exact hparent ▸ hbelow.parent hpos
    exact congrArg₂ _ (congrArg₂ _ rfl hchildren) rfl

lemma Outside.shown_child (h : Outside d d' p n) (hd : Forest d) (hd' : Forest d')
    (hp : p < d.elementCount) (hc : c ∈ (d.elements p).children) (hcn : c ≠ n) :
    shown d' c = shown d c := by
  have hlt := hd.lt_child hp hc
  exact h.shown_eq hd hd' (hd.child p hp c hc).2.1 hcn fun hbelow =>
    absurd (hbelow.le hd hp) (by omega)

lemma flatMap_takeWhile_erase {f : ℕ → QString} {l : List ℕ} (hnx : n ≠ x) (h : n ∈ l → f n = []) :
    ((l.erase n).takeWhile (· ≠ x)).flatMap f = (l.takeWhile (· ≠ x)).flatMap f := by
  by_cases hn : n ∈ l
  · obtain ⟨a, b, rfl, ha⟩ := List.eq_append_cons_of_mem hn
    rw [List.erase_append_right _ ha, List.erase_cons_head, List.takeWhile_append,
      List.takeWhile_append, List.takeWhile_cons_of_pos (by simpa using hnx)]
    split_ifs <;> simp [h hn]
  · rw [List.erase_of_not_mem hn]

lemma flatMap_dropWhile_erase {f : ℕ → QString} {l : List ℕ} (hnx : n ≠ x) (h : n ∈ l → f n = []) :
    (((l.erase n).dropWhile (· ≠ x)).drop 1).flatMap f =
      ((l.dropWhile (· ≠ x)).drop 1).flatMap f := by
  by_cases hn : n ∈ l
  · obtain ⟨a, b, rfl, ha⟩ := List.eq_append_cons_of_mem hn
    rw [List.erase_append_right _ ha, List.erase_cons_head, List.dropWhile_append,
      List.dropWhile_append, List.dropWhile_cons_of_pos (by simpa using hnx)]
    split_ifs with hempty
    · rfl
    · obtain ⟨c, u, hu⟩ := List.exists_cons_of_ne_nil fun hnil => hempty (List.isEmpty_iff.mpr hnil)
      rw [hu]
      simp [h hn]
  · rw [List.erase_of_not_mem hn]

lemma Outside.around_eq (h : Outside d d' x n) (hd : Forest d) (hd' : Forest d') (hl : Linked d)
    (hx : x < d.elementCount) (hn : ¬Below d n x) {y : ℕ} (hy : Below d y x) :
    before d' y = before d y ∧ behind d' y = behind d y := by
  induction y using Nat.strong_induction_on with
  | _ y ih =>
    rcases Nat.eq_zero_or_pos y with rfl | hpos
    · exact ⟨by rw [before_zero hd, before_zero hd'], by rw [behind_zero hd, behind_zero hd']⟩
    have hyx := hy.le hd hx
    have hyc : y < d.elementCount := by omega
    -- neither `y` nor its parent is the new element
    have hyn : n ≠ y := by
      rintro rfl
      exact hn hy
    set p := (d.elements y).parent with hp
    have hpy : p < y := hd.parent_lt y hpos hyc
    have hpx : Below d p x := hy.parent hpos
    have hpn : p ≠ n := by
      intro hpn
      exact hn (hpn ▸ hpx)
    have hmem : y ∈ (d.elements p).children := hl y hpos hyc
    have hpc : p < d.elementCount := by omega
    have hold := h.old p hpc hpn (by omega)
    have hparent : (d'.elements y).parent = p := by
      by_cases hyx' : y = x
      · rw [hyx', h.parent_eq, hp, hyx']
      · rw [h.old y hyc hyn.symm hyx']
        rfl
    -- the other children of the parent have nothing to do with `x`
    have hsibling : ∀ c ∈ (d.elements p).children.erase n, c ≠ y → shown d' c = shown d c := by
      intro c hc hcy
      obtain ⟨hcn, hcmem⟩ := (hd.nodup p hpc).mem_erase_iff.mp hc
      exact h.shown_eq hd hd' (hd.child p hpc c hcmem).2.1 hcn
        (Below.sibling hd hpc hcmem hmem hcy hy)
    obtain ⟨hbefore, hbehind⟩ := ih p hpy hpx
    rw [before_child hparent hpy, behind_child hparent hpy, before_child hp.symm hpy,
      behind_child hp.symm hpy, hbefore, hbehind, hold]
    refine ⟨congrArg₂ _ rfl ?_, congrArg₂ _ (congrArg₂ _ ?_ rfl) rfl⟩
    · rw [← flatMap_takeWhile_erase hyn (h.blank p hpc)]
      refine List.flatMap_congr fun c hc => ?_
      have hne := List.mem_takeWhile_imp hc
      exact hsibling c (List.takeWhile_subset _ hc) (by simpa using hne)
    · rw [← flatMap_dropWhile_erase hyn (h.blank p hpc)]
      refine List.flatMap_congr fun c hc => ?_
      have hsplit := children_split ((List.mem_erase_of_ne hyn.symm).mpr hmem)
      have hnodup := (hd.nodup p hpc).erase n
      rw [← hsplit, List.nodup_middle, List.nodup_cons, List.mem_append] at hnodup
      refine hsibling c ?_ ?_
      · exact List.dropWhile_subset _ (List.drop_subset _ _ hc)
      · rintro rfl
        exact hnodup.1 (.inr hc)

/-! ### The operations -/

lemma Outside.modify (hd : Forest d) (x : ℕ) {f : THtmlElement → THtmlElement}
    (hparent : ∀ e, (f e).parent = e.parent) : Outside d (d.modify x f) x d.elementCount where
  blank i hi hmem := absurd (hd.child i hi _ hmem).2.1 (lt_irrefl _)
  count_le i hi _ := hi
  parent_eq := by rw [elements_modify_self, hparent]
  old i hi _ hix := by
    rw [elements_modify_ne _ hix,
      List.erase_of_not_mem fun hmem => absurd (hd.child i hi _ hmem).2.1 (lt_irrefl _)]
    rfl

lemma not_below_count (hd : Forest d) (hx : x < d.elementCount) :
    ¬Below d d.elementCount x := fun h => absurd (h.le hd hx) (by omega)

/-- **An element gets another content**: nothing else changes in what is printed. -/
theorem shown_modify (hd : Forest d) (hl : Linked d) (hx : x < d.elementCount)
    {f : THtmlElement → THtmlElement} (hparent : ∀ e, (f e).parent = e.parent)
    (hchildren : ∀ e, (f e).children = e.children) : shown (d.modify x f) 0 =
      before d x ++ ((f (d.elements x)).toString ++ (d.elements x).children.flatMap (shown d) ++
        (f (d.elements x)).endTag) ++ behind d x := by
  have hd' : Forest (d.modify x f) :=
    (SubLinks.modify d x hparent fun e => (hchildren e).symm ▸ .refl _).forest hd
  have hout := Outside.modify hd x hparent
  obtain ⟨hbefore, hbehind⟩ := hout.around_eq hd hd' hl hx (not_below_count hd hx) .refl
  have hsub : ∀ c ∈ (d.elements x).children, shown (d.modify x f) c = shown d c := fun c hc =>
    hout.shown_child hd hd' hx hc (hd.child x hx c hc).2.1.ne
  rw [shown_split hd' (hl.modify x hparent hchildren) hx, hbefore, hbehind, shown_eq hd'.ordered hx,
    elements_modify_self, hchildren, List.flatMap_congr hsub]

lemma shown_last (hd : Forest d) (h : Reuses d) : shown d d.lastIndex = [] := by
  have hempty := h.2
  simp only [THtmlElement.isEmpty, Bool.and_eq_true, List.isEmpty_iff] at hempty
  obtain ⟨⟨htag, htext⟩, -⟩ := hempty
  rw [THtmlParser.last] at htag htext
  rw [shown_eq hd.ordered hd.lastIndex_lt, hd.children_last]
  simp [THtmlElement.toString, THtmlElement.endTag, htag, htext]

lemma blank_newIndex (hd : Forest d) (hi : i < d.elementCount)
    (h : newIndex d ∈ (d.elements i).children) : shown d (newIndex d) = [] := by
  have hlt := (hd.child i hi _ h).2.1
  rw [newIndex] at hlt ⊢
  split_ifs at hlt ⊢ with hre
  · exact shown_last hd hre
  · exact absurd hlt (lt_irrefl _)

lemma flatMap_kept (hd : Forest d) (hi : i < d.elementCount) :
    (kept d i).flatMap (shown d) = (d.elements i).children.flatMap (shown d) :=
  flatMap_erase (blank_newIndex hd hi)

variable {index : ℤ} {e : THtmlElement}

lemma Outside.inserted (h : Inserted d d' p index e) (hd : Forest d) (hp : p < d.elementCount)
    (hne : p ≠ newIndex d) : Outside d d' p (newIndex d) where
  blank i hi := blank_newIndex hd hi
  count_le i hi hin := by
    have := lt_newIndex hd hi hin
    have := h.count_eq
    omega
  parent_eq := h.parent_old (lt_newIndex hd hp hne)
  old i hi hin hip := by
    rw [h.old i (lt_newIndex hd hi hin), if_neg hip]
    rfl

lemma not_below_newIndex (hd : Forest d) (hp : p < d.elementCount) (hne : p ≠ newIndex d) :
    ¬Below d (newIndex d) p := fun h =>
  absurd (h.le hd hp) (not_le.mpr (lt_newIndex hd hp hne))

lemma shown_inserted (h : Inserted d d' p index e) (hd' : Forest d') :
    shown d' (newIndex d) = e.toString ++ e.endTag := by
  have hcount := h.count_eq
  rw [shown_eq hd'.ordered (by omega), h.new]
  simp [relink, THtmlElement.toString, THtmlElement.attributesString, THtmlElement.endTag]

lemma shown_kept (h : Inserted d d' p index e) (hd : Forest d) (hp : p < d.elementCount)
    (hne : p ≠ newIndex d) (hc : c ∈ kept d p) : shown d' c = shown d c := by
  obtain ⟨hcn, hmem⟩ := (mem_kept hd hp).mp hc
  exact (Outside.inserted h hd hp hne).shown_child hd (h.forest hd hp hne) hp hmem hcn

/-- **A new element** is printed between the children at its place; nothing else changes in what
is printed. -/
theorem shown_insert (h : Inserted d d' p index e) (hd : Forest d) (hl : Linked d)
    (hp : p < d.elementCount) (hne : p ≠ newIndex d) {a b : List ℕ} (hkept : kept d p = a ++ b)
    (hplace : place (kept d p) index (newIndex d) = a ++ newIndex d :: b) : shown d' 0 =
      before d p ++ ((d.elements p).toString ++ a.flatMap (shown d) ++ (e.toString ++ e.endTag) ++
        b.flatMap (shown d) ++ (d.elements p).endTag) ++ behind d p := by
  have hd' := h.forest hd hp hne
  have hpn := lt_newIndex hd hp hne
  have hcount := h.count_eq
  have hout := Outside.inserted h hd hp hne
  obtain ⟨hbefore, hbehind⟩ := hout.around_eq hd hd' hl hp (not_below_newIndex hd hp hne) .refl
  have hsub : ∀ c ∈ a ++ b, shown d' c = shown d c := fun c hc =>
    shown_kept h hd hp hne (hkept ▸ hc)
  have ha := List.flatMap_congr fun c hc => hsub c (List.mem_append_left b hc)
  have hb := List.flatMap_congr fun c hc => hsub c (List.mem_append_right a hc)
  have hp' : p < d'.elementCount := by omega
  rw [shown_split hd' (h.linked hd hl hp hne) hp', hbefore, hbehind, shown_eq hd'.ordered hp',
    h.old p hpn, if_pos rfl, hplace]
  simp only [relink, List.flatMap_append, List.flatMap_cons, shown_inserted h hd', ha, hb,
    List.append_assoc]
  rfl

/-! ### A new element beside another -/

section Beside

variable (h : Inserted d d' p index e) (hd : Forest d) (hl : Linked d) (hp : p < d.elementCount)
  (hne : p ≠ newIndex d) {a b : List ℕ} (hkept : kept d p = a ++ x :: b)

include h hd hl hp hne hkept

lemma around_child : (d'.elements x).parent = p ∧ p < x ∧ x ∉ a ∧ x ≠ newIndex d ∧
    before d x = before d' p ++ (d'.elements p).toString ++ a.flatMap (shown d') ∧
    behind d x = b.flatMap (shown d') ++ (d'.elements p).endTag ++ behind d' p := by
  have hd' := h.forest hd hp hne
  have hmem : x ∈ kept d p := by rw [hkept]; simp
  obtain ⟨hxn, hchild⟩ := (mem_kept hd hp).mp hmem
  obtain ⟨-, hx, hparent⟩ := hd.child p hp x hchild
  have hlt := hd.lt_child hp hchild
  have hnodup : (kept d p).Nodup := (hd.nodup p hp).erase _
  rw [hkept, List.nodup_middle, List.nodup_cons, List.mem_append, not_or] at hnodup
  have hall : ∀ c ∈ a, decide (c ≠ x) = true := fun c hc =>
    decide_eq_true fun heq => hnodup.1.1 (heq ▸ hc)
  have hold := h.old p (lt_newIndex hd hp hne)
  have hstring : (d'.elements p).toString = (d.elements p).toString := by rw [hold]; rfl
  have hend : (d'.elements p).endTag = (d.elements p).endTag := by rw [hold]; rfl
  have hout := Outside.inserted h hd hp hne
  obtain ⟨hbefore, hbehind⟩ := hout.around_eq hd hd' hl hp (not_below_newIndex hd hp hne) .refl
  have hblank := blank_newIndex hd hp
  have hfront : ((d.elements p).children.takeWhile (· ≠ x)).flatMap (shown d) =
      a.flatMap (shown d') := by
    rw [← flatMap_takeWhile_erase hxn.symm hblank, ← kept, hkept,
      List.takeWhile_append_of_pos hall, List.takeWhile_cons_of_neg (by simp), List.append_nil]
    exact List.flatMap_congr fun c hc => (shown_kept h hd hp hne (by rw [hkept]; simp [hc])).symm
  have hback : (((d.elements p).children.dropWhile (· ≠ x)).drop 1).flatMap (shown d) =
      b.flatMap (shown d') := by
    rw [← flatMap_dropWhile_erase hxn.symm hblank, ← kept, hkept,
      List.dropWhile_append_of_pos hall, List.dropWhile_cons_of_neg (by simp), List.drop_one,
      List.tail_cons]
    exact List.flatMap_congr fun c hc => (shown_kept h hd hp hne (by rw [hkept]; simp [hc])).symm
  refine ⟨?_, hlt, hnodup.1.1, hxn, ?_, ?_⟩
  · rw [h.parent_old (lt_newIndex hd hx hxn), hparent]
  · rw [before_child hparent hlt, hbefore, hstring, hfront]
  · rw [behind_child hparent hlt, hbehind, hend, hback]

/-- **A new element in front of another.** -/
theorem insert_before (hplace : place (kept d p) index (newIndex d) = a ++ newIndex d :: x :: b) :
    before d' x = before d x ++ (e.toString ++ e.endTag) ∧ shown d' x = shown d x ∧
      behind d' x = behind d x := by
  have hd' := h.forest hd hp hne
  obtain ⟨hparent, hlt, hxa, hxn, hbefore, hbehind⟩ := around_child h hd hl hp hne hkept
  have hall : ∀ c ∈ a ++ [newIndex d], decide (c ≠ x) = true := by
    intro c hc
    rw [decide_eq_true_eq]
    rintro rfl
    rcases List.mem_append.mp hc with hc | hc
    · exact hxa hc
    · exact hxn (List.mem_singleton.mp hc)
  have hchildren : (d'.elements p).children = (a ++ [newIndex d]) ++ x :: b := by
    rw [h.children_old (lt_newIndex hd hp hne), if_pos rfl, hplace]
    simp
  refine ⟨?_, shown_kept h hd hp hne (by rw [hkept]; simp), ?_⟩
  · rw [before_child hparent hlt, hbefore, hchildren, List.takeWhile_append_of_pos hall,
      List.takeWhile_cons_of_neg (by simp)]
    simp [shown_inserted h hd']
  · rw [behind_child hparent hlt, hbehind, hchildren, List.dropWhile_append_of_pos hall,
      List.dropWhile_cons_of_neg (by simp)]
    rfl

/-- **A new element behind another.** -/
theorem insert_behind (hplace : place (kept d p) index (newIndex d) = a ++ x :: newIndex d :: b) :
    before d' x = before d x ∧ shown d' x = shown d x ∧
      behind d' x = (e.toString ++ e.endTag) ++ behind d x := by
  have hd' := h.forest hd hp hne
  obtain ⟨hparent, hlt, hxa, hxn, hbefore, hbehind⟩ := around_child h hd hl hp hne hkept
  have hall : ∀ c ∈ a, decide (c ≠ x) = true := fun c hc =>
    decide_eq_true fun heq => hxa (heq ▸ hc)
  have hchildren : (d'.elements p).children = a ++ x :: newIndex d :: b := by
    rw [h.children_old (lt_newIndex hd hp hne), if_pos rfl, hplace]
  refine ⟨?_, shown_kept h hd hp hne (by rw [hkept]; simp), ?_⟩
  · rw [before_child hparent hlt, hbefore, hchildren, List.takeWhile_append_of_pos hall,
      List.takeWhile_cons_of_neg (by simp), List.append_nil]
  · rw [behind_child hparent hlt, hbehind, hchildren, List.dropWhile_append_of_pos hall,
      List.dropWhile_cons_of_neg (by simp)]
    simp [shown_inserted h hd']

end Beside

end TreeFrog.HtmlShown
