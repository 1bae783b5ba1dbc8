import TreeFrog.HtmlParser
import TreeFrog.HtmlShown

/-!
Copying elements into another table. A copy is made element by element, each at the end or at the
front of the children of its parent; in the second case the children come out in reverse order, at
every level.
-/

namespace TreeFrog.HtmlCopy

open ErbParser hiding parse
open HtmlElement THtmlParser HtmlForest HtmlScan HtmlParser HtmlShown

variable {d d' o : THtmlParser} {i p c : ℕ} {index : ℤ} {s : QString}

/-! ### Trees -/

mutual

/-- The tree with the children in reverse order, at every level. -/
def mirror : HTree → HTree
  | .node e children => .node e (mirrors children)

def mirrors : List HTree → List HTree
  | [] => []
  | t :: ts => mirrors ts ++ [mirror t]

end

mutual

/-- No empty element has children. -/
def Solid : HTree → Prop
  | .node e children => (e.isEmpty → children = []) ∧ Solids children

def Solids : List HTree → Prop
  | [] => True
  | t :: ts => Solid t ∧ Solids ts

end

lemma solids_iff {ts : List HTree} : Solids ts ↔ ∀ t ∈ ts, Solid t := by
  induction ts with
  | nil => simp [Solids]
  | cons t ts ih => rw [Solids, ih, List.forall_mem_cons]

/-- What becomes of a tree that is copied to the `index` among the children. -/
def copied (index : ℤ) (t : HTree) : HTree := if index = 0 then mirror t else t

/-- What is printed of children that are copied one after the other, in front of or behind `acc`. -/
def joined (index : ℤ) : QString → List HTree → QString
  | acc, [] => acc
  | acc, t :: ts =>
    joined index (if index = 0 then (copied index t).toString ++ acc
      else acc ++ (copied index t).toString) ts

lemma toStrings_append (ts us : List HTree) :
    toStrings (ts ++ us) = toStrings ts ++ toStrings us := by
  simp only [toStrings_eq, List.flatMap_append]

lemma joined_eq (acc : QString) (ts : List HTree) : joined index acc ts =
    if index = 0 then toStrings (mirrors ts) ++ acc else acc ++ toStrings ts := by
  induction ts generalizing acc with
  | nil => simp [joined, mirrors, toStrings]
  | cons t ts ih =>
    rw [joined, ih, mirrors, copied]
    split_ifs
    · simp [toStrings_append, toStrings]
    · simp [toStrings]

lemma copied_toString (e : THtmlElement) (ts : List HTree) : (copied index (.node e ts)).toString =
    e.toString ++ joined index [] ts ++ e.endTag := by
  rw [copied, joined_eq]
  split_ifs
  · rw [mirror, HTree.toString, List.append_nil]
  · rw [HTree.toString, List.nil_append]

/-! ### Parts of a table -/

lemma mid_end (h : (o.elements c).children = []) : o.mid c =
    { elementCount := 2
      elements := Function.update (Function.update (fun _ => {}) 0 { children := [1] }) 1
        { o.elements c with parent := 0 } } := by
  rw [mid, THtmlElement.isEndElement, h]
  rfl

lemma mid_inner (h : (o.elements c).children ≠ []) : (o.mid c).elementCount =
      o.elementCount - c + 1 ∧ (o.mid c).elements 0 = { children := [1] } ∧
    ∀ i, 0 < i → ((o.mid c).elements i).children =
        (o.elements (c + (i - 1))).children.map (· - (c - 1)) ∧
      relink ((o.mid c).elements i) 0 [] = relink (o.elements (c + (i - 1))) 0 [] := by
  rw [mid, THtmlElement.isEndElement, List.isEmpty_eq_false_iff.mpr h]
  refine ⟨rfl, rfl, fun i hi => ?_⟩
  simp only [Bool.false_eq_true, if_false, if_neg hi.ne']
  exact ⟨trivial, rfl⟩

lemma mid_inner_ordered (ho : Ordered o) (hc : 1 < c) (hlt : c < o.elementCount)
    (h : (o.elements c).children ≠ []) : Ordered (o.mid c) := by
  obtain ⟨hcount, hroot, hinner⟩ := mid_inner h
  intro i hi x hx
  rw [hcount] at hi ⊢
  rcases Nat.eq_zero_or_pos i with rfl | hpos
  · rw [hroot] at hx
    obtain rfl := List.mem_singleton.mp hx
    omega
  · rw [(hinner i hpos).1] at hx
    obtain ⟨y, hy, rfl⟩ := List.mem_map.mp hx
    have hlt := ho (c + (i - 1)) (by omega) y hy
    omega

lemma mid_inner_tree (ho : Ordered o) (hc : 1 < c) (hlt : c < o.elementCount)
    (h : (o.elements c).children ≠ []) (hi : 0 < i) (hic : c + (i - 1) < o.elementCount) :
    treeOf (o.mid c) i = treeOf o (c + (i - 1)) := by
  have hord := mid_inner_ordered ho hc hlt h
  obtain ⟨hcount, -, hinner⟩ := mid_inner h
  induction hn : o.elementCount - (c + (i - 1)) using Nat.strong_induction_on generalizing i with
  | _ n ih =>
    subst hn
    obtain ⟨hchildren, hrelink⟩ := hinner i hi
    rw [treeOf_eq hord (by omega), treeOf_eq ho hic, hrelink, hchildren, List.map_map]
    congr 1
    refine List.map_congr_left fun x hx => ?_
    have hx' := ho _ hic x hx
    have hback : c + (x - (c - 1) - 1) = x := by omega
    have hsub := ih _ (by omega) (i := x - (c - 1)) (by omega) (by omega) rfl
    rw [hback] at hsub
    exact hsub

lemma mid_spec (ho : Ordered o) (hc : 1 < c) (hlt : c < o.elementCount) :
    Ordered (o.mid c) ∧ 1 < (o.mid c).elementCount ∧ (o.mid c).elementCount < o.elementCount ∧
      treeOf (o.mid c) 1 = treeOf o c := by
  by_cases h : (o.elements c).children = []
  · have hord : Ordered (o.mid c) := by
      rw [mid_end h]
      intro i hi x hx
      have hi' : i = 0 ∨ i = 1 := by
        change i < 2 at hi
        omega
      rcases hi' with rfl | rfl
      · obtain rfl : x = 1 := by simpa using hx
        exact ⟨Nat.one_pos, Nat.lt_succ_self 1⟩
      · simp [h] at hx
    have hone : 1 < (o.mid c).elementCount := by
      rw [mid_end h]
      exact Nat.lt_succ_self 1
    refine ⟨hord, hone, ?_, ?_⟩
    · rw [mid_end h]
      change 2 < o.elementCount
      omega
    · rw [treeOf_eq hord hone, treeOf_eq ho hlt, mid_end h]
      simp [h, relink]
  · have hcount := (mid_inner h).1
    refine ⟨mid_inner_ordered ho hc hlt h, by omega, by omega, ?_⟩
    exact mid_inner_tree ho hc hlt h Nat.one_pos (by omega)

/-! ### One copy -/

/-- The table `d'` is `d` with a tree at the `index` among the children of `p`, of which `s` is
printed. -/
structure Attached (d d' : THtmlParser) (p : ℕ) (index : ℤ) (s : QString) : Prop where
  forest : Forest d'
  new_lt : newIndex d < d'.elementCount
  old : ∀ i < newIndex d, d'.elements i = relink (d.elements i) (d.elements i).parent
    (if i = p then place (kept d i) index (newIndex d) else kept d i)
  shown_new : shown d' (newIndex d) = s

/-- What is copied to begin with. -/
structure Copying (d d' : THtmlParser) (p : ℕ) (index : ℤ) (e : THtmlElement) (acc : QString) :
    Prop where
  forest : Forest d'
  new_lt : newIndex d < d'.elementCount
  old : ∀ i < newIndex d, d'.elements i = relink (d.elements i) (d.elements i).parent
    (if i = p then place (kept d i) index (newIndex d) else kept d i)
  content : relink (d'.elements (newIndex d)) 0 [] = relink e 0 []
  shown_children : (d'.elements (newIndex d)).children.flatMap (shown d') = acc

variable {d₁ d₂ : THtmlParser} {e : THtmlElement} {acc : QString}

lemma content_eq {e' : THtmlElement} (h : relink e' 0 [] = relink e 0 []) :
    e'.toString = e.toString ∧ e'.endTag = e.endTag := by
  have h₁ : (relink e' 0 []).toString = (relink e 0 []).toString := by rw [h]
  have h₂ : (relink e' 0 []).endTag = (relink e 0 []).endTag := by rw [h]
  exact ⟨h₁, h₂⟩

lemma Copying.attached (h : Copying d d' p index e acc) :
    Attached d d' p index (e.toString ++ acc ++ e.endTag) where
  forest := h.forest
  new_lt := h.new_lt
  old := h.old
  shown_new := by
    obtain ⟨hstring, hend⟩ := content_eq h.content
    rw [shown_eq h.forest.ordered h.new_lt, h.shown_children, hstring, hend]

lemma Inserted.copying (h : Inserted d d' p index e) (hd : Forest d) (hp : p < d.elementCount)
    (hne : p ≠ newIndex d) : Copying d d' p index e [] where
  forest := h.forest hd hp hne
  new_lt := by rw [h.count_eq]; exact Nat.lt_succ_self _
  old := h.old
  content := by rw [h.new]; rfl
  shown_children := by rw [h.new]; rfl

lemma Outside.attached (h : Attached d d' p index s) (hd : Forest d) (hp : p < d.elementCount)
    (hne : p ≠ newIndex d) : Outside d d' p (newIndex d) where
  blank i hi := blank_newIndex hd hi
  count_le i hi hin := (lt_newIndex hd hi hin).trans h.new_lt
  parent_eq := by rw [h.old p (lt_newIndex hd hp hne)]; rfl
  old i hi hin hip := by
    rw [h.old i (lt_newIndex hd hi hin), if_neg hip]
    rfl

lemma Attached.shown_kept (h : Attached d d' p index s) (hd : Forest d) (hp : p < d.elementCount)
    (hne : p ≠ newIndex d) (hc : c ∈ kept d p) : shown d' c = shown d c := by
  obtain ⟨hcn, hmem⟩ := (mem_kept hd hp).mp hc
  exact (Outside.attached h hd hp hne).shown_child hd h.forest hp hmem hcn

lemma place_front (l : List ℕ) (i : ℕ) : place l 0 i = i :: l := place_length [] l i

lemma place_back (l : List ℕ) (i : ℕ) : place l (-1) i = l ++ [i] := if_neg (by omega)

lemma newIndex_lt (hd : Forest d') (hi : i + 1 < d'.elementCount) : i < newIndex d' := by
  have := newIndex_le hd
  omega

lemma Copying.step (h : Copying d d₁ p index e acc) (hindex : index = 0 ∨ index = -1)
    (hd : Forest d) (hlt : newIndex d < newIndex d₁)
    (ha : Attached d₁ d₂ (newIndex d) index s) :
    Copying d d₂ p index e (if index = 0 then s ++ acc else acc ++ s) := by
  have hnew := h.new_lt
  have hne := hlt.ne
  have hkept : ∀ i < newIndex d, kept d₁ i = (d₁.elements i).children := by
    intro i hi
    refine List.erase_of_not_mem fun hmem => ?_
    have hle : ∀ c ∈ kept d i, c < newIndex d := by
      intro c hc
      have hcount := newIndex_le hd
      obtain ⟨hcn, hmem⟩ := (mem_kept hd (by omega)).mp hc
      exact lt_newIndex hd (hd.child i (by omega) c hmem).2.1 hcn
    rw [h.old i hi] at hmem
    simp only [relink] at hmem
    split_ifs at hmem
    · rcases mem_place.mp hmem with heq | hmem
      · exact hne heq.symm
      · exact absurd (hle _ hmem) (not_lt.mpr hlt.le)
    · exact absurd (hle _ hmem) (not_lt.mpr hlt.le)
  refine ⟨ha.forest, hlt.trans ha.new_lt, fun i hi => ?_, ?_, ?_⟩
  · rw [ha.old i (hi.trans hlt), if_neg hi.ne, hkept i hi, h.old i hi]
    rfl
  · rw [ha.old _ hlt, ← h.content]
    rfl
  · have hchildren : (d₂.elements (newIndex d)).children =
        place (kept d₁ (newIndex d)) index (newIndex d₁) := by
      rw [ha.old _ hlt, if_pos rfl]
      rfl
    have hsame : (kept d₁ (newIndex d)).flatMap (shown d₂) = acc := by
      rw [← h.shown_children, ← flatMap_kept h.forest hnew]
      exact List.flatMap_congr fun c hc => ha.shown_kept h.forest hnew hne hc
    rw [hchildren]
    rcases hindex with rfl | rfl
    · rw [place_front, List.flatMap_cons, ha.shown_new, hsame, if_pos rfl]
    · rw [place_back, List.flatMap_append, List.flatMap_singleton, ha.shown_new, hsame,
        if_neg (by omega)]

/-- What is proved of `attach` with the given fuel. -/
def Copies (index : ℤ) (fuel : ℕ) : Prop :=
  ∀ ⦃d : THtmlParser⦄ ⦃p : ℕ⦄ ⦃o : THtmlParser⦄, Forest d → p < d.elementCount → p ≠ newIndex d →
    Ordered o → 1 < o.elementCount → o.elementCount ≤ fuel → Solid (treeOf o 1) →
      ∃ d', attach index fuel d p o = some d' ∧
        Attached d d' p index (copied index (treeOf o 1)).toString

lemma Copies.children {fuel : ℕ} (hcopies : Copies index fuel) (hindex : index = 0 ∨ index = -1)
    (hd : Forest d) (ho : Ordered o) (hfuel : o.elementCount ≤ fuel + 1) {cs : List ℕ}
    (hcs : ∀ c ∈ cs, 1 < c ∧ c < o.elementCount ∧ Solid (treeOf o c))
    (h : Copying d d₁ p index e acc) (hlt : newIndex d < newIndex d₁) :
    ∃ d₂, cs.foldlM (fun d' c => attach index fuel d' (newIndex d) (o.mid c)) d₁ = some d₂ ∧
      Copying d d₂ p index e (joined index acc (cs.map (treeOf o))) := by
  induction cs generalizing d₁ acc with
  | nil => exact ⟨d₁, rfl, h⟩
  | cons c cs ih =>
    obtain ⟨hc, hcount, hsolid⟩ := hcs c List.mem_cons_self
    obtain ⟨hord, hone, hsmall, htree⟩ := mid_spec ho hc hcount
    obtain ⟨d₂, hok, hatt⟩ := hcopies h.forest h.new_lt hlt.ne hord hone (by omega) (htree ▸ hsolid)
    have hnext : newIndex d < newIndex d₂ :=
      newIndex_lt hatt.forest (lt_of_le_of_lt hlt hatt.new_lt)
    obtain ⟨d₃, hok₃, hcopying⟩ := ih (fun c' hc' => hcs c' (List.mem_cons_of_mem c hc'))
      (h.step hindex hd hlt hatt) hnext
    refine ⟨d₃, ?_, ?_⟩
    · rw [List.foldlM_cons, hok]
      exact hok₃
    · rw [htree] at hcopying
      exact hcopying

/-- **A copy** has the content of the original, with the children in their order if it is made at
the end, and mirrored if it is made at the front. -/
theorem attach_spec (hindex : index = 0 ∨ index = -1) (fuel : ℕ) : Copies index fuel := by
  induction fuel with
  | zero => exact fun d p o _ _ _ _ _ hfuel _ => by omega
  | succ fuel ih =>
    intro d p o hd hp hne ho hcount hfuel hs
    have hins := HtmlForest.inserted hd hp hne index
    set d₁ := (d.insertNewElement p index).modify (newIndex d) fun e =>
      copyContent e (o.elements 1) with hd₁
    have hcopy : Inserted d d₁ p index (copyContent (newElement d) (o.elements 1)) :=
      hins.modify rfl
    have hstart : Inserted d d₁ p index (o.elements 1) := ⟨hcopy.count_eq, hcopy.old, hcopy.new⟩
    have hcopying := Inserted.copying hstart hd hp hne
    rw [treeOf_eq ho hcount, Solid, solids_iff] at hs
    obtain ⟨hempty, hsolid⟩ := hs
    rw [attach, if_neg (by omega), treeOf_eq ho hcount, copied_toString]
    simp only [hins.lastIndex_eq, ← hd₁]
    by_cases hnil : (o.elements 1).children = []
    · rw [hnil]
      exact ⟨d₁, rfl, hcopying.attached⟩
    · have hlt : newIndex d < newIndex d₁ := by
        have hre := not_reuses hstart fun h => hnil (List.map_eq_nil_iff.mp (hempty h))
        rw [newIndex.eq_1 d₁, if_neg hre, hstart.count_eq]
        exact Nat.lt_succ_self _
      have hcs : ∀ c ∈ (o.elements 1).children,
          1 < c ∧ c < o.elementCount ∧ Solid (treeOf o c) := fun c hc =>
        ⟨(ho 1 hcount c hc).1, (ho 1 hcount c hc).2, hsolid _ (List.mem_map_of_mem hc)⟩
      obtain ⟨d₂, hok, hcopying₂⟩ := ih.children hindex hd ho (by omega) hcs hcopying hlt
      exact ⟨d₂, hok, hcopying₂.attached⟩

/-! ### The children of an element -/

def nonblank (l : List QString) : List QString := l.filter (· ≠ [])

/-- What is printed of the children, one by one; those that print nothing do not count. -/
def texts (d : THtmlParser) (p : ℕ) : List QString :=
  nonblank ((d.elements p).children.map (shown d))

lemma nonblank_append (l l' : List QString) : nonblank (l ++ l') = nonblank l ++ nonblank l' :=
  List.filter_append ..

lemma nonblank_map_erase {f : ℕ → QString} {l : List ℕ} {n : ℕ} (h : n ∈ l → f n = []) :
    nonblank ((l.erase n).map f) = nonblank (l.map f) := by
  by_cases hn : n ∈ l
  · obtain ⟨a, b, rfl, ha⟩ := List.eq_append_cons_of_mem hn
    rw [List.erase_append_right _ ha, List.erase_cons_head]
    simp [nonblank, h hn]
  · rw [List.erase_of_not_mem hn]

lemma Attached.children_eq (h : Attached d d' p index s) (hp : p < newIndex d) :
    (d'.elements p).children = place (kept d p) index (newIndex d) := by
  rw [h.old p hp, if_pos rfl]
  rfl

lemma Attached.texts_eq (h : Attached d d' p index s) (hindex : index = 0 ∨ index = -1)
    (hd : Forest d) (hp : p < d.elementCount) (hne : p ≠ newIndex d) : texts d' p =
      if index = 0 then nonblank [s] ++ texts d p else texts d p ++ nonblank [s] := by
  have hkept : nonblank ((kept d p).map (shown d')) = texts d p := by
    rw [List.map_congr_left fun c hc => h.shown_kept hd hp hne hc]
    exact nonblank_map_erase (blank_newIndex hd hp)
  rw [texts, h.children_eq (lt_newIndex hd hp hne)]
  rcases hindex with rfl | rfl
  · rw [place_front, List.map_cons, h.shown_new, if_pos rfl, ← hkept, ← nonblank_append]
    rfl
  · rw [place_back, List.map_append, nonblank_append, hkept, if_neg (by omega)]
    simp [h.shown_new]

lemma prepend_all {cs : List ℕ} (hd : Forest d) (hp : p < d.elementCount) (hne : p ≠ newIndex d)
    (ho : Ordered o) (hcs : ∀ c ∈ cs, 1 < c ∧ c < o.elementCount ∧ Solid (treeOf o c)) :
    ∃ d', cs.foldlM (fun d' c => d'.prepend p (o.mid c)) d = some d' ∧ Forest d' ∧
      p < d'.elementCount ∧ texts d' p =
        nonblank (cs.map fun c => (mirror (treeOf o c)).toString).reverse ++ texts d p := by
  induction cs generalizing d with
  | nil => exact ⟨d, rfl, hd, hp, rfl⟩
  | cons c cs ih =>
    obtain ⟨hc, hcount, hsolid⟩ := hcs c List.mem_cons_self
    obtain ⟨hord, hone, -, htree⟩ := mid_spec ho hc hcount
    obtain ⟨d₁, hok, hatt⟩ :=
      attach_spec (.inl rfl) (o.mid c).elementCount hd hp hne hord hone le_rfl (htree ▸ hsolid)
    have hlt := lt_newIndex hd hp hne
    have hnext : p < newIndex d₁ := newIndex_lt hatt.forest (lt_of_le_of_lt hlt hatt.new_lt)
    obtain ⟨d₂, hok₂, hd₂, hp₂, htexts⟩ := ih hatt.forest (hlt.trans hatt.new_lt) hnext.ne
      fun c' hc' => hcs c' (List.mem_cons_of_mem c hc')
    refine ⟨d₂, ?_, hd₂, hp₂, ?_⟩
    · rw [List.foldlM_cons, prepend, hok]
      exact hok₂
    · rw [htexts, hatt.texts_eq (.inl rfl) hd hp hne, if_pos rfl, htree, copied, if_pos rfl,
        ← List.append_assoc, ← nonblank_append, List.map_cons, List.reverse_cons]

/-! ### The operations -/

/-- The first element with what `merge` takes over. -/
def merged (d o : THtmlParser) : THtmlParser := d.modify 1 fun e => mergeElement e (o.elements 1)

lemma mergeElement_keeps (e other : THtmlElement) : (mergeElement e other).parent = e.parent ∧
    (mergeElement e other).children = e.children ∧ (mergeElement e other).tag = e.tag := by
  have hfold : ∀ (as : List Attribute) (e : THtmlElement),
      relink (as.foldl (fun e p => e.setAttribute p.1 (p.2.map trimmedQuotes)) e) e.parent
        e.children = as.foldl (fun e p => e.setAttribute p.1 (p.2.map trimmedQuotes)) e ∧
      (as.foldl (fun e p => e.setAttribute p.1 (p.2.map trimmedQuotes)) e).tag = e.tag := by
    intro as
    induction as with
    | nil => exact fun e => ⟨rfl, rfl⟩
    | cons a as ih => exact fun e => ih _
  obtain ⟨hlinks, htag⟩ := hfold other.attributes e
  rw [mergeElement, ← hlinks]
  split_ifs <;> exact ⟨rfl, rfl, htag⟩

lemma subLinks_merged (d o : THtmlParser) : SubLinks d (merged d o) :=
  .modify d 1 (fun e => (mergeElement_keeps e _).1) fun e => (mergeElement_keeps e _).2.1 ▸ .refl _

lemma texts_merged (hd : Forest d) (hcount : 1 < d.elementCount) (o : THtmlParser) :
    texts (merged d o) 1 = texts d 1 := by
  have hd' := (subLinks_merged d o).forest hd
  have hchildren : ((merged d o).elements 1).children = (d.elements 1).children := by
    rw [merged, elements_modify_self]
    exact (mergeElement_keeps _ _).2.1
  rw [texts, texts, hchildren]
  congr 1
  refine List.map_congr_left fun c hc => ?_
  have hlt := hd.lt_child hcount hc
  have hcc := (hd.child 1 hcount c hc).2.1
  exact (Outside.modify hd 1 fun e => (mergeElement_keeps e _).1).shown_eq hd hd' hcc hcc.ne
    fun hbelow => absurd (hbelow.le hd hcount) (not_le.mpr hlt)

end TreeFrog.HtmlCopy
