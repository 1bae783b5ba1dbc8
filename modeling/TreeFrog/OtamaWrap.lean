import TreeFrog.OtamaRule

/-!
`convertToErb` with a logic file whose only rule wraps one element into two blocks of code: what
becomes of the document.
-/

namespace TreeFrog.Otama

open ErbParser hiding parse parseLoop
open HtmlElement THtmlParser HtmlForest HtmlScan HtmlParser HtmlShown HtmlMerge

variable {d d' : THtmlParser} {i p x m n : ℕ} {index : ℤ} {e : THtmlElement}

/-! ### The order of the children -/

lemma Grown.ascending (h : Grown d) :
    ∀ i < d.elementCount, (d.elements i).children.Pairwise (· < ·) := by
  induction h with
  | new => exact fun i _ => List.Pairwise.nil
  | modify h i _ hchildren _ ih =>
    intro j hj
    rw [elements_modify]
    split_ifs with hji
    · rw [hchildren]
      exact ih i (hji ▸ hj)
    · exact ih j hj
  | @inserted d d' p e h hins hp htag _ ih =>
    intro j hj
    have hd := h.forest
    have hle := newIndex_le hd
    rw [hins.count_eq] at hj
    rcases Nat.lt_or_ge j (newIndex d) with hlt | hge
    · have hkept : (kept d j).Pairwise (· < ·) := (ih j (by omega)).sublist List.erase_sublist
      rw [hins.children_old hlt]
      split_ifs
      · rw [HtmlCopy.place_back, List.pairwise_append]
        refine ⟨hkept, List.pairwise_singleton _ _, fun c hc c' hc' => ?_⟩
        obtain ⟨hcn, hmem⟩ := (mem_kept hd (by omega)).mp hc
        rw [List.mem_singleton.mp hc']
        exact lt_newIndex hd (hd.child j (by omega) c hmem).2.1 hcn
      · exact hkept
    · obtain rfl : j = newIndex d := by omega
      rw [hins.new]
      exact List.Pairwise.nil

lemma kept_split (hx : x ∈ (d.elements p).children)
    (hasc : (d.elements p).children.Pairwise (· < ·)) (hlt : x < newIndex d) :
    ∃ a b, kept d p = a ++ x :: b ∧ (d.elements p).children.idxOf x = a.length := by
  obtain ⟨a, b, hab, hxa⟩ := List.eq_append_cons_of_mem hx
  rw [hab, List.pairwise_append] at hasc
  have hna : newIndex d ∉ a := fun hmem =>
    absurd (hasc.2.2 _ hmem x List.mem_cons_self) (not_lt.mpr hlt.le)
  refine ⟨a, b.erase (newIndex d), ?_, ?_⟩
  · rw [kept, hab, List.erase_append_right _ hna, List.erase_cons_tail (by simpa using hlt.ne)]
  · rw [hab, List.idxOf_append_of_notMem hxa, List.idxOf_cons_self, Nat.add_zero]

/-! ### Labels -/

/-- The label of an element; empty if it has none. -/
def labelOf (d : THtmlParser) (i : ℕ) : QString :=
  ((d.elements i).attributeValue tfAttributeName).getD []

/-- The table without the labels of the elements behind `m` up to `n`. -/
def unlabel (d : THtmlParser) (m n : ℕ) : THtmlParser :=
  { d with elements := fun i =>
      if m < i ∧ i ≤ n then (d.elements i).removeAttribute tfAttributeName else d.elements i }

/-- The table without labels; the root has none. -/
def unlabeled (d : THtmlParser) : THtmlParser := unlabel d 0 d.lastIndex

lemma elements_unlabel (d : THtmlParser) (m n i : ℕ) : (unlabel d m n).elements i =
    if m < i ∧ i ≤ n then (d.elements i).removeAttribute tfAttributeName else d.elements i := rfl

@[simp] lemma unlabel_links (d : THtmlParser) (m n i : ℕ) :
    ((unlabel d m n).elements i).parent = (d.elements i).parent ∧
    ((unlabel d m n).elements i).children = (d.elements i).children ∧
    ((unlabel d m n).elements i).tag = (d.elements i).tag := by
  rw [elements_unlabel]
  split_ifs <;> exact ⟨rfl, rfl, rfl⟩

lemma subLinks_unlabel (d : THtmlParser) (m n : ℕ) : SubLinks d (unlabel d m n) where
  count_eq := rfl
  parent_eq i := (unlabel_links d m n i).1
  sublist i := (unlabel_links d m n i).2.1 ▸ .refl _

lemma linked_unlabel (hl : Linked d) (m n : ℕ) : Linked (unlabel d m n) := by
  intro i hpos hi
  rw [(unlabel_links d m n i).1, (unlabel_links d m n _).2.1]
  exact hl i hpos hi

lemma modify_label (d : THtmlParser) (i : ℕ) :
    (if (d.elements i).hasAttribute tfAttributeName then
      d.modify i (·.removeAttribute tfAttributeName) else d) =
      d.modify i (·.removeAttribute tfAttributeName) := by
  split_ifs with h
  · rfl
  · have hsame : (d.elements i).removeAttribute tfAttributeName = d.elements i := by
      have hall : ∀ a ∈ (d.elements i).attributes, decide (a.1 ≠ tfAttributeName) = true :=
        fun a ha => decide_eq_true fun heq => h (List.any_eq_true.mpr ⟨a, ha, decide_eq_true heq⟩)
      rw [THtmlElement.removeAttribute, List.filter_eq_self.mpr hall]
    rw [THtmlParser.modify, hsame, Function.update_eq_self]

lemma table_ext (hcount : d'.elementCount = d.elementCount)
    (h : ∀ i, d'.elements i = d.elements i) : d' = d := by
  obtain ⟨count, elements⟩ := d
  obtain ⟨count', elements'⟩ := d'
  obtain rfl : count' = count := hcount
  obtain rfl : elements' = elements := funext h
  rfl

lemma modify_unlabel (d : THtmlParser) (i : ℕ) :
    d.modify (i + 1) (·.removeAttribute tfAttributeName) = unlabel d i (i + 1) := by
  refine table_ext rfl fun j => ?_
  rw [elements_modify, elements_unlabel]
  by_cases hj : j = i + 1
  · rw [if_pos hj, if_pos (by omega), hj]
  · rw [if_neg hj, if_neg (by omega)]

lemma unlabel_unlabel {k : ℕ} (hmk : m ≤ k) (hkn : k ≤ n) :
    unlabel (unlabel d k n) m k = unlabel d m n := by
  refine table_ext rfl fun i => ?_
  simp only [elements_unlabel]
  by_cases hk : i ≤ k
  · rw [if_neg (show ¬(k < i ∧ i ≤ n) by omega)]
    by_cases hm : m < i
    · rw [if_pos ⟨hm, hk⟩, if_pos ⟨hm, hk.trans hkn⟩]
    · rw [if_neg (by omega), if_neg (by omega)]
  · rw [if_neg (show ¬(m < i ∧ i ≤ k) by omega)]
    by_cases hn : i ≤ n
    · rw [if_pos (by omega), if_pos (by omega)]
    · rw [if_neg (by omega), if_neg (by omega)]

lemma unlabel_self (d : THtmlParser) (m : ℕ) : unlabel d m m = d :=
  table_ext rfl fun i => by rw [elements_unlabel, if_neg (by omega)]

/-! ### One turn of the loop -/

section Turn

variable {otm : OtmParser} {scriptArea : Bool}

lemma parentExists_congr {fuel : ℕ} (hparent : ∀ j, (d'.elements j).parent = (d.elements j).parent)
    (htag : ∀ j, (d'.elements j).tag = (d.elements j).tag) (i : ℕ) (tag : QString) :
    THtmlParser.parentExists fuel d' i tag = THtmlParser.parentExists fuel d i tag := by
  induction fuel generalizing i with
  | zero => rfl
  | succ fuel ih => rw [THtmlParser.parentExists, THtmlParser.parentExists, hparent, htag, ih]

lemma mergeTag_eq {l : QString} (hsrc : otm.getSrcCode l .tagMerging = ([], .none)) :
    mergeTag otm d i l scriptArea = d := by
  rw [mergeTag, hsrc]
  rfl

lemma setAttributes_eq {l : QString} (hsrc : otm.getSrcCode l .attributeSet = ([], .none)) :
    setAttributes otm d i l = d := by
  rw [setAttributes, hsrc]
  rfl

lemma assignContent_eq {l : QString} (hsrc : otm.getSrcCode l .contentAssignment = ([], .none))
    (hwrap : otm.getWrapSrcCode l .contentAssignment = []) :
    assignContent otm d i l scriptArea = some d := by
  rw [assignContent, hsrc, hwrap]
  rfl

/-- Without a rule of another kind only the operator `:` is left. -/
lemma convertElement_eq (hdummy : labelOf d (i + 1) ≠ dummyLabel)
    (hdummyTag : labelOf d (i + 1) ≠ dummyTagLabel)
    (hsrc : ∀ op, otm.getSrcCode (labelOf d (i + 1)) op = ([], .none))
    (hwrap : otm.getWrapSrcCode (labelOf d (i + 1)) .contentAssignment = [])
    (hscript : parentExists d.elementCount d (i + 1) (lit "script") = some scriptArea) :
    convertElement otm d (i + 1) =
      replaceElement otm (unlabel d i (i + 1)) (i + 1) (labelOf d (i + 1)) scriptArea := by
  have hscript' : parentExists (unlabel d i (i + 1)).elementCount (unlabel d i (i + 1)) (i + 1)
      (lit "script") = some scriptArea :=
    (parentExists_congr (fun j => (unlabel_links d i (i + 1) j).1)
      (fun j => (unlabel_links d i (i + 1) j).2.2) _ _).trans hscript
  rw [convertElement, modify_label, modify_unlabel]
  change (if labelOf d (i + 1) = dummyLabel then _ else if labelOf d (i + 1) = dummyTagLabel then _
    else _) = _
  rw [if_neg hdummy, if_neg hdummyTag, hscript', Option.bind_some]
  change (assignContent otm _ _ (labelOf d (i + 1)) _).bind _ = _
  rw [assignContent_eq (hsrc _) hwrap, Option.bind_some]
  change replaceElement otm (setAttributes otm (mergeTag otm _ _ (labelOf d (i + 1)) _) _
    (labelOf d (i + 1))) _ (labelOf d (i + 1)) _ = _
  rw [mergeTag_eq (hsrc _), setAttributes_eq (hsrc _)]

/-- No rule is about the label. -/
structure Harmless (otm : OtmParser) (l : QString) : Prop where
  dummy : l ≠ dummyLabel
  dummyTag : l ≠ dummyTagLabel
  src : ∀ op, otm.getSrcCode l op = ([], .none)
  wrap : ∀ op, otm.getWrapSrcCode l op = []

lemma convertElement_harmless (hd : Forest d) (hi : i + 1 < d.elementCount)
    (h : Harmless otm (labelOf d (i + 1))) :
    convertElement otm d (i + 1) = some (unlabel d i (i + 1)) := by
  obtain ⟨scriptArea, hscript⟩ := parentExists_some hd hi hi (lit "script")
  rw [convertElement_eq h.dummy h.dummyTag h.src (h.wrap _) hscript, replaceElement, h.src, h.wrap]
  rfl

lemma convertLoop_harmless (hd : Forest d) (hmn : m ≤ n) (hn : n < d.elementCount)
    (h : ∀ i, m < i → i ≤ n → Harmless otm (labelOf d i)) :
    convertLoop otm n d = convertLoop otm m (unlabel d m n) := by
  induction n, hmn using Nat.le_induction generalizing d with
  | base => rw [unlabel_self]
  | succ n hmn ih =>
    have hlabel : ∀ i ≤ n, labelOf (unlabel d n (n + 1)) i = labelOf d i := by
      intro i hi
      rw [labelOf, elements_unlabel, if_neg (by omega), labelOf]
    rw [convertLoop, convertElement_harmless hd hn (h _ (by omega) le_rfl), Option.bind_some,
      ih ((subLinks_unlabel d n (n + 1)).forest hd) (Nat.lt_of_succ_lt hn) fun i hmi hi => by
        rw [hlabel i hi]
        exact h i hmi (by omega),
      unlabel_unlabel hmn n.le_succ]

end Turn

/-! ### Two blocks around an element -/

/-- The table `d'` is `d` with a text in front of the element and one behind its tree. -/
structure Wrapped (d d' : THtmlParser) (x : ℕ) (front back : QString) : Prop where
  forest : Forest d'
  linked : Linked d'
  lt : x < d'.elementCount
  before_eq : before d' x = before d x ++ front
  shown_eq : shown d' x = shown d x
  behind_eq : behind d' x = back ++ behind d x

lemma insertText_spec (hd : Forest d) (hp : p < d.elementCount) (hne : p ≠ newIndex d) (index : ℤ)
    (text : QString) :
    ∃ e, Inserted d (insertText d p index text) p index e ∧ e.tag = [] ∧ e.text = text := by
  have h := HtmlForest.inserted hd hp hne index
  have htag : (newElement d).tag = [] := by
    rw [newElement]
    split_ifs with hre
    · exact (isEmpty_iff.mp hre.2).1
    · rfl
  refine ⟨{ newElement d with text := text }, ?_, htag, rfl⟩
  rw [insertText, setText, h.lastIndex_eq]
  exact h.modify rfl

lemma text_shown (he : e.tag = []) : e.toString ++ e.endTag = e.text := by
  simp [THtmlElement.toString, THtmlElement.endTag, he]

section Wrapped

variable {d₁ d₂ : THtmlParser} {e₁ e₂ : THtmlElement} {a b : List ℕ} (hd : Forest d)
  (hl : Linked d) (hp : p < d.elementCount) (hne : p ≠ newIndex d)
  (hkept : kept d p = a ++ x :: b) (h₁ : Inserted d d₁ p a.length e₁) (he₁ : e₁.tag = [])

include hd hl hp hne hkept h₁ he₁

lemma wrapped_front : Wrapped d d₁ x e₁.text [] := by
  have hplace : place (kept d p) a.length (newIndex d) = a ++ newIndex d :: x :: b := by
    rw [hkept, place_length]
  obtain ⟨hbefore, hshown, hbehind⟩ := insert_before h₁ hd hl hp hne hkept hplace
  rw [text_shown he₁] at hbefore
  have hmem : x ∈ kept d p := by rw [hkept]; simp
  obtain ⟨hxn, hchild⟩ := (mem_kept hd hp).mp hmem
  have hlt := lt_newIndex hd (hd.child p hp x hchild).2.1 hxn
  have hcount := h₁.count_eq
  exact ⟨h₁.forest hd hp hne, h₁.linked hd hl hp hne, by omega, hbefore, hshown, hbehind⟩

lemma wrapped_both (htext : e₁.text ≠ []) (h₂ : Inserted d₁ d₂ p (a.length + 2) e₂)
    (he₂ : e₂.tag = []) : Wrapped d d₂ x e₁.text e₂.text := by
  obtain ⟨hd₁, hl₁, hx, hbefore₁, hshown₁, hbehind₁⟩ :=
    wrapped_front hd hl hp hne hkept h₁ he₁
  have hnew : newIndex d₁ = d₁.elementCount :=
    if_neg (not_reuses h₁ fun h => htext (isEmpty_iff.mp h).2.1)
  have hpn := lt_newIndex hd hp hne
  have hcount := h₁.count_eq
  have hp₁ : p < d₁.elementCount := by omega
  have hkept₁ : kept d₁ p = (a ++ [newIndex d]) ++ x :: b := by
    have hnot : newIndex d₁ ∉ (d₁.elements p).children := fun hmem => by
      have := (hd₁.child p hp₁ _ hmem).2.1
      omega
    rw [kept, List.erase_of_not_mem hnot, h₁.children_old hpn, if_pos rfl, hkept, place_length]
    simp
  have hplace : place (kept d₁ p) (a.length + 2) (newIndex d₁) =
      (a ++ [newIndex d]) ++ x :: newIndex d₁ :: b := by
    have hlen : (a.length + 2 : ℤ) = (a ++ [newIndex d, x]).length := by simp
    have hlist : (a ++ [newIndex d]) ++ x :: b = (a ++ [newIndex d, x]) ++ b := by simp
    rw [hkept₁, hlen, hlist, place_length]
    simp
  obtain ⟨hbefore, hshown, hbehind⟩ := insert_behind h₂ hd₁ hl₁ hp₁ (by omega) hkept₁ hplace
  rw [text_shown he₂] at hbehind
  have hcount₂ := h₂.count_eq
  exact ⟨h₂.forest hd₁ hp₁ (by omega), h₂.linked hd₁ hl₁ hp₁ (by omega), by omega,
    hbefore.trans hbefore₁, hshown.trans hshown₁, by rw [hbehind, hbehind₁, List.nil_append]⟩

end Wrapped

/-! ### The element with the rule -/

lemma newIndex_unlabel (hn : n < d.lastIndex) : newIndex (unlabel d m n) = newIndex d := by
  have hlast : (unlabel d m n).last = d.last := by
    rw [THtmlParser.last, THtmlParser.last]
    exact if_neg fun h => absurd h.2 (not_le.mpr hn)
  have hre : Reuses (unlabel d m n) ↔ Reuses d := by
    rw [Reuses, Reuses, hlast]
    rfl
  rw [newIndex, newIndex]
  simp only [hre]
  rfl

lemma lastIndex_le_newIndex (d : THtmlParser) : d.lastIndex ≤ newIndex d := by
  rw [newIndex]
  split_ifs
  · exact le_rfl
  · exact Nat.sub_le _ _

/-- Labels of elements before the last one do not matter for a new element. -/
lemma inserted_unlabel (h : Inserted d d' p index e) (hn : n < d.lastIndex) :
    Inserted (unlabel d m n) (unlabel d' m n) p index e := by
  have hlast := lastIndex_le_newIndex d
  have hnew := newIndex_unlabel (m := m) hn
  have hkept : ∀ i, kept (unlabel d m n) i = kept d i := by
    intro i
    rw [kept, hnew, (unlabel_links d m n i).2.1, kept]
  refine ⟨by rw [hnew]; exact h.count_eq, fun i hi => ?_, ?_⟩
  · rw [hnew] at hi ⊢
    rw [hkept, elements_unlabel, elements_unlabel, h.old i hi]
    split_ifs <;> rfl
  · rw [hnew, elements_unlabel, if_neg (by omega), h.new]

/-- The block behind the element, which an empty code does not have. -/
def blockBehind (scriptArea : Bool) (code : QString) : QString :=
  if code.isEmpty then [] else block scriptArea code

section Element

variable {otm : OtmParser} {scriptArea : Bool} {l val : QString} {vals : List QString}

lemma Inserted.labelOf_eq (h : Inserted d d' p index e) (hi : i < newIndex d) :
    labelOf d' i = labelOf d i := by
  rw [labelOf, h.old i hi, labelOf]
  rfl

lemma replaceElement_wraps (hd : Forest d) (hl : Linked d)
    (hasc : ∀ i < d.elementCount, (d.elements i).children.Pairwise (· < ·)) (hpos : 0 < x)
    (hx : x < d.elementCount) (htag : (d.elements x).tag ≠ [])
    (hsrc : otm.getSrcCode l .tagReplacement = ([], .none))
    (hwrap : otm.getWrapSrcCode l .tagReplacement = val :: vals) (hn : n < x) :
    ∃ d', replaceElement otm d x l scriptArea = some d' ∧ Forest d' ∧ x < d'.elementCount ∧
      (∀ i < x, labelOf d' i = labelOf d i) ∧
      Wrapped (unlabel d 0 n) (unlabel d' 0 n) x (block scriptArea (trimmed val))
        (blockBehind scriptArea (trimmed (vals.headD []))) := by
  set p := (d.elements x).parent with hparent
  set code := block scriptArea (trimmed val) with hcode
  set s := trimmed (vals.headD []) with hs
  have hpx : p < x := hd.parent_lt x hpos hx
  have hp : p < d.elementCount := hpx.trans hx
  have hxn := lt_newIndex hd hx (ne_newIndex hx (.inr htag))
  have hne : p ≠ newIndex d := (hpx.trans hxn).ne
  have hmem : x ∈ (d.elements p).children := hl x hpos hx
  obtain ⟨a, b, hkept, hidx⟩ := kept_split hmem (hasc p hp) hxn
  have hreplace : replaceElement otm d x l scriptArea = some (if s.isEmpty then
      insertText d p a.length code else
      insertText (insertText d p a.length code) p (a.length + 2) (block scriptArea s)) := by
    rw [replaceElement, hsrc, hwrap]
    simp only [← hparent, if_pos hmem, hidx]
    rfl
  -- the labels of the elements before it go later
  have hlast : n < d.lastIndex := by
    rw [THtmlParser.lastIndex]
    omega
  have hd₀ := (subLinks_unlabel d 0 n).forest hd
  have hl₀ := linked_unlabel hl 0 n
  have hnew₀ := newIndex_unlabel (m := 0) hlast
  have hkept₀ : kept (unlabel d 0 n) p = a ++ x :: b := by
    rw [kept, (unlabel_links d 0 n p).2.1, hnew₀, ← hkept, kept]
  obtain ⟨e₁, h₁, he₁, htext₁⟩ := insertText_spec hd hp hne a.length code
  rw [hreplace]
  generalize insertText d p a.length code = d₁ at h₁
  have hcount₁ := h₁.count_eq
  have h₁' := inserted_unlabel (m := 0) h₁ hlast
  have hd₁ := h₁.forest hd hp hne
  have hlabel₁ : ∀ i < x, labelOf d₁ i = labelOf d i := fun i hi =>
    Inserted.labelOf_eq h₁ (hi.trans hxn)
  by_cases hblank : s.isEmpty
  · have hwrapped := wrapped_front hd₀ hl₀ hp (hnew₀ ▸ hne) hkept₀ h₁' he₁
    rw [htext₁] at hwrapped
    rw [if_pos hblank, blockBehind, if_pos hblank]
    exact ⟨d₁, rfl, hd₁, by omega, hlabel₁, hwrapped⟩
  · have htext : e₁.text ≠ [] := by
      rw [htext₁, hcode, block]
      simp [leftDelim, lit]
    have hnew₁ : newIndex d₁ = d₁.elementCount :=
      if_neg (not_reuses h₁ fun h => htext (isEmpty_iff.mp h).2.1)
    have hp₁ : p < d₁.elementCount := by omega
    have hne₁ : p ≠ newIndex d₁ := by omega
    obtain ⟨e₂, h₂, he₂, htext₂⟩ :=
      insertText_spec hd₁ hp₁ hne₁ (a.length + 2) (block scriptArea s)
    have hcount₂ := h₂.count_eq
    have hlast₁ : n < d₁.lastIndex := by
      rw [THtmlParser.lastIndex]
      omega
    have hwrapped := wrapped_both hd₀ hl₀ hp (hnew₀ ▸ hne) hkept₀ h₁' he₁ htext
      (inserted_unlabel h₂ hlast₁) he₂
    rw [htext₁, htext₂] at hwrapped
    rw [if_neg hblank, blockBehind, if_neg hblank]
    refine ⟨_, rfl, h₂.forest hd₁ hp₁ hne₁, by omega, fun i hi => ?_, hwrapped⟩
    rw [Inserted.labelOf_eq h₂ (by omega), hlabel₁ i hi]

lemma convertLoop_wraps {k : ℕ} (hd : Forest d) (hl : Linked d)
    (hasc : ∀ i < d.elementCount, (d.elements i).children.Pairwise (· < ·))
    (hx : k + 1 < d.elementCount) (htag : (d.elements (k + 1)).tag ≠ [])
    (hdummy : labelOf d (k + 1) ≠ dummyLabel) (hdummyTag : labelOf d (k + 1) ≠ dummyTagLabel)
    (hsrc : ∀ op, otm.getSrcCode (labelOf d (k + 1)) op = ([], .none))
    (hcontent : otm.getWrapSrcCode (labelOf d (k + 1)) .contentAssignment = [])
    (hwrap : otm.getWrapSrcCode (labelOf d (k + 1)) .tagReplacement = val :: vals)
    (hscript : parentExists d.elementCount d (k + 1) (lit "script") = some scriptArea)
    (hother : ∀ i < d.elementCount, i ≠ k + 1 → Harmless otm (labelOf d i)) :
    ∃ d', convertLoop otm d.lastIndex d = some d' ∧ Wrapped (unlabeled d) d' (k + 1)
      (block scriptArea (trimmed val)) (blockBehind scriptArea (trimmed (vals.headD []))) := by
  have hn : d.lastIndex < d.elementCount := hd.lastIndex_lt
  have hxn : k + 1 ≤ d.lastIndex := by
    rw [THtmlParser.lastIndex]
    omega
  -- the elements behind it
  have hbehind : convertLoop otm d.lastIndex d =
      convertLoop otm (k + 1) (unlabel d (k + 1) d.lastIndex) :=
    convertLoop_harmless hd hxn hn fun i hki hi => hother i (by omega) (by omega)
  -- the element itself
  have hlabel : labelOf (unlabel d (k + 1) d.lastIndex) (k + 1) = labelOf d (k + 1) := by
    rw [labelOf, elements_unlabel, if_neg (by omega), labelOf]
  have hscript' : parentExists (unlabel d (k + 1) d.lastIndex).elementCount
      (unlabel d (k + 1) d.lastIndex) (k + 1) (lit "script") = some scriptArea :=
    (parentExists_congr (fun j => (unlabel_links d _ _ j).1)
      (fun j => (unlabel_links d _ _ j).2.2) _ _).trans hscript
  have hturn : convertElement otm (unlabel d (k + 1) d.lastIndex) (k + 1) =
      replaceElement otm (unlabel d k d.lastIndex) (k + 1) (labelOf d (k + 1)) scriptArea := by
    rw [← hlabel] at hdummy hdummyTag hsrc hcontent
    rw [convertElement_eq hdummy hdummyTag hsrc hcontent hscript',
      unlabel_unlabel k.le_succ hxn, hlabel]
  have hasc' : ∀ i < (unlabel d k d.lastIndex).elementCount,
      ((unlabel d k d.lastIndex).elements i).children.Pairwise (· < ·) := fun i hi => by
    rw [(unlabel_links d _ _ i).2.1]
    exact hasc i hi
  obtain ⟨d', hreplace, hd', hx', hlabel', hwrapped⟩ := replaceElement_wraps
    ((subLinks_unlabel d k d.lastIndex).forest hd)
    (linked_unlabel hl k d.lastIndex) hasc' k.succ_pos hx
    ((unlabel_links d k d.lastIndex _).2.2 ▸ htag) (hsrc _) hwrap k.lt_succ_self
  -- the elements in front of it
  have hfront : convertLoop otm k d' = some (unlabel d' 0 k) := by
    rw [convertLoop_harmless hd' k.zero_le (by omega) fun i _ hi => ?_, convertLoop]
    rw [hlabel' i (by omega), labelOf, elements_unlabel, if_neg (by omega)]
    exact hother i (by omega) (by omega)
  refine ⟨unlabel d' 0 k, ?_, ?_⟩
  · rw [hbehind, convertLoop, hturn, hreplace, Option.bind_some, hfront]
  · rw [unlabel_unlabel k.zero_le (k.le_succ.trans hxn)] at hwrapped
    exact hwrapped

end Element

lemma labelOf_ne_some {l : QString} (hne : l ≠ [])
    (h : (d.elements i).attributeValue tfAttributeName ≠ some l) : labelOf d i ≠ l := by
  intro heq
  rw [labelOf] at heq
  cases hvalue : (d.elements i).attributeValue tfAttributeName with
  | none =>
    rw [hvalue] at heq
    exact hne heq.symm
  | some l' =>
    rw [hvalue] at heq
    exact h (heq ▸ hvalue)

/-- **A rule that wraps an element**: the blocks come right in front of the element and right behind
its tree, the second one only if there is code for it; the labels go, and nothing else changes. -/
theorem convertToErb_wraps {trimMode : TrimMode} {html otm label pre post : QString} {st : State}
    (hparse : parse trimMode html = .ok st) (hpos : 0 < x) (hx : x < st.doc.elementCount)
    (htag : (st.doc.elements x).tag ≠ [])
    (hlabel : (st.doc.elements x).attributeValue tfAttributeName = some label)
    (honce : ∀ i < st.doc.elementCount,
      (st.doc.elements i).attributeValue tfAttributeName = some label → i = x)
    (hdummy : ∀ i < st.doc.elementCount,
      (st.doc.elements i).attributeValue tfAttributeName ≠ some dummyLabel ∧
      (st.doc.elements i).attributeValue tfAttributeName ≠ some dummyTagLabel)
    (hreserved : label ≠ includeLabel ∧ label ≠ initLabel)
    (hrule : (OtmParser.parse (lit "%%") otm).entries =
      [(label, trimmed (lit ": " ++ pre ++ lit " %% " ++ post))])
    (hpre : ¬ lit "%%" <:+: pre) (hpost : ¬ lit "%%" <:+: post) (hne : trimmed pre ≠ []) :
    ∃ scriptArea,
      parentExists st.doc.elementCount st.doc x (lit "script") = some scriptArea ∧
      (unlabeled st.doc).toString = some (before (unlabeled st.doc) x ++
        shown (unlabeled st.doc) x ++ behind (unlabeled st.doc) x) ∧
      convertToErb (lit "%%") html otm trimMode = some (before (unlabeled st.doc) x ++
        block scriptArea (trimmed pre) ++ shown (unlabeled st.doc) x ++
        (if trimmed post = [] then [] else block scriptArea (trimmed post)) ++
        behind (unlabeled st.doc) x) := by
  obtain ⟨d, rest, asserted⟩ := st
  obtain ⟨k, rfl⟩ := Nat.exists_eq_succ_of_ne_zero hpos.ne'
  simp only at hx htag hlabel honce hdummy
  have hbuilt : Built d := parse_built hparse
  have hd := hbuilt.forest
  have hasc := Grown.ascending (parse_grown hparse)
  obtain ⟨scriptArea, hscript⟩ := parentExists_some hd hx hx (lit "script")
  set otm' := OtmParser.parse (lit "%%") otm with hotm
  -- the file has no rule but that of `label`
  have honly : otm'.OnlyRule label pre post := ⟨rfl, hrule⟩
  obtain ⟨val, vals, hwrap, hval, hvals⟩ := OtmParser.getWrapSrcCode_rule honly hpre hne hpost
  have hsrc := OtmParser.getSrcCode_eq honly hpre
  have hharmless : ∀ i < d.elementCount, i ≠ k + 1 → Harmless otm' (labelOf d i) := by
    intro i hi hik
    have hother : label ≠ labelOf d i :=
      (labelOf_ne_some (OtmParser.label_ne honly hotm) fun h => hik (honce i hi h)).symm
    refine ⟨fun heq => ?_, fun heq => ?_, hsrc _, OtmParser.getWrapSrcCode_ne honly hother⟩
    · exact labelOf_ne_some (by decide) (hdummy i hi).1 heq
    · exact labelOf_ne_some (by decide) (hdummy i hi).2 heq
  have hown : labelOf d (k + 1) = label := by
    rw [labelOf, hlabel]
    rfl
  obtain ⟨d', hloop, hwrapped⟩ := convertLoop_wraps hd hbuilt.linked hasc hx htag
    (labelOf_ne_some (by decide) (hdummy _ hx).1) (labelOf_ne_some (by decide) (hdummy _ hx).2)
    (hsrc _) (OtmParser.getWrapSrcCode_content honly _) (hown.symm ▸ hwrap) hscript hharmless
  have hd₀ : Forest (unlabeled d) := (subLinks_unlabel d 0 d.lastIndex).forest hd
  have hsplit := shown_split hd₀ (linked_unlabel hbuilt.linked 0 d.lastIndex) hx
  refine ⟨scriptArea, hscript, ?_, ?_⟩
  · exact (toString_eq hd₀).trans (congrArg some hsplit)
  · -- neither an include nor an init rule is there
    have hinserts : insertInit (insertIncludes d otm'.includeStrings) otm'.getInitSrcCode = d := by
      rw [OtmParser.includeStrings_eq honly hreserved.1,
        OtmParser.getInitSrcCode_eq honly hreserved.2]
      rfl
    have hrun : convertToErb (lit "%%") html otm trimMode =
        (convertLoop otm' d.lastIndex d).bind THtmlParser.toString := by
      simp only [convertToErb, hparse, Except.toOption, Option.bind_some, ← hotm, hinserts]
      rfl
    have hback : blockBehind scriptArea (trimmed post) =
        if trimmed post = [] then [] else block scriptArea (trimmed post) := by
      rw [blockBehind]
      simp only [List.isEmpty_iff]
    rw [hrun, hloop, Option.bind_some, toString_eq hwrapped.forest,
      shown_split hwrapped.forest hwrapped.linked hwrapped.lt, hwrapped.before_eq,
      hwrapped.shown_eq, hwrapped.behind_eq, hval, hvals, hback]
    simp only [List.append_assoc]

theorem convertToErb_wraps_paragraph :
    ∃ st scriptArea, parse .trimOff (lit "<p data-tf=\"@a\">t</p>") = .ok st ∧
      parentExists st.doc.elementCount st.doc 1 (lit "script") = some scriptArea ∧
      (unlabeled st.doc).toString = some (before (unlabeled st.doc) 1 ++
        shown (unlabeled st.doc) 1 ++ behind (unlabeled st.doc) 1) ∧
      convertToErb (lit "%%") (lit "<p data-tf=\"@a\">t</p>") (lit "@a : x %% y") .trimOff =
        some (before (unlabeled st.doc) 1 ++ block scriptArea (trimmed (lit "x")) ++
          shown (unlabeled st.doc) 1 ++
          (if trimmed (lit "y") = [] then [] else block scriptArea (trimmed (lit "y"))) ++
          behind (unlabeled st.doc) 1) := by
  obtain ⟨st, hparse, -⟩ := parse_asserts_iff .trimOff (lit "<p data-tf=\"@a\">t</p>")
  have hrun : (parse .trimOff (lit "<p data-tf=\"@a\">t</p>")).toOption.map (fun st =>
      (st.doc.elementCount, (st.doc.elements 1).tag, (List.range 3).map fun i =>
        (st.doc.elements i).attributeValue tfAttributeName)) =
      some (3, ['p'], [none, some (lit "@a"), none]) := by
    decide +kernel
  have hrule : (OtmParser.parse (lit "%%") (lit "@a : x %% y")).entries =
      [(lit "@a", trimmed (lit ": " ++ lit "x" ++ lit " %% " ++ lit "y"))] := by
    decide +kernel
  rw [hparse, Except.toOption, Option.map_some, Option.some.injEq, Prod.mk.injEq,
    Prod.mk.injEq] at hrun
  obtain ⟨hcount, htag, hlabels⟩ := hrun
  have hvalues : (st.doc.elements 0).attributeValue tfAttributeName = none ∧
      (st.doc.elements 1).attributeValue tfAttributeName = some (lit "@a") ∧
      (st.doc.elements 2).attributeValue tfAttributeName = none := by
    simpa [List.range_succ] using hlabels
  have hall : ∀ i < st.doc.elementCount,
      (st.doc.elements i).attributeValue tfAttributeName = none ∨
      (st.doc.elements i).attributeValue tfAttributeName = some (lit "@a") ∧ i = 1 := by
    intro i hi
    have hi : i = 0 ∨ i = 1 ∨ i = 2 := by omega
    rcases hi with rfl | rfl | rfl
    · exact .inl hvalues.1
    · exact .inr ⟨hvalues.2.1, rfl⟩
    · exact .inl hvalues.2.2
  obtain ⟨scriptArea, hwraps⟩ := convertToErb_wraps hparse Nat.one_pos (by omega)
    (by rw [htag]; decide) hvalues.2.1
    (fun i hi h => by
      rcases hall i hi with hnone | hsome
      · rw [hnone] at h
        cases h
      · exact hsome.2)
    (fun i hi => by
      rcases hall i hi with hnone | hsome
      · rw [hnone]
        decide
      · rw [hsome.1]
        decide)
    (by decide) hrule (by decide) (by decide) (by decide)
  exact ⟨st, scriptArea, hparse, hwraps⟩

/-- In a script the blocks end with ` +%>`. -/
theorem convertToErb_wraps_script :
    ∃ st tree, parse .trimOff (lit "<script data-tf=\"@a\"></script>") = .ok st ∧
      (st.doc.elements 1).tag = lit "script" ∧
      (st.doc.elements 1).attributeValue tfAttributeName = some (lit "@a") ∧
      (∀ i < st.doc.elementCount,
        (st.doc.elements i).attributeValue tfAttributeName = some (lit "@a") → i = 1) ∧
      (OtmParser.parse (lit "%%") (lit "@a : x %% y")).entries =
        [(lit "@a", lit ": x %% y")] ∧
      (unlabeled st.doc).toString = some tree ∧
      elementsToString st.doc.elementCount (unlabeled st.doc) 1 = some tree ∧
      convertToErb (lit "%%") (lit "<script data-tf=\"@a\"></script>") (lit "@a : x %% y")
        .trimOff ≠ some (lit "<% x %>" ++ tree ++ lit "<% y %>") := by
  obtain ⟨st, hparse, -⟩ := parse_asserts_iff .trimOff (lit "<script data-tf=\"@a\"></script>")
  have hrun : (parse .trimOff (lit "<script data-tf=\"@a\"></script>")).toOption.map (fun st =>
      ((st.doc.elements 1).tag, (st.doc.elements 1).attributeValue tfAttributeName,
        decide (∀ i < st.doc.elementCount,
          (st.doc.elements i).attributeValue tfAttributeName = some (lit "@a") → i = 1),
        (unlabeled st.doc).toString,
        elementsToString st.doc.elementCount (unlabeled st.doc) 1)) =
      some (lit "script", some (lit "@a"), true, some (lit "<script></script>"),
        some (lit "<script></script>")) := by
    decide +kernel
  rw [hparse, Except.toOption, Option.map_some, Option.some.injEq, Prod.mk.injEq,
    Prod.mk.injEq, Prod.mk.injEq, Prod.mk.injEq, decide_eq_true_eq] at hrun
  obtain ⟨htag, hlabel, honce, hstring, htree⟩ := hrun
  exact ⟨st, lit "<script></script>", hparse, htag, hlabel, honce, by decide +kernel, hstring,
    htree, by decide +kernel⟩

end TreeFrog.Otama
