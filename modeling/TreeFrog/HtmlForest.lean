import Mathlib.Data.List.Nodup
import TreeFrog.HtmlElement

/-!
The element table as a forest under the root: the parent of an element comes before it, and the
lists of children and the parents say the same. What an operation of the table keeps is derived
from what it does to the links of each element.
-/

namespace TreeFrog.HtmlForest

open ErbParser HtmlElement THtmlParser

variable {d d' : THtmlParser} {i p c : ℕ} {index : ℤ}

structure Forest (d : THtmlParser) : Prop where
  pos : 0 < d.elementCount
  root : (d.elements 0).parent = 0
  parent_lt : ∀ i, 0 < i → i < d.elementCount → (d.elements i).parent < i
  child : ∀ p < d.elementCount, ∀ c ∈ (d.elements p).children,
    0 < c ∧ c < d.elementCount ∧ (d.elements c).parent = p
  nodup : ∀ p < d.elementCount, (d.elements p).children.Nodup

lemma forest_new : Forest .new where
  pos := by decide
  root := rfl
  parent_lt i hi hlt := absurd hlt (by simp [THtmlParser.new]; omega)
  child p _ c hc := absurd hc (by simp [THtmlParser.new])
  nodup p _ := List.nodup_nil

namespace Forest

lemma lt_child (h : Forest d) (hp : p < d.elementCount) (hc : c ∈ (d.elements p).children) :
    p < c := by
  obtain ⟨hpos, hlt, rfl⟩ := h.child p hp c hc
  exact h.parent_lt c hpos hlt

lemma lastIndex_lt (h : Forest d) : d.lastIndex < d.elementCount := by
  have := h.pos
  rw [lastIndex]
  omega

lemma children_last (h : Forest d) : (d.elements d.lastIndex).children = [] := by
  refine List.eq_nil_iff_forall_not_mem.mpr fun c hc => ?_
  have h₁ := h.lt_child h.lastIndex_lt hc
  have h₂ := (h.child _ h.lastIndex_lt c hc).2.1
  rw [lastIndex] at h₁
  omega

end Forest

/-- The children of an element come behind it. -/
def Ordered (d : THtmlParser) : Prop :=
  ∀ i < d.elementCount, ∀ c ∈ (d.elements i).children, i < c ∧ c < d.elementCount

lemma Forest.ordered (hd : Forest d) : Ordered d := fun i hi c hc =>
  ⟨hd.lt_child hi hc, (hd.child i hi c hc).2.1⟩

/-! ### Changes of the content -/

@[simp] lemma elementCount_modify (d : THtmlParser) (i : ℕ) (f : THtmlElement → THtmlElement) :
    (d.modify i f).elementCount = d.elementCount := rfl

@[simp] lemma lastIndex_modify (d : THtmlParser) (i : ℕ) (f : THtmlElement → THtmlElement) :
    (d.modify i f).lastIndex = d.lastIndex := rfl

@[simp] lemma elements_modify_self (d : THtmlParser) (i : ℕ) (f : THtmlElement → THtmlElement) :
    (d.modify i f).elements i = f (d.elements i) := Function.update_self ..

lemma elements_modify (d : THtmlParser) (i j : ℕ) (f : THtmlElement → THtmlElement) :
    (d.modify i f).elements j = if j = i then f (d.elements i) else d.elements j :=
  Function.update_apply ..

lemma elements_modify_ne (d : THtmlParser) {i j : ℕ} (h : j ≠ i)
    (f : THtmlElement → THtmlElement) : (d.modify i f).elements j = d.elements j :=
  Function.update_of_ne h ..

/-- Two tables with the same elements and the same parents, and no child more than before. -/
structure SubLinks (d d' : THtmlParser) : Prop where
  count_eq : d'.elementCount = d.elementCount
  parent_eq : ∀ i, (d'.elements i).parent = (d.elements i).parent
  sublist : ∀ i, (d'.elements i).children.Sublist (d.elements i).children

namespace SubLinks

lemma refl (d : THtmlParser) : SubLinks d d := ⟨rfl, fun _ => rfl, fun _ => .refl _⟩

lemma trans {d₁ d₂ d₃ : THtmlParser} (h₁ : SubLinks d₁ d₂) (h₂ : SubLinks d₂ d₃) :
    SubLinks d₁ d₃ where
  count_eq := h₂.count_eq.trans h₁.count_eq
  parent_eq i := (h₂.parent_eq i).trans (h₁.parent_eq i)
  sublist i := (h₂.sublist i).trans (h₁.sublist i)

lemma modify (d : THtmlParser) (i : ℕ) {f : THtmlElement → THtmlElement}
    (hparent : ∀ e, (f e).parent = e.parent)
    (hchildren : ∀ e, (f e).children.Sublist e.children) : SubLinks d (d.modify i f) where
  count_eq := rfl
  parent_eq j := by
    rw [elements_modify]
    split_ifs with h
    · rw [h, hparent]
    · rfl
  sublist j := by
    rw [elements_modify]
    split_ifs with h
    · rw [h]
      exact hchildren _
    · exact .refl _

lemma forest (h : SubLinks d d') (hd : Forest d) : Forest d' where
  pos := h.count_eq ▸ hd.pos
  root := (h.parent_eq 0).trans hd.root
  parent_lt i hpos hlt := by
    rw [h.parent_eq]
    exact hd.parent_lt i hpos (h.count_eq ▸ hlt)
  child p hp c hc := by
    rw [h.parent_eq, h.count_eq]
    exact hd.child p (h.count_eq ▸ hp) c ((h.sublist p).subset hc)
  nodup p hp := (hd.nodup p (h.count_eq ▸ hp)).sublist (h.sublist p)

lemma removeNewlineBehind (d : THtmlParser) (i : ℕ) : SubLinks d (d.removeNewlineBehind i) := by
  rw [THtmlParser.removeNewlineBehind]
  split
  · split_ifs
    · exact modify d _ (fun _ => rfl) fun _ => .refl _
    · exact refl d
  · exact refl d

lemma removeTag (d : THtmlParser) (i : ℕ) : SubLinks d (d.removeTag i) :=
  (modify d i (f := fun e => removeNewlineOfText { e with tag := [] }) (fun _ => rfl)
    fun _ => .refl _).trans (removeNewlineBehind _ i)

lemma clear (d : THtmlParser) (i : ℕ) : SubLinks d (d.modify i (·.clear)) :=
  modify d i (fun _ => rfl) fun _ => List.nil_sublist _

/-- The removal of the children ends, since each of them comes behind its parent. -/
lemma removeChildElements {fuel : ℕ} (hd : Forest d) (hi : i < d.elementCount)
    (hfuel : d.elementCount ≤ i + fuel) :
    ∃ d', THtmlParser.removeChildElements fuel d i = some d' ∧ SubLinks d d' := by
  induction fuel generalizing d i with
  | zero => omega
  | succ fuel ih =>
    rw [THtmlParser.removeChildElements]
    have hall := hd.ordered i hi
    generalize (d.elements i).children = children at hall
    clear hi
    induction children generalizing d with
    | nil => exact ⟨d, rfl, refl d⟩
    | cons c children ihc =>
      obtain ⟨hlt, hc⟩ := hall c List.mem_cons_self
      obtain ⟨d₁, hok, hlinks⟩ := ih hd hc (by omega)
      have hstep : SubLinks d (d₁.modify c (·.clear)) := hlinks.trans (clear d₁ c)
      have hcount := hstep.count_eq
      obtain ⟨d₂, hok₂, hlinks₂⟩ := ihc (hstep.forest hd) (by omega)
        fun c' hc' => by
          have := hall c' (List.mem_cons_of_mem _ hc')
          omega
      rw [List.foldlM_cons, hok]
      exact ⟨d₂, hok₂, hstep.trans hlinks₂⟩

lemma removeElementTree (hd : Forest d) (hi : i < d.elementCount) (removeNewline : Bool) :
    ∃ d', d.removeElementTree i removeNewline = some d' ∧ SubLinks d d' := by
  obtain ⟨d₁, hok, hlinks⟩ :
      ∃ d₁, THtmlParser.removeChildElements d.elementCount d i = some d₁ ∧ SubLinks d d₁ :=
    removeChildElements hd hi (by omega)
  rw [THtmlParser.removeElementTree, hok]
  refine ⟨_, rfl, hlinks.trans ((clear d₁ i).trans ?_)⟩
  cases removeNewline with
  | false => exact refl _
  | true => exact removeNewlineBehind _ i

end SubLinks

/-! ### A new element -/

lemma insertIdx_length (a b : List ℕ) (i : ℕ) : (a ++ b).insertIdx a.length i = a ++ i :: b := by
  induction a with
  | nil => rfl
  | cons c a ih => rw [List.cons_append, List.length_cons, List.insertIdx_succ_cons, ih]; rfl

lemma place_length (a b : List ℕ) (i : ℕ) : place (a ++ b) a.length i = a ++ i :: b := by
  rw [place]
  split_ifs with h
  · rw [Int.toNat_natCast, insertIdx_length]
  · obtain rfl : b = [] := by
      rw [List.length_append] at h
      exact List.length_eq_zero_iff.mp (by omega)
    simp

lemma place_split (children : List ℕ) (index : ℤ) (i : ℕ) :
    ∃ a b, children = a ++ b ∧ place children index i = a ++ i :: b := by
  by_cases h : 0 ≤ index ∧ index < children.length
  · have hlen : ((children.take index.toNat).length : ℤ) = index := by
      rw [List.length_take]
      omega
    have happ := List.take_append_drop index.toNat children
    refine ⟨_, _, happ.symm, ?_⟩
    calc place children index i
        = place (children.take index.toNat ++ children.drop index.toNat)
            (children.take index.toNat).length i := by rw [happ, hlen]
      _ = _ := place_length ..
  · exact ⟨children, [], by simp, by rw [place, if_neg h]⟩

/-- The last element is used again. -/
def Reuses (d : THtmlParser) : Prop := 1 < d.elementCount ∧ d.last.isEmpty

instance (d : THtmlParser) : Decidable (Reuses d) := inferInstanceAs (Decidable (_ ∧ _))

/-- The index that `insertNewElement` gives. -/
def newIndex (d : THtmlParser) : ℕ := if Reuses d then d.lastIndex else d.elementCount

/-- The element that `insertNewElement` links. -/
def newElement (d : THtmlParser) : THtmlElement := if Reuses d then d.last else {}

/-- The children of an element without the one that is used again. -/
def kept (d : THtmlParser) (i : ℕ) : List ℕ := (d.elements i).children.erase (newIndex d)

lemma elementCount_insert (hd : Forest d) (p : ℕ) (index : ℤ) :
    (d.insertNewElement p index).elementCount = newIndex d + 1 := by
  rw [insertNewElement, newIndex]
  split_ifs with h₁ h₂ h₂
  · have := hd.pos
    rw [changeParent, elementCount_modify, elementCount_modify, elementCount_modify, lastIndex]
    omega
  · exact absurd h₁ h₂
  · exact absurd h₂ h₁
  · rfl

lemma kept_eq (hd : Forest d) (hi : i < d.elementCount)
    (hne : Reuses d → i ≠ (d.elements d.lastIndex).parent) :
    kept d i = (d.elements i).children := by
  refine List.erase_of_not_mem fun hmem => ?_
  obtain ⟨-, hlt, hparent⟩ := hd.child i hi _ hmem
  rw [newIndex] at hlt hparent
  split_ifs at hlt hparent with h
  · exact hne h hparent.symm
  · exact absurd hlt (lt_irrefl _)

/-- An element with other links. -/
def relink (e : THtmlElement) (parent : ℕ) (children : List ℕ) : THtmlElement :=
  { e with parent := parent, children := children }

lemma insert_reuse (h : Reuses d) (p : ℕ) (index : ℤ) :
    d.insertNewElement p index = d.changeParent d.lastIndex p index := if_pos h

lemma insert_grow (h : ¬Reuses d) (p : ℕ) (index : ℤ) : d.insertNewElement p index =
    (d.grow.modify d.elementCount fun e => { e with parent := p }).modify p fun e =>
      { e with children := place e.children index d.elementCount } := if_neg h

lemma elements_changeParent {j : ℕ} (hq : (d.elements j).parent ≠ j) (hp : p ≠ j) (i : ℕ) :
    (d.changeParent j p index).elements i =
      relink (d.elements i) (if i = j then p else (d.elements i).parent)
        (if i = p then place (if i = (d.elements j).parent then (d.elements i).children.erase j
            else (d.elements i).children) index j
          else if i = (d.elements j).parent then (d.elements i).children.erase j
          else (d.elements i).children) := by
  simp only [changeParent, elements_modify, relink]
  generalize (d.elements j).parent = q at hq
  have hqj := Ne.symm hq
  by_cases h₁ : i = p
  · subst h₁
    by_cases h₂ : i = q
    · subst h₂
      simp [hp]
    · simp [h₂, hp]
  · by_cases h₂ : i = j
    · subst h₂
      simp [h₁, hqj]
    · by_cases h₃ : i = q
      · subst h₃
        simp [h₁, h₂]
      · simp [h₁, h₂, h₃]

lemma elements_grow (hp : p ≠ d.elementCount) (i : ℕ) :
    ((d.grow.modify d.elementCount fun e => { e with parent := p }).modify p fun e =>
      { e with children := place e.children index d.elementCount }).elements i =
      relink (if i = d.elementCount then {} else d.elements i)
        (if i = d.elementCount then p else (d.elements i).parent)
        (if i = d.elementCount then [] else
          if i = p then place (d.elements i).children index d.elementCount
          else (d.elements i).children) := by
  simp only [elements_modify, grow, relink, Function.update_apply]
  by_cases h₁ : i = d.elementCount
  · subst h₁
    simp [Ne.symm hp]
  · by_cases h₂ : i = p <;> simp [h₁, h₂, hp]

/-- **What `insertNewElement` does to the elements.** -/
theorem elements_insert (hd : Forest d) (hp : p < d.elementCount) (hne : p ≠ newIndex d)
    (hi : i ≤ newIndex d) : (d.insertNewElement p index).elements i =
      relink (if i = newIndex d then newElement d else d.elements i)
        (if i = newIndex d then p else (d.elements i).parent)
        (if i = newIndex d then [] else
          if i = p then place (kept d i) index (newIndex d) else kept d i) := by
  by_cases h : Reuses d
  · have hnew : newIndex d = d.lastIndex := if_pos h
    have hpos : 0 < d.lastIndex := Nat.sub_pos_of_lt h.1
    have hq := hd.parent_lt _ hpos hd.lastIndex_lt
    have hlt : i < d.elementCount := hnew ▸ hi |>.trans_lt hd.lastIndex_lt
    have hkept : (if i = (d.elements d.lastIndex).parent then
        (d.elements i).children.erase d.lastIndex else (d.elements i).children) = kept d i := by
      split_ifs with heq
      · rw [kept, hnew]
      · exact (kept_eq hd hlt fun _ => heq).symm
    have hempty : i = d.lastIndex → kept d i = [] := by
      rintro rfl
      rw [kept, hd.children_last, List.erase_nil]
    rw [insert_reuse h, elements_changeParent hq.ne (hnew ▸ hne), hkept, hnew, newElement, if_pos h]
    rw [hnew] at hne
    by_cases hi' : i = d.lastIndex
    · have hip : i ≠ p := fun h => hne (h ▸ hi')
      simp only [if_pos hi', if_neg hip, hempty hi']
      rw [THtmlParser.last, hi']
    · simp only [if_neg hi']
  · have hnew : newIndex d = d.elementCount := if_neg h
    rw [insert_grow h, elements_grow hp.ne, hnew, newElement, if_neg h]
    by_cases hi' : i = d.elementCount
    · simp only [if_pos hi']
    · have hlt : i < d.elementCount := lt_of_le_of_ne (hnew ▸ hi) hi'
      simp only [if_neg hi', kept_eq hd hlt fun hre => absurd hre h]

lemma mem_place {children : List ℕ} : c ∈ place children index i ↔ c = i ∨ c ∈ children := by
  obtain ⟨a, b, rfl, h⟩ := place_split children index i
  rw [h]
  simp only [List.mem_append, List.mem_cons]
  tauto

lemma nodup_place {children : List ℕ} (hi : i ∉ children) (h : children.Nodup) :
    (place children index i).Nodup := by
  obtain ⟨a, b, rfl, hplace⟩ := place_split children index i
  rw [hplace, List.nodup_middle]
  exact List.nodup_cons.mpr ⟨hi, h⟩

lemma mem_kept (hd : Forest d) (hi : i < d.elementCount) :
    c ∈ kept d i ↔ c ≠ newIndex d ∧ c ∈ (d.elements i).children :=
  (hd.nodup i hi).mem_erase_iff

lemma newIndex_le (hd : Forest d) :
    newIndex d ≤ d.elementCount ∧ d.elementCount ≤ newIndex d + 1 := by
  have := hd.pos
  rw [newIndex, lastIndex]
  split_ifs <;> omega

lemma lt_newIndex (hd : Forest d) (hp : p < d.elementCount) (hne : p ≠ newIndex d) :
    p < newIndex d := by
  have := newIndex_le hd
  omega

/-- The table `d'` is `d` with an element of the content `e` at the `index` among the children of
`p`. -/
structure Inserted (d d' : THtmlParser) (p : ℕ) (index : ℤ) (e : THtmlElement) : Prop where
  count_eq : d'.elementCount = newIndex d + 1
  old : ∀ i < newIndex d, d'.elements i = relink (d.elements i) (d.elements i).parent
    (if i = p then place (kept d i) index (newIndex d) else kept d i)
  new : d'.elements (newIndex d) = relink e p []

lemma inserted (hd : Forest d) (hp : p < d.elementCount) (hne : p ≠ newIndex d) (index : ℤ) :
    Inserted d (d.insertNewElement p index) p index (newElement d) where
  count_eq := elementCount_insert hd p index
  old i hi := by rw [elements_insert hd hp hne hi.le, if_neg hi.ne, if_neg hi.ne, if_neg hi.ne]
  new := by rw [elements_insert hd hp hne le_rfl, if_pos rfl, if_pos rfl, if_pos rfl]

namespace Inserted

variable {e : THtmlElement}

lemma lastIndex_eq (h : Inserted d d' p index e) : d'.lastIndex = newIndex d := by
  rw [lastIndex, h.count_eq]
  rfl

lemma modify (h : Inserted d d' p index e) {f : THtmlElement → THtmlElement}
    (hf : f (relink e p []) = relink (f e) p []) :
    Inserted d (d'.modify (newIndex d) f) p index (f e) where
  count_eq := h.count_eq
  old i hi := by rw [elements_modify_ne _ hi.ne, h.old i hi]
  new := by rw [elements_modify_self, h.new, hf]

lemma parent_old (h : Inserted d d' p index e) (hi : i < newIndex d) :
    (d'.elements i).parent = (d.elements i).parent := by rw [h.old i hi]; rfl

lemma children_old (h : Inserted d d' p index e) (hi : i < newIndex d) :
    (d'.elements i).children = if i = p then place (kept d i) index (newIndex d) else kept d i := by
  rw [h.old i hi]
  rfl

/-- **A new element keeps the forest**, except for one below itself. -/
theorem forest (h : Inserted d d' p index e) (hd : Forest d) (hp : p < d.elementCount)
    (hne : p ≠ newIndex d) : Forest d' := by
  have hcount := h.count_eq
  have hpn := lt_newIndex hd hp hne
  have hle := newIndex_le hd
  constructor
  · omega
  · rw [h.parent_old (by omega), hd.root]
  · intro i hpos hi
    rcases Nat.lt_or_ge i (newIndex d) with hlt | hge
    · rw [h.parent_old hlt]
      exact hd.parent_lt i hpos (by omega)
    · obtain rfl : i = newIndex d := by omega
      rw [h.new]
      exact hpn
  · intro q hq c hc
    rcases Nat.lt_or_ge q (newIndex d) with hlt | hge
    · have hold {c : ℕ} (hc : c ∈ kept d q) :
          0 < c ∧ c < d'.elementCount ∧ (d'.elements c).parent = q := by
        rw [mem_kept hd (by omega)] at hc
        obtain ⟨hpos, hlt, hparent⟩ := hd.child q (by omega) c hc.2
        exact ⟨hpos, by omega, (h.parent_old (by omega)).trans hparent⟩
      rw [h.children_old hlt] at hc
      split_ifs at hc with hqp
      · rcases mem_place.mp hc with rfl | hc
        · rw [h.new]
          exact ⟨by omega, by omega, hqp.symm⟩
        · exact hold hc
      · exact hold hc
    · obtain rfl : q = newIndex d := by omega
      rw [h.new] at hc
      exact absurd hc List.not_mem_nil
  · intro q hq
    rcases Nat.lt_or_ge q (newIndex d) with hlt | hge
    · have hnodup : (kept d q).Nodup := (hd.nodup q (by omega)).erase _
      rw [h.children_old hlt]
      split_ifs
      · exact nodup_place (fun hmem => ((mem_kept hd (by omega)).mp hmem).1 rfl) hnodup
      · exact hnodup
    · obtain rfl : q = newIndex d := by omega
      rw [h.new]
      exact List.nodup_nil

end Inserted

/-- Every element is listed at its parent, as long as none is removed. -/
def Linked (d : THtmlParser) : Prop :=
  ∀ i, 0 < i → i < d.elementCount → i ∈ (d.elements (d.elements i).parent).children

lemma linked_new : Linked .new := fun i hi hlt => absurd hlt (by simp [THtmlParser.new]; omega)

lemma Linked.modify (h : Linked d) (i : ℕ) {f : THtmlElement → THtmlElement}
    (hparent : ∀ e, (f e).parent = e.parent) (hchildren : ∀ e, (f e).children = e.children) :
    Linked (d.modify i f) := by
  have hlinks : ∀ j, ((d.modify i f).elements j).parent = (d.elements j).parent ∧
      ((d.modify i f).elements j).children = (d.elements j).children := by
    intro j
    rw [elements_modify]
    split_ifs with hj
    · rw [hj]
      exact ⟨hparent _, hchildren _⟩
    · exact ⟨rfl, rfl⟩
  intro j hpos hlt
  rw [(hlinks j).1, (hlinks _).2]
  exact h j hpos hlt

lemma Inserted.linked {e : THtmlElement} (h : Inserted d d' p index e) (hd : Forest d)
    (hl : Linked d) (hp : p < d.elementCount) (hne : p ≠ newIndex d) : Linked d' := by
  have hpn := lt_newIndex hd hp hne
  have hle := newIndex_le hd
  have hcount := h.count_eq
  intro i hpos hlt
  rcases Nat.lt_or_ge i (newIndex d) with hi | hi
  · have hparent := hd.parent_lt i hpos (by omega)
    have hmem : i ∈ kept d (d.elements i).parent :=
      (mem_kept hd (by omega)).mpr ⟨hi.ne, hl i hpos (by omega)⟩
    rw [h.parent_old hi, h.children_old (by omega)]
    split_ifs
    · exact mem_place.mpr (.inr hmem)
    · exact hmem
  · obtain rfl : i = newIndex d := by omega
    have hparent : (d'.elements (newIndex d)).parent = p := by rw [h.new]; rfl
    rw [hparent, h.children_old hpn, if_pos rfl]
    exact mem_place.mpr (.inl rfl)

/-! ### The recursions end -/

/-- The number of an element's ancestors is at most its index. -/
lemma depth_some {fuel : ℕ} (hd : Forest d) (hi : i < d.elementCount) (hfuel : i < fuel) :
    ∃ n, THtmlParser.depth fuel d i = some n := by
  induction fuel generalizing i with
  | zero => omega
  | succ fuel ih =>
    rw [THtmlParser.depth]
    split_ifs with hpos
    · have hlt := hd.parent_lt i hpos hi
      obtain ⟨n, hn⟩ := ih (hlt.trans hi) (by omega)
      exact ⟨n + 1, by rw [hn]; rfl⟩
    · exact ⟨0, rfl⟩

lemma parentExists_some {fuel : ℕ} (hd : Forest d) (hi : i < d.elementCount) (hfuel : i < fuel)
    (tag : QString) : ∃ b, THtmlParser.parentExists fuel d i tag = some b := by
  induction fuel generalizing i with
  | zero => omega
  | succ fuel ih =>
    rw [THtmlParser.parentExists]
    split_ifs with htag hzero
    · exact ⟨_, rfl⟩
    · exact ⟨_, rfl⟩
    · have hlt := hd.parent_lt i (Nat.pos_of_ne_zero hzero) hi
      exact ih (hlt.trans hi) (by omega)

end TreeFrog.HtmlForest
