import Mathlib.Data.List.Nodup
import Mathlib.Data.List.Sublists

/-!
Singly linked lists in a heap: the segments of the heap, unlinking a node behind the one that a
trailing pointer stands at, and what is left of a list after some of its nodes are deleted.
-/

namespace TreeFrog.LinkedList

/-- A node: what it holds and the pointer to the next one. -/
structure Node (α γ : Type*) where
  content : γ
  next : Option α
  deriving DecidableEq

/-- The nodes in memory. Nothing is at the address of a deleted one. -/
abbrev Heap (α γ : Type*) := α → Option (Node α γ)

variable {α γ : Type*}

namespace Heap

def content (h : Heap α γ) (a : α) : Option γ := (h a).map Node.content

variable [DecidableEq α]

/-- `p->next = b` -/
def setNext (h : Heap α γ) (p : α) (b : Option α) : Heap α γ :=
  fun a => if a = p then (h a).map ({ · with next := b }) else h a

/-- `delete x` -/
def free (h : Heap α γ) (x : α) : Heap α γ := fun a => if a = x then none else h a

@[simp] lemma setNext_self (h : Heap α γ) (p : α) (b : Option α) :
    h.setNext p b p = (h p).map ({ · with next := b }) := by
  simp [setNext]

@[simp] lemma setNext_of_ne (h : Heap α γ) {a p : α} (b : Option α) (hp : a ≠ p) :
    h.setNext p b a = h a := by
  simp [setNext, hp]

@[simp] lemma free_self (h : Heap α γ) (x : α) : h.free x x = none := by simp [free]

@[simp] lemma free_of_ne (h : Heap α γ) {a x : α} (hx : a ≠ x) : h.free x a = h a := by
  simp [free, hx]

@[simp] lemma content_setNext (h : Heap α γ) (p : α) (b : Option α) (a : α) :
    (h.setNext p b).content a = h.content a := by
  by_cases hp : a = p
  · subst hp
    simp [content, Option.map_map, Function.comp_def]
  · simp [content, hp]

lemma content_free (h : Heap α γ) {a x : α} (hx : a ≠ x) : (h.free x).content a = h.content a := by
  simp [content, hx]

end Heap

/-- From `a` the `next` pointers lead over the nodes `l` to `b`. -/
inductive Seg (h : Heap α γ) : Option α → List α → Option α → Prop
  | nil (a : Option α) : Seg h a [] a
  | cons {a : α} {n : Node α γ} {l : List α} {b : Option α} :
      h a = some n → Seg h n.next l b → Seg h (some a) (a :: l) b

namespace Seg

variable {h h' : Heap α γ} {a b : Option α} {l l' : List α} {p x : α}

lemma head_eq (hs : Seg h a l none) : a = l.head? := by
  cases hs <;> rfl

lemma cons_inv (hs : Seg h a (x :: l) b) : a = some x ∧ ∃ n, h x = some n ∧ Seg h n.next l b := by
  cases hs with
  | cons hn hs => exact ⟨rfl, _, hn, hs⟩

lemma split (hs : Seg h a (l ++ l') b) : ∃ c, Seg h a l c ∧ Seg h c l' b := by
  induction l generalizing a with
  | nil => exact ⟨a, .nil a, hs⟩
  | cons x l ih =>
    obtain ⟨rfl, n, hn, hs⟩ := cons_inv hs
    obtain ⟨c, h₁, h₂⟩ := ih hs
    exact ⟨c, .cons hn h₁, h₂⟩

lemma append {c : Option α} (h₁ : Seg h a l c) (h₂ : Seg h c l' b) : Seg h a (l ++ l') b := by
  induction h₁ with
  | nil => exact h₂
  | cons hn _ ih => exact .cons hn (ih h₂)

lemma congr (hs : Seg h a l b) (hc : ∀ y ∈ l, h' y = h y) : Seg h' a l b := by
  induction hs with
  | nil => exact .nil _
  | cons hn _ ih =>
    refine .cons ((hc _ List.mem_cons_self).trans hn) (ih fun y hy => ?_)
    exact hc y (List.mem_cons_of_mem _ hy)

lemma congr_next (hs : Seg h a l b) (hc : ∀ y ∈ l, (h' y).map Node.next = (h y).map Node.next) :
    Seg h' a l b := by
  induction hs with
  | nil => exact .nil _
  | cons hn _ ih =>
    have hy := hc _ List.mem_cons_self
    rw [hn] at hy
    obtain ⟨n, hn', hnext⟩ := Option.map_eq_some_iff.mp hy
    refine .cons hn' ?_
    rw [hnext]
    exact ih fun y hy => hc y (List.mem_cons_of_mem _ hy)

lemma node (hs : Seg h a l b) (hx : x ∈ l) : ∃ n, h x = some n := by
  induction hs with
  | nil => cases hx
  | @cons y n l b hn _ ih =>
    rcases List.mem_cons.mp hx with rfl | hx
    · exact ⟨n, hn⟩
    · exact ih hx

lemma unique (hs : Seg h a l none) (hs' : Seg h a l' none) : l = l' := by
  induction l generalizing a l' with
  | nil =>
    cases hs with
    | nil => cases hs'; rfl
  | cons x l ih =>
    obtain ⟨rfl, n, hn, hs⟩ := cons_inv hs
    cases hs' with
    | cons hn' hs' =>
      obtain rfl : n = _ := Option.some.inj (hn.symm.trans hn')
      rw [ih hs hs']

lemma nodup (hs : Seg h a l none) : l.Nodup := by
  induction l generalizing a with
  | nil => exact List.nodup_nil
  | cons x l ih =>
    obtain ⟨rfl, n, hn, ht⟩ := cons_inv hs
    refine List.nodup_cons.mpr ⟨fun hx => ?_, ih ht⟩
    -- the list from the second occurrence on would be the whole list
    obtain ⟨l₁, l₂, rfl⟩ := List.append_of_mem hx
    obtain ⟨c, -, h₂⟩ := split ht
    obtain rfl := (cons_inv h₂).1
    have hlen := congrArg List.length (unique hs h₂)
    simp only [List.length_cons, List.length_append] at hlen
    omega

variable [DecidableEq α]

lemma unlink {n : Node α γ} (hs : Seg h a (l ++ p :: x :: l') none) (hn : h x = some n) :
    Seg ((h.setNext p n.next).free x) a (l ++ p :: l') none := by
  have hd := hs.nodup
  obtain ⟨c, h₁, h₂⟩ := split hs
  obtain ⟨rfl, m, hm, h₃⟩ := cons_inv h₂
  obtain ⟨hmx, k, hk, h₄⟩ := cons_inv h₃
  obtain rfl : k = n := Option.some.inj (hk.symm.trans hn)
  rw [List.nodup_append, List.nodup_cons, List.nodup_cons] at hd
  obtain ⟨-, ⟨hp, hx, -⟩, hl⟩ := hd
  have hpx : p ≠ x := fun e => hp (e ▸ List.mem_cons_self)
  refine append (h₁.congr fun y hy => ?_) (.cons (n := { m with next := k.next }) ?_
    (h₄.congr fun y hy => ?_))
  · have hyp : y ≠ p := hl y hy p List.mem_cons_self
    have hyx : y ≠ x := hl y hy x (List.mem_cons_of_mem _ List.mem_cons_self)
    rw [Heap.free_of_ne _ hyx, Heap.setNext_of_ne _ _ hyp]
  · rw [Heap.free_of_ne _ hpx, Heap.setNext_self, hm, Option.map_some]
  · have hyp : y ≠ p := fun e => hp (e ▸ List.mem_cons_of_mem _ hy)
    have hyx : y ≠ x := fun e => hx (e ▸ hy)
    rw [Heap.free_of_ne _ hyx, Heap.setNext_of_ne _ _ hyp]

lemma next_unlink {n : Node α γ} (hs : Seg h a (l ++ p :: x :: l') none) (hn : h x = some n) :
    ∃ k, ((h.setNext p n.next).free x) p = some k ∧ k.next = l'.head? := by
  obtain ⟨c, -, h₂⟩ := split (unlink hs hn)
  obtain ⟨-, k, hk, h₃⟩ := cons_inv h₂
  exact ⟨k, hk, h₃.head_eq⟩

end Seg

/-- What is left of the list `l` when some nodes behind its first one have been deleted. -/
structure Shrunk (h h' : Heap α γ) (a : Option α) (l l' : List α) : Prop where
  seg : Seg h' a l' none
  sublist : l'.Sublist l
  head : l'.head? = l.head?
  deleted : ∀ x ∈ l, x ∉ l' → h' x = none
  content : ∀ x ∈ l', h'.content x = h.content x
  frame : ∀ x ∉ l, h' x = h x

namespace Shrunk

variable {h h₁ h₂ : Heap α γ} {a : Option α} {l l₁ l₂ l' : List α}

lemma refl (hs : Seg h a l none) : Shrunk h h a l l where
  seg := hs
  sublist := List.Sublist.refl l
  head := rfl
  deleted := fun _ hx hn => absurd hx hn
  content := fun _ _ => rfl
  frame := fun _ _ => rfl

lemma trans (s₁ : Shrunk h h₁ a l l₁) (s₂ : Shrunk h₁ h₂ a l₁ l₂) : Shrunk h h₂ a l l₂ where
  seg := s₂.seg
  sublist := s₂.sublist.trans s₁.sublist
  head := s₂.head.trans s₁.head
  deleted := by
    intro x hx hn
    by_cases h₁x : x ∈ l₁
    · exact s₂.deleted x h₁x hn
    · rw [s₂.frame x h₁x]
      exact s₁.deleted x hx h₁x
  content := fun x hx => (s₂.content x hx).trans (s₁.content x (s₂.sublist.subset hx))
  frame := fun x hx =>
    (s₂.frame x fun hm => hx (s₁.sublist.subset hm)).trans (s₁.frame x hx)

variable [DecidableEq α]

lemma unlink {p x : α} {n : Node α γ} (hs : Seg h a (l ++ p :: x :: l') none)
    (hn : h x = some n) :
    Shrunk h ((h.setNext p n.next).free x) a (l ++ p :: x :: l') (l ++ p :: l') where
  seg := hs.unlink hn
  sublist := (List.Sublist.refl l).append ((List.sublist_cons_self x l').cons_cons p)
  head := by cases l <;> rfl
  deleted := by
    intro y hy hny
    have hyx : y = x := by
      simp only [List.mem_append, List.mem_cons, not_or] at hy hny
      tauto
    rw [hyx, Heap.free_self]
  content := by
    intro y hy
    have hyx : y ≠ x := by
      rintro rfl
      have hd := hs.nodup
      rw [show l ++ p :: y :: l' = (l ++ [p]) ++ y :: l' by simp] at hd
      have hy' : y ∈ (l ++ [p]) ++ l' := by simpa using hy
      exact (List.nodup_cons.mp (List.nodup_middle.mp hd)).1 hy'
    rw [Heap.content_free _ hyx, Heap.content_setNext]
  frame := by
    intro y hy
    have hyp : y ≠ p := fun e => hy (by simp [e])
    have hyx : y ≠ x := fun e => hy (by simp [e])
    rw [Heap.free_of_ne _ hyx, Heap.setNext_of_ne _ _ hyp]

end Shrunk

/-! ### Allocation -/

/-- Nodes that are made one after another and are never deleted: the addresses from `size` on are
free. -/
structure Memory (γ : Type*) where
  heap : Heap ℕ γ
  size : ℕ
  free : ∀ a, size ≤ a → heap a = none

namespace Memory

variable {γ : Type*} (m : Memory γ) {a b : ℕ}

/-- Nothing has been made yet. -/
def empty : Memory γ := ⟨fun _ => none, 0, fun _ _ => rfl⟩

/-- `new Node(v)`, at the address `size` -/
def new (v : γ) : Memory γ where
  heap := fun a => if a = m.size then some ⟨v, none⟩ else m.heap a
  size := m.size + 1
  free a ha := by rw [if_neg (by omega), m.free a (by omega)]

/-- `a->next = b` -/
def setNext (a : ℕ) (b : Option ℕ) : Memory γ where
  heap := m.heap.setNext a b
  size := m.size
  free x hx := by
    by_cases hxa : x = a
    · rw [hxa, Heap.setNext_self, ← hxa, m.free x hx, Option.map_none]
    · rw [Heap.setNext_of_ne _ _ hxa, m.free x hx]

/-- `a->next` -/
def next (a : ℕ) : Option ℕ := (m.heap a).bind Node.next

variable {m}

lemma lt_size {n : Node ℕ γ} (h : m.heap a = some n) : a < m.size := by
  by_contra ha
  rw [m.free a (by omega)] at h
  cases h

lemma next_eq {n : Node ℕ γ} (h : m.heap a = some n) : m.next a = n.next := by
  rw [next, h, Option.bind_some]

@[simp] lemma size_setNext (b : Option ℕ) : (m.setNext a b).size = m.size := rfl

@[simp] lemma heap_setNext_of_ne (b : Option ℕ) {x : ℕ} (hx : x ≠ a) :
    (m.setNext a b).heap x = m.heap x := Heap.setNext_of_ne _ _ hx

@[simp] lemma content_setNext (b : Option ℕ) (x : ℕ) :
    (m.setNext a b).heap.content x = m.heap.content x := Heap.content_setNext _ _ _ _

lemma heap_new_self (v : γ) : (m.new v).heap m.size = some ⟨v, none⟩ := if_pos rfl

lemma heap_new (v : γ) {n : Node ℕ γ} (h : m.heap a = some n) : (m.new v).heap a = some n :=
  (if_neg (Nat.ne_of_lt (lt_size h))).trans h

lemma content_new (v : γ) {c : γ} (h : m.heap.content a = some c) :
    (m.new v).heap.content a = some c := by
  obtain ⟨n, hn, hc⟩ := Option.map_eq_some_iff.mp h
  rw [Heap.content, heap_new v hn, Option.map_some, hc]

end Memory

lemma Seg.link [DecidableEq α] {h : Heap α γ} {a : Option α} {l : List α} {x y : α} {v : γ}
    (hs : Seg h a l none) (hx : l.getLast? = some x) (hy : h y = some ⟨v, none⟩) (hyl : y ∉ l) :
    Seg (h.setNext x (some y)) a (l ++ [y]) none := by
  induction l generalizing a with
  | nil => cases hx
  | cons z l ih =>
    have hnodup := hs.nodup
    obtain ⟨hyz, hyl⟩ := not_or.mp (List.mem_cons.not.mp hyl)
    obtain ⟨rfl, n, hn, ht⟩ := hs.cons_inv
    cases l with
    | nil =>
      obtain rfl : z = x := Option.some.inj hx
      refine .cons (n := { n with next := some y }) (by rw [Heap.setNext_self, hn]; rfl) ?_
      exact .cons ((Heap.setNext_of_ne _ _ hyz).trans hy) (.nil none)
    | cons w l =>
      have hzx : z ≠ x := by
        rintro rfl
        exact (List.nodup_cons.mp hnodup).1 (List.mem_of_getLast? hx)
      exact .cons ((Heap.setNext_of_ne _ _ hzx).trans hn) (ih ht hx hyl)

lemma Seg.getElem? {h : Heap α γ} {a : Option α} {l : List α} (hs : Seg h a l none) {i : ℕ} {x : α}
    (hx : l[i]? = some x) : ∃ n, h x = some n ∧ n.next = l[i + 1]? := by
  induction i generalizing a l with
  | zero =>
    cases l with
    | nil => cases hx
    | cons y l =>
      obtain rfl : y = x := Option.some.inj hx
      obtain ⟨-, n, hn, ht⟩ := hs.cons_inv
      exact ⟨n, hn, by rw [ht.head_eq, List.head?_eq_getElem?]; rfl⟩
  | succ i ih =>
    cases l with
    | nil => cases hx
    | cons y l =>
      obtain ⟨-, n, hn, ht⟩ := hs.cons_inv
      exact ih ht hx

end TreeFrog.LinkedList
