import Mathlib.Algebra.Order.Ring.Int
import TreeFrog.LinkedList

/-!
`THazardPtrManager` and `THazardRemoverThread`: one run of the thread over the list of the retired
objects and the list of the guard records, with nothing pushed meanwhile.
-/

namespace TreeFrog.HazardPtr

open TreeFrog.LinkedList

/-! ### The manager -/

/-- `TAtomicPtr`: an address with marks in its two lowest bits. -/
structure TAtomicPtr where
  atomicPtr : ℕ := 0
  deriving DecidableEq

def TAtomicPtr.mask : ℕ := 4

/-- `load`: the pointer without the marks, and the mark. -/
def TAtomicPtr.load (p : TAtomicPtr) : Option ℕ × Bool :=
  let ptr := p.atomicPtr / mask * mask
  (if ptr = 0 then none else some ptr, p.atomicPtr % 2 = 1)

/-- What a `THazardPtrRecord` holds. -/
structure THazardPtrRecord where
  hazptr : TAtomicPtr := {}
  deriving DecidableEq

/-- A head, its counter and the nodes: `objHead` and `objCount`, `hprHead` and `hprCount`. -/
structure Stack (γ : Type*) where
  head : Option ℕ := none
  count : ℤ := 0
  heap : Heap ℕ γ := fun _ => none

namespace Stack

variable {γ : Type*}

/-- `push` without another thread: the exchange succeeds at once. -/
def push (s : Stack γ) (ptr : ℕ) (content : γ) : Stack γ where
  head := some ptr
  count := s.count + 1
  heap := fun a => if a = ptr then some ⟨content, s.head⟩ else s.heap a

/-- `pop`, of an object and of a record. There is no result where a deleted node is read. -/
def pop (s : Stack γ) (ptr prev : Option ℕ) : Option (Bool × Stack γ) :=
  match ptr, prev with
  | some x, some p =>
    match s.heap x, s.heap p with
    | some n, some _ =>
      some (true, { s with heap := s.heap.setNext p n.next, count := s.count - 1 })
    | _, _ => none
  | _, _ => some (false, s)

def delete (s : Stack γ) (x : ℕ) : Stack γ := { s with heap := s.heap.free x }

/-- `p->next` -/
def next (s : Stack γ) (p : Option ℕ) : Option (Option ℕ) :=
  p.bind fun a => (s.heap a).map Node.next

end Stack

structure THazardPtrManager where
  obj : Stack Unit := {}
  hpr : Stack THazardPtrRecord := {}
  gcBufferSize : ℤ := 100
  buffer : 100 ≤ gcBufferSize := by decide

namespace THazardPtrManager

def setGarbageCollectionBufferSize (m : THazardPtrManager) (size : ℤ) : THazardPtrManager :=
  { m with gcBufferSize := max size 100, buffer := le_max_right size 100 }

/-- The number of objects from which on `push` waits. -/
def limit (m : THazardPtrManager) : ℤ := max m.gcBufferSize (m.hpr.count * 2)

/-! ### The thread -/

/-- The loop over the records for the object `crtObj`; the result is `guardp` behind it. -/
def recordLoop (crtObj : ℕ) :
    ℕ → Stack THazardPtrRecord → (hpr prevHpr guardp : Option ℕ) →
      Option (Option ℕ × Stack THazardPtrRecord)
  | 0, _, _, _, _ => none
  | _ + 1, s, none, _, guardp => some (guardp, s)
  | k + 1, s, some hpr, prevHpr, _ => do
    let record ← s.heap hpr
    let (guardp, mark) := record.content.hazptr.load
    -- an unused record
    let (popped, s) ← if mark && guardp.isNone then s.pop (some hpr) prevHpr else some (false, s)
    if popped then
      let s := s.delete hpr
      recordLoop crtObj k s (← s.next prevHpr) prevHpr guardp
    else if some crtObj = guardp then some (guardp, s)
    else recordLoop crtObj k s (← s.next (some hpr)) (some hpr) guardp

/-- The loop over the objects. -/
def objectLoop (fuel : ℕ) (hprhead : Option ℕ) :
    ℕ → THazardPtrManager → (crtObj prevObj : Option ℕ) → Option THazardPtrManager
  | 0, _, _, _ => none
  | _ + 1, m, none, _ => some m
  | k + 1, m, some crtObj, prevObj => do
    let (guardp, hpr) ← recordLoop crtObj fuel m.hpr hprhead none none
    let (popped, obj) ←
      if some crtObj ≠ guardp then m.obj.pop (some crtObj) prevObj else some (false, m.obj)
    if popped then
      let obj := obj.delete crtObj
      objectLoop fuel hprhead k { m with obj, hpr } (← obj.next prevObj) prevObj
    else
      objectLoop fuel hprhead k { m with obj, hpr } (← obj.next (some crtObj)) (some crtObj)

/-- `run`, with `fuel` turns for every loop. -/
def runLoop (fuel : ℕ) : ℕ → THazardPtrManager → Option THazardPtrManager
  | 0, _ => none
  | k + 1, m => do
    let m' ← objectLoop fuel m.hpr.head fuel m m.obj.head none
    if m'.obj.count ≤ m.obj.count ∨ m'.hpr.count ≤ m.hpr.count then some m' else runLoop fuel k m'

def run (fuel : ℕ) (m : THazardPtrManager) : Option THazardPtrManager := runLoop fuel fuel m

end THazardPtrManager

/-! ### Unlinking behind the trailing pointer -/

namespace Stack

variable {γ : Type*} {s s' : Stack γ} {l l' : List ℕ} {p x : ℕ}

/-- The nodes of the list are those of `l`. -/
def IsList (s : Stack γ) (l : List ℕ) : Prop := Seg s.heap s.head l none

/-- What is left when some nodes behind the first are popped and deleted, each counted once. -/
structure Swept (s s' : Stack γ) (l l' : List ℕ) : Prop where
  shrunk : Shrunk s.heap s'.heap s.head l l'
  head : s'.head = s.head
  count : s'.count - l'.length = s.count - l.length

/-- `pop` and `delete` of `x` behind `p`. -/
def unlink (s : Stack γ) (p x : ℕ) (next : Option ℕ) : Stack γ where
  head := s.head
  count := s.count - 1
  heap := (s.heap.setNext p next).free x

lemma Swept.refl (hs : s.IsList l) : Swept s s l l where
  shrunk := .refl hs
  head := rfl
  count := rfl

lemma Swept.trans {s₁ s₂ : Stack γ} {l₁ l₂ : List ℕ} (h₁ : Swept s s₁ l l₁)
    (h₂ : Swept s₁ s₂ l₁ l₂) : Swept s s₂ l l₂ where
  shrunk := h₁.shrunk.trans (h₁.head ▸ h₂.shrunk)
  head := h₂.head.trans h₁.head
  count := h₂.count.trans h₁.count

lemma Swept.isList (h : Swept s s' l l') : s'.IsList l' := by
  have hseg := h.shrunk.seg
  rw [← h.head] at hseg
  exact hseg

lemma Swept.count_le (h : Swept s s' l l') : s'.count ≤ s.count := by
  have hlen := h.shrunk.sublist.length_le
  have hcount := h.count
  omega

lemma isList_empty : ({} : Stack γ).IsList [] := .nil none

lemma IsList.push (hs : s.IsList l) (hx : s.heap x = none) (c : γ) :
    (s.push x c).IsList (x :: l) := by
  refine .cons (if_pos rfl) (Seg.congr hs fun y hy => if_neg ?_)
  rintro rfl
  obtain ⟨n, hn⟩ := Seg.node hs hy
  rw [hx] at hn
  cases hn

lemma IsList.node (hs : s.IsList l) (hx : x ∈ l) : ∃ n, s.heap x = some n := Seg.node hs hx

lemma IsList.next_eq {n : Node ℕ γ} (hs : s.IsList (l ++ x :: l')) (hn : s.heap x = some n) :
    n.next = l'.head? := by
  obtain ⟨c, -, hseg⟩ := Seg.split hs
  obtain ⟨-, k, hk, hseg⟩ := hseg.cons_inv
  obtain rfl : k = n := Option.some.inj (hk.symm.trans hn)
  exact hseg.head_eq

lemma IsList.pop {n : Node ℕ γ} (hs : s.IsList (l ++ p :: x :: l')) (hn : s.heap x = some n) :
    ∃ s', s.pop (some x) (some p) = some (true, s') ∧ s'.delete x = s.unlink p x n.next := by
  obtain ⟨k, hk⟩ := hs.node (x := p) (by simp)
  refine ⟨{ s with heap := s.heap.setNext p n.next, count := s.count - 1 }, ?_, rfl⟩
  simp only [Stack.pop, hn, hk]

lemma IsList.swept {n : Node ℕ γ} (hs : s.IsList (l ++ p :: x :: l')) (hn : s.heap x = some n) :
    Swept s (s.unlink p x n.next) (l ++ p :: x :: l') (l ++ p :: l') where
  shrunk := .unlink hs hn
  head := rfl
  count := by
    simp only [unlink, List.length_append, List.length_cons]
    omega

lemma IsList.next_unlink {n : Node ℕ γ} (hs : s.IsList (l ++ p :: x :: l'))
    (hn : s.heap x = some n) : (s.unlink p x n.next).next (some p) = some l'.head? := by
  obtain ⟨k, hk, hnext⟩ := Seg.next_unlink hs hn
  simp [next, unlink, hk, hnext]

end Stack

/-! ### The records -/

namespace THazardPtrManager

abbrev Records := Stack THazardPtrRecord

/-- The destructor of its owner has left the record to the thread. -/
def Unused (r : THazardPtrRecord) : Prop := r.hazptr.load = (none, true)

/-- The object that the record at `r` guards. -/
def guardOf (s : Records) (r : ℕ) : Option ℕ := (s.heap.content r).bind (·.hazptr.load.1)

/-- One of the records guards the object at `a`. -/
def Guarded (s : Records) (recs : List ℕ) (a : ℕ) : Prop := ∃ r ∈ recs, guardOf s r = some a

/-- What the thread may do to the records: unused ones behind the first go. -/
structure Retired (s s' : Records) (recs recs' : List ℕ) : Prop where
  swept : Stack.Swept s s' recs recs'
  unused : ∀ r ∈ recs, r ∉ recs' → ∃ c, s.heap.content r = some c ∧ Unused c

instance (s : Records) (recs : List ℕ) (a : ℕ) : Decidable (Guarded s recs a) :=
  inferInstanceAs (Decidable (∃ r ∈ recs, guardOf s r = some a))

variable {s s' : Records} {recs recs' l l' : List ℕ} {crtObj p x k : ℕ}
  {prev guardp : Option ℕ} {n : Node ℕ THazardPtrRecord}

lemma guardOf_node (hn : s.heap x = some n) : guardOf s x = n.content.hazptr.load.1 := by
  simp [guardOf, Heap.content, hn]

lemma Retired.refl (hs : s.IsList recs) : Retired s s recs recs where
  swept := .refl hs
  unused := fun _ hr hn => absurd hr hn

lemma Retired.trans {s₁ s₂ : Records} {l₁ l₂ : List ℕ} (h₁ : Retired s s₁ l l₁)
    (h₂ : Retired s₁ s₂ l₁ l₂) : Retired s s₂ l l₂ where
  swept := h₁.swept.trans h₂.swept
  unused := by
    intro r hr hn
    by_cases hr₁ : r ∈ l₁
    · obtain ⟨c, hc, hu⟩ := h₂.unused r hr₁ hn
      exact ⟨c, (h₁.swept.shrunk.content r hr₁).symm.trans hc, hu⟩
    · exact h₁.unused r hr hr₁

lemma Retired.guardOf_eq (h : Retired s s' recs recs') {r : ℕ} (hr : r ∈ recs') :
    guardOf s' r = guardOf s r := by
  simp only [guardOf, h.swept.shrunk.content r hr]

lemma Retired.guarded_iff (h : Retired s s' recs recs') (a : ℕ) :
    Guarded s' recs' a ↔ Guarded s recs a := by
  constructor
  · rintro ⟨r, hr, ha⟩
    exact ⟨r, h.swept.shrunk.sublist.subset hr, (h.guardOf_eq hr).symm.trans ha⟩
  · rintro ⟨r, hr, ha⟩
    by_cases hr' : r ∈ recs'
    · exact ⟨r, hr', (h.guardOf_eq hr').trans ha⟩
    · obtain ⟨c, hc, hu⟩ := h.unused r hr hr'
      have hnone : guardOf s r = none := by
        unfold Unused at hu
        simp [guardOf, hc, hu]
      rw [hnone] at ha
      cases ha

lemma Retired.unlink (hs : s.IsList (l ++ p :: x :: l')) (hn : s.heap x = some n)
    (hu : Unused n.content) :
    Retired s (s.unlink p x n.next) (l ++ p :: x :: l') (l ++ p :: l') where
  swept := hs.swept hn
  unused := by
    intro r hr hr'
    have hrx : r = x := by
      simp only [List.mem_append, List.mem_cons, not_or] at hr hr'
      tauto
    refine ⟨n.content, ?_, hu⟩
    rw [hrx, Heap.content, hn, Option.map_some]

lemma recordLoop_keep (hn : s.heap x = some n) (hk : Unused n.content → prev = none) :
    recordLoop crtObj (k + 1) s (some x) prev guardp =
      if some crtObj = guardOf s x then some (guardOf s x, s)
      else recordLoop crtObj k s n.next (some x) (guardOf s x) := by
  rw [guardOf_node hn]
  by_cases hu : Unused n.content
  · obtain rfl := hk hu
    unfold Unused at hu
    simp [recordLoop, hn, hu, Stack.pop, Stack.next]
  · simp only [recordLoop, hn, Stack.next, Option.bind_eq_bind, Option.bind_some]
    by_cases hb : (n.content.hazptr.load.2 && n.content.hazptr.load.1.isNone) = true
    · rw [Bool.and_eq_true, Option.isNone_iff_eq_none] at hb
      exact absurd (Prod.ext hb.2 hb.1) hu
    · simp [hb]

lemma recordLoop_delete (hs : s.IsList (l ++ p :: x :: l')) (hn : s.heap x = some n)
    (hu : Unused n.content) :
    recordLoop crtObj (k + 1) s (some x) (some p) guardp =
      recordLoop crtObj k (s.unlink p x n.next) l'.head? (some p) none := by
  obtain ⟨s', hpop, hdel⟩ := hs.pop hn
  unfold Unused at hu
  simp [recordLoop, hn, hu, hpop, hdel, hs.next_unlink hn]

lemma recordLoop_spec (todo done : List ℕ) (guardp : Option ℕ) (hs : s.IsList (done ++ todo))
    (hk : todo.length < k) (hg : guardp ≠ some crtObj) :
    ∃ g s' recs', recordLoop crtObj k s todo.head? done.getLast? guardp = some (g, s') ∧
      Retired s s' (done ++ todo) recs' ∧
      (g = some crtObj ↔ ∃ r ∈ todo, guardOf s r = some crtObj) := by
  induction todo generalizing done k s guardp with
  | nil =>
    cases k with
    | zero => exact absurd hk (Nat.not_lt_zero _)
    | succ k =>
      refine ⟨guardp, s, done ++ [], rfl, .refl hs, ?_⟩
      simp [hg]
  | cons x todo ih =>
    cases k with
    | zero => exact absurd hk (Nat.not_lt_zero _)
    | succ k =>
      have hk' : todo.length < k := Nat.lt_of_succ_lt_succ hk
      obtain ⟨n, hn⟩ := hs.node (x := x) (by simp)
      by_cases hdel : Unused n.content ∧ done ≠ []
      · -- the record goes, the trailing pointer stays
        obtain ⟨hu, hne⟩ := hdel
        obtain ⟨l, p, rfl⟩ := (List.eq_nil_or_concat' done).resolve_left hne
        rw [List.append_assoc, List.singleton_append] at hs
        have hr := Retired.unlink hs hn hu
        have hs' : (s.unlink p x n.next).IsList ((l ++ [p]) ++ todo) := by
          simpa using hr.swept.isList
        obtain ⟨g, s', recs', hrun, hret, hiff⟩ :=
          ih (l ++ [p]) none hs' hk' (by simp)
        rw [List.getLast?_concat] at hrun ⊢
        refine ⟨g, s', recs', ?_, ?_, ?_⟩
        · rw [List.head?_cons, recordLoop_delete hs hn hu]
          exact hrun
        · rw [List.append_assoc, List.singleton_append] at hret ⊢
          exact hr.trans hret
        · have hx : guardOf s x ≠ some crtObj := by
            unfold Unused at hu
            simp [guardOf_node hn, hu]
          have heq : ∀ r ∈ todo, guardOf (s.unlink p x n.next) r = guardOf s r :=
            fun r hr' => hr.guardOf_eq (by simp [hr'])
          rw [hiff]
          simp only [List.mem_cons, exists_eq_or_imp, hx, false_or]
          exact exists_congr fun r => and_congr_right fun hr' => by rw [heq r hr']
      · have hkeep : Unused n.content → done.getLast? = none := by
          intro hu
          rw [List.getLast?_eq_none_iff]
          exact not_not.mp fun hne => hdel ⟨hu, hne⟩
        rw [List.head?_cons, recordLoop_keep hn hkeep]
        by_cases hc : some crtObj = guardOf s x
        · refine ⟨guardOf s x, s, done ++ x :: todo, if_pos hc, .refl hs, ?_⟩
          exact ⟨fun h => ⟨x, List.mem_cons_self, h⟩, fun _ => hc.symm⟩
        · rw [if_neg hc]
          have hs' : s.IsList ((done ++ [x]) ++ todo) := by simpa using hs
          obtain ⟨g, s', recs', hrun, hret, hiff⟩ :=
            ih (done ++ [x]) (guardOf s x) hs' hk' (Ne.symm hc)
          rw [List.getLast?_concat] at hrun
          refine ⟨g, s', recs', ?_, ?_, ?_⟩
          · rw [hs.next_eq hn]
            exact hrun
          · simpa using hret
          · rw [hiff]
            simp [Ne.symm hc]

/-! ### The objects -/

variable {m : THazardPtrManager} {objs : List ℕ} {fuel : ℕ}

/-- The loop over all records tells whether the object is guarded. -/
lemma recordLoop_all (hs : s.IsList recs) (hk : recs.length < k) (crtObj : ℕ) :
    ∃ g s' recs', recordLoop crtObj k s s.head none none = some (g, s') ∧
      Retired s s' recs recs' ∧ (g = some crtObj ↔ Guarded s recs crtObj) := by
  obtain ⟨g, s', recs', hrun, hret, hiff⟩ :=
    @recordLoop_spec s crtObj k recs [] none hs hk (by simp)
  rw [← Seg.head_eq hs] at hrun
  exact ⟨g, s', recs', hrun, hret, hiff⟩

lemma objectLoop_keep {o : Node ℕ Unit} {g : Option ℕ} (ho : m.obj.heap x = some o)
    (hrun : recordLoop x fuel m.hpr m.hpr.head none none = some (g, s'))
    (hk : g = some x ∨ prev = none) :
    objectLoop fuel m.hpr.head (k + 1) m (some x) prev =
      objectLoop fuel m.hpr.head k { m with hpr := s' } o.next (some x) := by
  by_cases hg : g = some x
  · subst hg
    simp [objectLoop, hrun, Stack.next, ho]
  · obtain rfl := hk.resolve_left hg
    simp [objectLoop, hrun, Stack.next, Stack.pop, ho]

lemma objectLoop_delete {o : Node ℕ Unit} {g : Option ℕ}
    (hs : m.obj.IsList (l ++ p :: x :: l')) (ho : m.obj.heap x = some o)
    (hrun : recordLoop x fuel m.hpr m.hpr.head none none = some (g, s')) (hg : g ≠ some x) :
    objectLoop fuel m.hpr.head (k + 1) m (some x) (some p) =
      objectLoop fuel m.hpr.head k { m with obj := m.obj.unlink p x o.next, hpr := s' }
        l'.head? (some p) := by
  obtain ⟨obj, hpop, hdel⟩ := hs.pop ho
  simp [objectLoop, hrun, hpop, hdel, hs.next_unlink ho, Ne.symm hg]

lemma Retired.filter_guarded (h : Retired s s' recs recs') (l : List ℕ) :
    l.filter (Guarded s' recs' ·) = l.filter (Guarded s recs ·) :=
  List.filter_congr fun a _ => decide_eq_decide.mpr (h.guarded_iff a)

lemma objectLoop_spec (todo done : List ℕ) (hobj : m.obj.IsList (done ++ p :: todo))
    (hhpr : m.hpr.IsList recs) (hk : todo.length < k) (hf : recs.length < fuel) :
    ∃ m' recs', objectLoop fuel m.hpr.head k m todo.head? (some p) = some m' ∧
      Stack.Swept m.obj m'.obj (done ++ p :: todo)
        (done ++ p :: todo.filter (Guarded m.hpr recs ·)) ∧
      Retired m.hpr m'.hpr recs recs' ∧ m'.gcBufferSize = m.gcBufferSize := by
  induction todo generalizing done p k m recs with
  | nil =>
    cases k with
    | zero => exact absurd hk (Nat.not_lt_zero _)
    | succ k => exact ⟨m, recs, rfl, .refl hobj, .refl hhpr, rfl⟩
  | cons x todo ih =>
    cases k with
    | zero => exact absurd hk (Nat.not_lt_zero _)
    | succ k =>
      have hk' : todo.length < k := Nat.lt_of_succ_lt_succ hk
      obtain ⟨o, ho⟩ := hobj.node (x := x) (by simp)
      obtain ⟨g, hpr, recs₁, hrun, hret, hg⟩ := recordLoop_all hhpr hf x
      have hf' : recs₁.length < fuel := hret.swept.shrunk.sublist.length_le.trans_lt hf
      rw [List.head?_cons, List.filter_cons]
      by_cases hx : Guarded m.hpr recs x
      · -- the object stays and becomes the one behind which the next may go
        rw [objectLoop_keep ho hrun (Or.inl (hg.mpr hx)), if_pos (decide_eq_true hx)]
        have hobj' : m.obj.IsList ((done ++ [p]) ++ x :: todo) := by simpa using hobj
        obtain ⟨m', recs', hloop, hswept, hret', hgc⟩ :=
          ih (m := { m with hpr := hpr }) (done ++ [p]) hobj' hret.swept.isList hk' hf'
        refine ⟨m', recs', ?_, ?_, hret.trans hret', hgc⟩
        · rw [hobj'.next_eq ho, ← hret.swept.head]
          exact hloop
        · rw [hret.filter_guarded] at hswept
          simpa using hswept
      · rw [objectLoop_delete hobj ho hrun fun h => hx (hg.mp h), if_neg (by simpa using hx)]
        have hswept₁ := hobj.swept ho
        obtain ⟨m', recs', hloop, hswept, hret', hgc⟩ :=
          ih (m := { m with obj := m.obj.unlink p x o.next, hpr := hpr }) done
            hswept₁.isList hret.swept.isList hk' hf'
        refine ⟨m', recs', ?_, ?_, hret.trans hret', hgc⟩
        · rw [← hret.swept.head]
          exact hloop
        · rw [hret.filter_guarded] at hswept
          exact hswept₁.trans hswept

/-- The retired objects that stay. -/
def survivors (s : Records) (recs : List ℕ) : List ℕ → List ℕ
  | [] => []
  | first :: rest => first :: rest.filter (Guarded s recs ·)

lemma pass_spec (hobj : m.obj.IsList objs) (hhpr : m.hpr.IsList recs) (hk : objs.length < k)
    (hf : recs.length < fuel) :
    ∃ m' recs', objectLoop fuel m.hpr.head k m m.obj.head none = some m' ∧
      Stack.Swept m.obj m'.obj objs (survivors m.hpr recs objs) ∧
      Retired m.hpr m'.hpr recs recs' ∧ m'.gcBufferSize = m.gcBufferSize := by
  obtain ⟨k, rfl⟩ := Nat.exists_eq_succ_of_ne_zero (Nat.ne_zero_of_lt hk)
  rw [Seg.head_eq hobj]
  cases objs with
  | nil => exact ⟨m, recs, rfl, .refl hobj, .refl hhpr, rfl⟩
  | cons x rest =>
    have hk' : rest.length < k := Nat.lt_of_succ_lt_succ hk
    obtain ⟨o, ho⟩ := hobj.node (x := x) (by simp)
    obtain ⟨g, hpr, recs₁, hrun, hret, -⟩ := recordLoop_all hhpr hf x
    have hf' : recs₁.length < fuel := hret.swept.shrunk.sublist.length_le.trans_lt hf
    obtain ⟨m', recs', hloop, hswept, hret', hgc⟩ :=
      objectLoop_spec (m := { m with hpr := hpr }) rest [] hobj hret.swept.isList hk' hf'
    refine ⟨m', recs', ?_, ?_, hret.trans hret', hgc⟩
    · rw [List.head?_cons, objectLoop_keep ho hrun (Or.inr rfl),
        Stack.IsList.next_eq (l := []) hobj ho, ← hret.swept.head]
      exact hloop
    · rw [hret.filter_guarded] at hswept
      exact hswept

/-! ### A run -/

/-- One run over the lists `objs` and `recs` has left `objs'` and `recs'` of them. -/
structure Reclaimed (m m' : THazardPtrManager) (objs recs objs' recs' : List ℕ) : Prop where
  objList : m'.obj.IsList objs'
  objOrder : objs'.Sublist objs
  /-- Of the objects exactly those that are neither the first nor guarded are deleted. -/
  objDeleted : ∀ a ∈ objs,
    m'.obj.heap a = none ↔ objs.head? ≠ some a ∧ ∀ r ∈ recs, guardOf m.hpr r ≠ some a
  objKept : ∀ a ∈ objs, a ∈ objs' ↔ m'.obj.heap a ≠ none
  hprList : m'.hpr.IsList recs'
  hprOrder : recs'.Sublist recs
  /-- Of the records only unused ones behind the first are deleted. -/
  hprDeleted : ∀ r ∈ recs, r ∉ recs' → m'.hpr.heap r = none ∧ recs.head? ≠ some r ∧
    ∃ c, m.hpr.heap.content r = some c ∧ Unused c
  hprKept : ∀ r ∈ recs', m'.hpr.heap.content r = m.hpr.heap.content r
  others : (∀ a ∉ objs, m'.obj.heap a = m.obj.heap a) ∧ ∀ r ∉ recs, m'.hpr.heap r = m.hpr.heap r
  objCount : m'.obj.count - objs'.length = m.obj.count - objs.length
  hprCount : m'.hpr.count - recs'.length = m.hpr.count - recs.length
  gcBufferSize : m'.gcBufferSize = m.gcBufferSize

lemma mem_survivors (s : Records) (recs : List ℕ) {a : ℕ} (ha : a ∈ objs) :
    a ∈ survivors s recs objs ↔ objs.head? = some a ∨ Guarded s recs a := by
  cases objs with
  | nil => cases ha
  | cons x rest =>
    simp only [survivors, List.mem_cons, List.mem_filter, decide_eq_true_eq, List.head?_cons,
      Option.some.injEq] at ha ⊢
    tauto

lemma Reclaimed.of_pass {m' : THazardPtrManager}
    (ho : Stack.Swept m.obj m'.obj objs (survivors m.hpr recs objs))
    (hr : Retired m.hpr m'.hpr recs recs') (hg : m'.gcBufferSize = m.gcBufferSize) :
    Reclaimed m m' objs recs (survivors m.hpr recs objs) recs' where
  objList := ho.isList
  objOrder := ho.shrunk.sublist
  objDeleted := by
    intro a ha
    have hmem := mem_survivors m.hpr recs ha
    constructor
    · intro hnone
      -- a deleted object has no node, so it is not among the survivors
      have hout : a ∉ survivors m.hpr recs objs := by
        intro hin
        obtain ⟨n, hn⟩ := ho.isList.node hin
        rw [hnone] at hn
        cases hn
      rw [hmem, not_or] at hout
      exact ⟨hout.1, fun r hr hra => hout.2 ⟨r, hr, hra⟩⟩
    · rintro ⟨hfirst, hfree⟩
      refine ho.shrunk.deleted a ha fun hin => ?_
      rcases hmem.mp hin with h | ⟨r, hr, hra⟩
      · exact hfirst h
      · exact hfree r hr hra
  objKept := by
    intro a ha
    constructor
    · intro hin
      obtain ⟨n, hn⟩ := ho.isList.node hin
      simp [hn]
    · exact fun hn => not_not.mp fun hout => hn (ho.shrunk.deleted a ha hout)
  hprList := hr.swept.isList
  hprOrder := hr.swept.shrunk.sublist
  hprDeleted := by
    intro r hin hout
    refine ⟨hr.swept.shrunk.deleted r hin hout, fun hfirst => ?_, hr.unused r hin hout⟩
    rw [← hr.swept.shrunk.head] at hfirst
    exact hout (List.mem_of_mem_head? hfirst)
  hprKept := hr.swept.shrunk.content
  others := ⟨ho.shrunk.frame, hr.swept.shrunk.frame⟩
  objCount := ho.count
  hprCount := hr.swept.count
  gcBufferSize := hg

/-- Every object that stays behind the first has a record of its own among those that stay. -/
lemma survivors_length (hobj : m.obj.IsList objs) (h : Retired s s' recs recs') :
    (survivors s recs objs).length ≤ recs'.length + 1 := by
  cases objs with
  | nil => exact Nat.zero_le _
  | cons x rest =>
    have hnodup : (rest.filter (Guarded s recs ·)).Nodup :=
      (List.nodup_cons.mp (Seg.nodup hobj)).2.filter _
    have hsub : rest.filter (Guarded s recs ·) ⊆ recs'.filterMap (guardOf s') := by
      intro a ha
      rw [List.mem_filter, decide_eq_true_eq, ← h.guarded_iff] at ha
      exact List.mem_filterMap.mpr ha.2
    calc (survivors s recs (x :: rest)).length
        = (rest.filter (Guarded s recs ·)).length + 1 := rfl
      _ ≤ (recs'.filterMap (guardOf s')).length + 1 :=
          Nat.succ_le_succ (List.subperm_of_subset hnodup hsub).length_le
      _ ≤ recs'.length + 1 := Nat.succ_le_succ (List.length_filterMap_le _ _)

/-- **A run of the thread** ends after one pass. It deletes the retired objects that are neither
guarded nor the first, no records but unused ones behind the first, and both counters stay exact;
then there are too few objects left for `push` to wait. -/
theorem run_reclaims (hobj : m.obj.IsList objs) (hhpr : m.hpr.IsList recs)
    (ho : objs.length < fuel) (hr : recs.length < fuel) :
    ∃ m' objs' recs', m.run fuel = some m' ∧ Reclaimed m m' objs recs objs' recs' ∧
      (m.obj.count = objs.length → m.hpr.count = recs.length →
        m'.obj.count = objs'.length ∧ m'.hpr.count = recs'.length ∧
        m'.obj.count ≤ m'.hpr.count + 1 ∧ m'.obj.count < m'.limit) := by
  obtain ⟨m', recs', hpass, hswept, hret, hgc⟩ := pass_spec hobj hhpr ho hr
  obtain ⟨k, rfl⟩ := Nat.exists_eq_succ_of_ne_zero (Nat.ne_zero_of_lt ho)
  refine ⟨m', _, recs', ?_, .of_pass hswept hret hgc, ?_⟩
  · simp [run, runLoop, hpass, hswept.count_le]
  · intro hoc hrc
    have hlen := survivors_length hobj hret
    have hcount := hswept.count
    have hcount' := hret.swept.count
    have hbuffer := m'.buffer
    refine ⟨by omega, by omega, by omega, ?_⟩
    unfold limit
    omega

/-- Four objects, of which the third is guarded, and an unused record behind the guarding one. -/
def sample : THazardPtrManager where
  obj := (((({} : Stack Unit).push 4 ()).push 8 ()).push 12 ()).push 16 ()
  hpr := ((({} : Stack THazardPtrRecord).push 1 ⟨⟨0⟩⟩).push 2 ⟨⟨1⟩⟩).push 3 ⟨⟨8⟩⟩

theorem run_reclaims_sample :
    ∃ m' objs' recs', sample.run 5 = some m' ∧
      Reclaimed sample m' [16, 12, 8, 4] [3, 2, 1] objs' recs' ∧
      (sample.obj.count = 4 → sample.hpr.count = 3 →
        m'.obj.count = objs'.length ∧ m'.hpr.count = recs'.length ∧
        m'.obj.count ≤ m'.hpr.count + 1 ∧ m'.obj.count < m'.limit) :=
  run_reclaims
    ((((Stack.isList_empty.push rfl ()).push rfl ()).push rfl ()).push rfl ())
    (((Stack.isList_empty.push rfl _).push rfl _).push rfl _) (by decide) (by decide)

example : (sample.run 5).map (fun m => [4, 8, 12, 16].map fun a => (m.obj.heap a).isSome) =
    some [false, true, false, true] := by decide

example : (sample.run 5).map (fun m => [1, 2, 3].map fun a => (m.hpr.heap a).isSome) =
    some [true, false, true] := by decide

end THazardPtrManager

end TreeFrog.HazardPtr
