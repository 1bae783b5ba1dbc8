import Mathlib.Algebra.BigOperators.Group.Finset.Basic
import TreeFrog.HazardPtr

/-!
`THazardPtrManager` among threads: objects are retired, and guard records made, used and left, while
`THazardRemoverThread` goes over both lists. A step loads, stores, exchanges or counts once; what
only the remover reads and writes, the pointers between linked nodes, goes with the step before.
-/

namespace TreeFrog.Reclamation

open LinkedList HazardPtr Function

/-! ### The manager -/

/-- A `THazardPtrRecord`. No code reads `early`: the object had not been retired when the pointer
to it was stored, be it once more by now. -/
structure Record where
  hazptr : TAtomicPtr := {}
  early : Bool := false
  deriving DecidableEq

/-- Where a thread is in `push`; `wait` is the loop behind the counting, of objects only. -/
inductive Stage where
  | load
  | exchange
  | count
  | wait
  | compare (limit : ℤ)
  deriving DecidableEq

inductive Push where
  | obj (obj : ℕ) (stage : Stage)
  | hpr (ptr : ℕ) (stage : Stage)
  deriving DecidableEq

/-- What a turn of `run` keeps. -/
structure Pass where
  startObjCnt : ℤ
  startHprCnt : ℤ
  hprhead : Option ℕ

/-- Where the remover is: at one of the loads in front of the loops, in front of a record, if there
is one left, or of the record behind it, or at one of the loads behind the loops. -/
inductive Pc where
  | idle
  | objCount
  | hprCount (startObjCnt : ℤ)
  | objHead (startObjCnt startHprCnt : ℤ)
  | hprHead (startObjCnt startHprCnt : ℤ) (crtObj : Option ℕ)
  | record (p : Pass) (crtObj : ℕ) (prevObj hpr prevHpr guardp : Option ℕ)
  | popRecord (p : Pass) (crtObj : ℕ) (prevObj : Option ℕ) (hpr prevHpr : ℕ)
  | endObjCount (p : Pass)
  | endHprCount (p : Pass)

/-- The loop over the objects at `crtObj`. -/
def Pass.enter (p : Pass) (prevObj : Option ℕ) : Option ℕ → Pc
  | none => .endObjCount p
  | some crtObj => .record p crtObj prevObj p.hprhead none none

/-- What an object holds is its `deleted`. -/
structure Manager (T : Type) where
  obj : Stack Bool := {}
  hpr : Stack Record := {}
  gcBufferSize : ℤ := 100
  pushing : T → Option Push := fun _ => none
  remover : Pc := .idle

inductive Act (T : Type) where
  | newObject (obj : ℕ)
  | newRecord (t : T) (rec : ℕ)
  | guard (rec : ℕ) (ptr : Option ℕ)
  | destroy (rec : ℕ)
  | deleteLater (t : T) (obj : ℕ)
  | push (t : T) (fails : Bool)
  | gc
  | remove

/-! ### Pushing -/

section Stack

variable {γ : Type}

/-- A node that is not in the list. -/
def alloc (s : Stack γ) (x : ℕ) (content : γ) : Stack γ :=
  { s with heap := update s.heap x (some ⟨content, none⟩) }

def setContent (s : Stack γ) (x : ℕ) (f : γ → γ) : Stack γ :=
  { s with heap := update s.heap x ((s.heap x).map fun n => { n with content := f n.content }) }

/-- A step of `push` up to the counting; `fails` is an exchange that fails for no reason. -/
def pushStep (s : Stack γ) (x : ℕ) (fails : Bool) : Stage → Stack γ × Stage
  | .load => ({ s with heap := s.heap.setNext x s.head }, .exchange)
  | .exchange =>
    if fails = false ∧ (s.heap x).bind Node.next = s.head then ({ s with head := some x }, .count)
    else (s, .load)
  | .count => ({ s with count := s.count + 1 }, .wait)
  | stage => (s, stage)

end Stack

namespace Manager

variable {T : Type} [DecidableEq T]

def pushObject (s : Manager T) (t : T) (x : ℕ) (fails : Bool) : Stage → Manager T
  | .wait =>
    let limit := max s.gcBufferSize (s.hpr.count * 2)
    { s with pushing := update s.pushing t (some (.obj x (.compare limit))) }
  | .compare limit =>
    let push := if s.obj.count < limit then none else some (.obj x .wait)
    { s with pushing := update s.pushing t push }
  | stage =>
    let (obj, stage) := pushStep s.obj x fails stage
    { s with obj, pushing := update s.pushing t (some (.obj x stage)) }

def pushRecord (s : Manager T) (t : T) (x : ℕ) (fails : Bool) (stage : Stage) : Manager T :=
  let (hpr, stage) := pushStep s.hpr x fails stage
  let push := if stage = .wait then none else some (.hpr x stage)
  { s with hpr, pushing := update s.pushing t push }

/-! ### The remover -/

/-- A step of `run`. There is none where a deleted node is read. -/
def remove (s : Manager T) : Option (Manager T) :=
  match s.remover with
  | .idle => some s
  | .objCount => some { s with remover := .hprCount s.obj.count }
  | .hprCount objCnt => some { s with remover := .objHead objCnt s.hpr.count }
  | .objHead objCnt hprCnt => some { s with remover := .hprHead objCnt hprCnt s.obj.head }
  | .hprHead objCnt hprCnt crtObj =>
    some { s with remover := Pass.enter ⟨objCnt, hprCnt, s.hpr.head⟩ none crtObj }
  | .record p crtObj prevObj none _ guardp => do
    let (popped, obj) ←
      if some crtObj ≠ guardp then s.obj.pop (some crtObj) prevObj else some (false, s.obj)
    if popped then
      let obj := obj.delete crtObj
      some { s with obj, remover := p.enter prevObj (← obj.next prevObj) }
    else some { s with remover := p.enter (some crtObj) (← s.obj.next (some crtObj)) }
  | .record p crtObj prevObj (some hpr) prevHpr _ => do
    let record ← s.hpr.heap hpr
    let (guardp, mark) := record.content.hazptr.load
    match mark && guardp.isNone, prevHpr with
    | true, some prevHpr => some { s with remover := .popRecord p crtObj prevObj hpr prevHpr }
    | _, _ =>
      if some crtObj = guardp then
        some { s with remover := p.enter (some crtObj) (← s.obj.next (some crtObj)) }
      else
        some { s with
          remover := .record p crtObj prevObj (← s.hpr.next (some hpr)) (some hpr) guardp }
  | .popRecord p crtObj prevObj hpr prevHpr => do
    let (_, records) ← s.hpr.pop (some hpr) (some prevHpr)
    let records := records.delete hpr
    some { s with
      hpr := records
      remover := .record p crtObj prevObj (← records.next (some prevHpr)) (some prevHpr) none }
  | .endObjCount p =>
    some { s with remover := if s.obj.count ≤ p.startObjCnt then .idle else .endHprCount p }
  | .endHprCount p =>
    some { s with remover := if s.hpr.count ≤ p.startHprCnt then .idle else .objCount }

/-! ### A step -/

def step (s : Manager T) : Act T → Option (Manager T)
  | .newObject x => some { s with obj := alloc s.obj x false }
  | .newRecord t r => some { s with
      hpr := alloc s.hpr r {}
      pushing := update s.pushing t (some (.hpr r .load)) }
  | .guard r ptr => some { s with
      hpr := setContent s.hpr r fun c =>
        ⟨⟨ptr.getD 0⟩, (ptr.any fun x => s.obj.heap.content x ≠ some true) ||
          (c.early && c.hazptr.load.1 = ptr)⟩ }
  | .destroy r => some { s with hpr := setContent s.hpr r fun _ => ⟨⟨1⟩, false⟩ }
  | .deleteLater t x =>
    if s.obj.heap.content x = some false then some { s with
      obj := setContent s.obj x fun _ => true
      pushing := update s.pushing t (some (.obj x .load)) }
    else some s
  | .push t fails =>
    match s.pushing t with
    | none => some s
    | some (.obj x stage) => some (s.pushObject t x fails stage)
    | some (.hpr x stage) => some (s.pushRecord t x fails stage)
  | .gc => some { s with remover := if s.remover matches .idle then .objCount else s.remover }
  | .remove => s.remove

/-- The constructor of the record has not returned. -/
def InConstructor (s : Manager T) (r : ℕ) : Prop := ∃ t stage, s.pushing t = some (.hpr r stage)

/-- The owner has the record: it is made, and its destructor has not been called. -/
def Owned (s : Manager T) (r : ℕ) : Prop :=
  ¬ s.InConstructor r ∧ ∃ c, s.hpr.heap.content r = some c ∧ c.hazptr.load.2 = false

/-- What the threads keep to: memory is not given out twice, a thread is in one call at a time, a
record is used by its owner and `deleteLater` called of an object that is there. -/
def Allowed (s : Manager T) : Act T → Prop
  | .newObject x => s.obj.heap x = none ∧ x ≠ 0 ∧ x % TAtomicPtr.mask = 0
  | .newRecord t r => s.hpr.heap r = none ∧ s.pushing t = none
  | .guard r ptr => s.Owned r ∧ ∀ x ∈ ptr, x % TAtomicPtr.mask = 0
  | .destroy r => s.Owned r
  | .deleteLater t x => s.obj.heap x ≠ none ∧ s.pushing t = none
  | .push _ _ | .gc | .remove => True

/-- What can come about from `s`. -/
inductive Reaches (s : Manager T) : Manager T → Prop
  | refl : Reaches s s
  | step {a : Act T} {s₁ s₂ : Manager T} :
      Reaches s s₁ → s₁.Allowed a → s₁.step a = some s₂ → Reaches s s₂

end Manager

/-! ### One list -/

/-- The thread has the node in its hands: it has not linked it. -/
def Holds : Option (ℕ × Stage) → ℕ → Prop
  | some (x, .load), y | some (x, .exchange), y => x = y
  | _, _ => False

/-- What a thread has linked and not counted. -/
def counting : Option (ℕ × Stage) → ℤ
  | some (_, .count) => 1
  | _ => 0

lemma counting_linked (x : ℕ) : counting (some (x, .count)) = 1 := rfl

section List

variable {T γ : Type} [Fintype T]

/-- The threads push nodes that are not in the list, each its own; what is linked and not counted
is short in the counter. -/
structure Pushing (s : Stack γ) (l : List ℕ) (pos : T → Option (ℕ × Stage)) : Prop where
  list : s.IsList l
  apart : ∀ t x, Holds (pos t) x → x ∉ l ∧ s.heap x ≠ none
  once : ∀ t u x, Holds (pos t) x → Holds (pos u) x → t = u
  count : s.count + ∑ t, counting (pos t) = l.length

variable {s s' : Stack γ} {l l' : List ℕ} {pos : T → Option (ℕ × Stage)} {x p : ℕ} {t : T}

lemma not_mem_of_free (hs : s.IsList l) (hx : s.heap x = none) : x ∉ l := by
  intro hmem
  obtain ⟨n, hn⟩ := hs.node hmem
  rw [hx] at hn
  cases hn

lemma Pushing.congr (h : Pushing s l pos) (hhead : s'.head = s.head) (hcount : s'.count = s.count)
    (hnext : ∀ y ∈ l, (s'.heap y).map Node.next = (s.heap y).map Node.next)
    (hkept : ∀ y, s.heap y ≠ none → s'.heap y ≠ none) : Pushing s' l pos where
  list := by
    have hs := Seg.congr_next h.list hnext
    rwa [← hhead] at hs
  apart t x hx := ⟨(h.apart t x hx).1, hkept x (h.apart t x hx).2⟩
  once := h.once
  count := by rw [hcount, h.count]

lemma Pushing.alloc (h : Pushing s l pos) (hx : s.heap x = none) (c : γ) :
    Pushing (alloc s x c) l pos := by
  refine h.congr rfl rfl (fun y hy => ?_) fun y hy => ?_
  · have hne : y ≠ x := fun heq => not_mem_of_free h.list hx (heq ▸ hy)
    simp [Reclamation.alloc, hne]
  · by_cases hyx : y = x
    · simp [Reclamation.alloc, hyx]
    · simpa [Reclamation.alloc, hyx] using hy

lemma Pushing.setContent (h : Pushing s l pos) (x : ℕ) (f : γ → γ) :
    Pushing (setContent s x f) l pos := by
  refine h.congr rfl rfl (fun y _ => ?_) fun y hy => ?_
  · by_cases hyx : y = x
    · subst hyx
      simp [Reclamation.setContent, Option.map_map, comp_def]
    · simp [Reclamation.setContent, hyx]
  · by_cases hyx : y = x
    · subst hyx
      simpa [Reclamation.setContent] using hy
    · simpa [Reclamation.setContent, hyx] using hy

lemma Pushing.unlink {n : Node ℕ γ} (h : Pushing s (l ++ p :: x :: l') pos)
    (hn : s.heap x = some n) : Pushing (s.unlink p x n.next) (l ++ p :: l') pos where
  list := (h.list.swept hn).isList
  apart u y hy := by
    obtain ⟨hout, hheap⟩ := h.apart u y hy
    have hswept := (h.list.swept hn).shrunk
    refine ⟨fun hmem => hout (hswept.sublist.subset hmem), ?_⟩
    rwa [hswept.frame y hout]
  once := h.once
  count := by
    have hsum := h.count
    have hcount := (h.list.swept hn).count
    omega

variable [DecidableEq T]

lemma sum_update (pos : T → Option (ℕ × Stage)) (t : T) (v : Option (ℕ × Stage)) :
    ∑ u, counting (update pos t v u) = ∑ u, counting (pos u) - counting (pos t) + counting v := by
  have hnew := Finset.add_sum_erase Finset.univ (fun u => counting (update pos t v u))
    (Finset.mem_univ t)
  have hold := Finset.add_sum_erase Finset.univ (fun u => counting (pos u)) (Finset.mem_univ t)
  have hrest : ∑ u ∈ Finset.univ.erase t, counting (update pos t v u) =
      ∑ u ∈ Finset.univ.erase t, counting (pos u) :=
    Finset.sum_congr rfl fun u hu => by rw [update_of_ne (Finset.ne_of_mem_erase hu)]
  rw [hrest] at hnew
  simp only [update_self] at hnew
  omega

omit [Fintype T] in
lemma holds_update (pos : T → Option (ℕ × Stage)) (t : T) (v : Option (ℕ × Stage)) (y : ℕ) :
    (∃ u, Holds (update pos t v u) y) ↔ Holds v y ∨ ∃ u ≠ t, Holds (pos u) y := by
  constructor
  · rintro ⟨u, hu⟩
    by_cases hut : u = t
    · subst hut
      rw [update_self] at hu
      exact .inl hu
    · rw [update_of_ne hut] at hu
      exact .inr ⟨u, hut, hu⟩
  · rintro (hv | ⟨u, hut, hu⟩)
    · exact ⟨t, by rwa [update_self]⟩
    · exact ⟨u, by rwa [update_of_ne hut]⟩

omit [Fintype T] in
lemma holds_iff (pos : T → Option (ℕ × Stage)) (t : T) (y : ℕ) :
    (∃ u, Holds (pos u) y) ↔ Holds (pos t) y ∨ ∃ u ≠ t, Holds (pos u) y := by
  rw [← holds_update pos t (pos t), update_eq_self]

lemma Pushing.moved (h : Pushing s l pos) {v : Option (ℕ × Stage)} (hlist : s'.IsList l')
    (hthis : ∀ y, Holds v y → y ∉ l' ∧ s'.heap y ≠ none ∧ ∀ u ≠ t, ¬ Holds (pos u) y)
    (hothers : ∀ u ≠ t, ∀ y, Holds (pos u) y → y ∉ l' ∧ s'.heap y ≠ none)
    (hcount : s'.count - l'.length + counting v = s.count - l.length + counting (pos t)) :
    Pushing s' l' (update pos t v) where
  list := hlist
  apart u y hu := by
    by_cases hut : u = t
    · subst hut
      rw [update_self] at hu
      exact ⟨(hthis y hu).1, (hthis y hu).2.1⟩
    · rw [update_of_ne hut] at hu
      exact hothers u hut y hu
  once u w y hu hw := by
    by_cases hut : u = t
    · by_cases hwt : w = t
      · exact hut.trans hwt.symm
      · subst hut
        rw [update_self] at hu
        rw [update_of_ne hwt] at hw
        exact absurd hw ((hthis y hu).2.2 w hwt)
    · by_cases hwt : w = t
      · subst hwt
        rw [update_self] at hw
        rw [update_of_ne hut] at hu
        exact absurd hu ((hthis y hw).2.2 u hut)
      · rw [update_of_ne hut] at hu
        rw [update_of_ne hwt] at hw
        exact h.once u w y hu hw
  count := by
    have hsum := h.count
    rw [sum_update]
    omega

lemma Pushing.free (h : Pushing s l pos) {v : Option (ℕ × Stage)} (hcounting : counting (pos t) = 0)
    (hv : counting v = 0) (hholds : ∀ y, ¬ Holds v y) : Pushing s l (update pos t v) :=
  h.moved h.list (fun y hy => absurd hy (hholds y)) (fun u _ y hy => h.apart u y hy)
    (by rw [hcounting, hv])

lemma Pushing.start (h : Pushing s l pos) (hcounting : counting (pos t) = 0) (hx : x ∉ l)
    (hheap : s.heap x ≠ none) (hothers : ∀ u, ¬ Holds (pos u) x) :
    Pushing s l (update pos t (some (x, .load))) := by
  refine h.moved h.list ?_ (fun u _ y hy => h.apart u y hy) (by rw [hcounting]; rfl)
  rintro y rfl
  exact ⟨hx, hheap, fun u _ => hothers u⟩

lemma Pushing.load (h : Pushing s l pos) (hx : Holds (pos t) x) (hcounting : counting (pos t) = 0) :
    Pushing { s with heap := s.heap.setNext x s.head } l (update pos t (some (x, .exchange))) := by
  have hkept : ∀ y, s.heap y ≠ none → s.heap.setNext x s.head y ≠ none := by
    intro y hy
    by_cases hyx : y = x
    · subst hyx
      simpa using hy
    · simpa [hyx] using hy
  have hlist : Seg (s.heap.setNext x s.head) s.head l none := by
    refine Seg.congr h.list fun y hy => ?_
    have hne : y ≠ x := fun heq => (h.apart t x hx).1 (heq ▸ hy)
    rw [Heap.setNext_of_ne _ _ hne]
  refine h.moved hlist ?_ ?_ (by rw [hcounting]; rfl)
  · rintro y rfl
    obtain ⟨hout, hheap⟩ := h.apart t x hx
    exact ⟨hout, hkept x hheap, fun u hu hy => hu (h.once u t x hy hx)⟩
  · intro u _ y hy
    exact ⟨(h.apart u y hy).1, hkept y (h.apart u y hy).2⟩

lemma Pushing.again (h : Pushing s l pos) (hx : Holds (pos t) x)
    (hcounting : counting (pos t) = 0) :
    Pushing s l (update pos t (some (x, .load))) := by
  refine h.moved h.list ?_ (fun u _ y hy => h.apart u y hy) (by rw [hcounting]; rfl)
  rintro y rfl
  exact ⟨(h.apart t x hx).1, (h.apart t x hx).2, fun u hu hy => hu (h.once u t x hy hx)⟩

lemma Pushing.link (h : Pushing s l pos) (hx : Holds (pos t) x) (hcounting : counting (pos t) = 0)
    (hnext : (s.heap x).bind Node.next = s.head) :
    Pushing { s with head := some x } (x :: l) (update pos t (some (x, .count))) := by
  refine h.moved ?_ (fun y hy => hy.elim) ?_ ?_
  · obtain ⟨n, hn⟩ := Option.ne_none_iff_exists'.mp (h.apart t x hx).2
    rw [hn, Option.bind_some] at hnext
    exact .cons hn (hnext ▸ h.list)
  · intro u hu y hy
    obtain ⟨hout, hheap⟩ := h.apart u y hy
    refine ⟨fun hmem => ?_, hheap⟩
    rcases List.mem_cons.mp hmem with rfl | hmem
    · exact hu (h.once u t y hy hx)
    · exact hout hmem
  · rw [hcounting, counting_linked, List.length_cons]
    push_cast
    omega

lemma Pushing.counted (h : Pushing s l pos) (hpos : pos t = some (x, .count))
    {v : Option (ℕ × Stage)} (hv : counting v = 0) (hholds : ∀ y, ¬ Holds v y) :
    Pushing { s with count := s.count + 1 } l (update pos t v) := by
  refine h.moved h.list (fun y hy => absurd hy (hholds y)) (fun u _ y hy => h.apart u y hy) ?_
  rw [hpos, hv, counting_linked]
  dsimp only
  omega

end List

/-! ### The remover -/

/-- Left to the remover by the destructor. -/
def Unused (c : Record) : Prop := c.hazptr.load = (none, true)

/-- The record has guarded the object since before it was retired. -/
def Early (hpr : Stack Record) (r x : ℕ) : Prop :=
  ∃ c, hpr.heap.content r = some c ∧ c.early = true ∧ c.hazptr.load.1 = some x

/-- The loops at the object `crt` behind the objects `done`, and behind the records `doneR`. The
records in front of these came later, and none of them guards early what is still to come. -/
structure Scan (hpr : Stack Record) (objs recs : List ℕ) (p : Pass) (crt : ℕ)
    (done todo doneR todoR : List ℕ) : Prop where
  objs : done ++ crt :: todo <:+ objs
  recs : doneR ++ todoR <:+ recs
  first : p.hprhead = (doneR ++ todoR).head?
  later : ∀ r, ∀ x ∈ todo, Early hpr r x → r ∈ doneR ++ todoR
  now : ∀ r, Early hpr r crt → r ∈ todoR

def At (hpr : Stack Record) (objs recs : List ℕ) : Pc → Prop
  | .hprHead _ _ crt => ∃ todo, todo <:+ objs ∧ crt = todo.head?
  | .record p crt prev r prevR guardp => ∃ done todo doneR todoR,
      Scan hpr objs recs p crt done todo doneR todoR ∧ prev = done.getLast? ∧ r = todoR.head? ∧
        prevR = doneR.getLast? ∧ guardp ≠ some crt
  | .popRecord p crt prev r q => ∃ done todo doneR todoR,
      Scan hpr objs recs p crt done todo (doneR ++ [q]) (r :: todoR) ∧ prev = done.getLast? ∧
        ∃ c, hpr.heap.content r = some c ∧ Unused c
  | _ => True

section At

variable {hpr hpr' : Stack Record} {objs recs done todo doneR todoR : List ℕ} {p : Pass}
  {crt : ℕ}

/-- Threads push in front, and guard early only what is not retired. -/
lemma Scan.mono (h : Scan hpr objs recs p crt done todo doneR todoR)
    (hearly : ∀ r, ∀ x ∈ objs, Early hpr' r x → Early hpr r x) (front frontR : List ℕ) :
    Scan hpr' (front ++ objs) (frontR ++ recs) p crt done todo doneR todoR where
  objs := h.objs.trans (List.suffix_append front objs)
  recs := h.recs.trans (List.suffix_append frontR recs)
  first := h.first
  later r x hx hr := h.later r x hx (hearly r x
    (h.objs.subset (List.mem_append_right _ (List.mem_cons_of_mem _ hx))) hr)
  now r hr := h.now r (hearly r crt
    (h.objs.subset (List.mem_append_right _ List.mem_cons_self)) hr)

lemma At.mono {pc : Pc} (h : At hpr objs recs pc)
    (hearly : ∀ r, ∀ x ∈ objs, Early hpr' r x → Early hpr r x)
    (hunused : ∀ r c, hpr.heap.content r = some c → Unused c →
      ∃ c', hpr'.heap.content r = some c' ∧ Unused c') (front frontR : List ℕ) :
    At hpr' (front ++ objs) (frontR ++ recs) pc := by
  cases pc with
  | hprHead _ _ crt =>
    obtain ⟨todo, htodo, hcrt⟩ := h
    exact ⟨todo, htodo.trans (List.suffix_append front objs), hcrt⟩
  | record p crt prev r prevR guardp =>
    obtain ⟨done, todo, doneR, todoR, hscan, hrest⟩ := h
    exact ⟨done, todo, doneR, todoR, hscan.mono hearly front frontR, hrest⟩
  | popRecord p crt prev r q =>
    obtain ⟨done, todo, doneR, todoR, hscan, hprev, c, hc, hu⟩ := h
    exact ⟨done, todo, doneR, todoR, hscan.mono hearly front frontR, hprev, hunused r c hc hu⟩
  | idle | objCount | hprCount | objHead | endObjCount | endHprCount => trivial

lemma At.enter (done : List ℕ) (hobjs : done ++ todo <:+ objs) (hrecs : doneR <:+ recs)
    (hfirst : p.hprhead = doneR.head?) (hearly : ∀ r, ∀ x ∈ todo, Early hpr r x → r ∈ doneR) :
    At hpr objs recs (p.enter done.getLast? todo.head?) := by
  cases todo with
  | nil => trivial
  | cons crt todo =>
    exact ⟨done, todo, [], doneR, ⟨hobjs, hrecs, hfirst,
      fun r x hx => hearly r x (List.mem_cons_of_mem _ hx),
      fun r => hearly r crt List.mem_cons_self⟩, rfl, hfirst, rfl, nofun⟩

end At

/-! ### What holds at every step -/

def Push.obj? : Push → Option (ℕ × Stage)
  | .obj x st => some (x, st)
  | .hpr _ _ => none

def Push.hpr? : Push → Option (ℕ × Stage)
  | .obj _ _ => none
  | .hpr x st => some (x, st)

section Threads

variable {T : Type}

/-- What the threads push to one of the lists. -/
def places (f : Push → Option (ℕ × Stage)) (pushing : T → Option Push) : T → Option (ℕ × Stage) :=
  fun t => (pushing t).bind f

lemma places_update [DecidableEq T] (f : Push → Option (ℕ × Stage)) (pushing : T → Option Push)
    (t : T) (v : Option Push) :
    places f (update pushing t v) = update (places f pushing) t (v.bind f) := by
  funext u
  by_cases hu : u = t
  · subst hu
    simp [places]
  · simp [places, hu]

/-- What is retired is in the list or about to be, and so is what is made of records; these are
blank before they are linked. -/
structure Inv [Fintype T] (s : Manager T) (objs recs : List ℕ) : Prop where
  obj : Pushing s.obj objs (places Push.obj? s.pushing)
  hpr : Pushing s.hpr recs (places Push.hpr? s.pushing)
  retired : ∀ x, s.obj.heap.content x = some true ↔
    x ∈ objs ∨ ∃ t, Holds (places Push.obj? s.pushing t) x
  made : ∀ r, s.hpr.heap r ≠ none ↔ r ∈ recs ∨ ∃ t, Holds (places Push.hpr? s.pushing t) r
  blank : ∀ t r, Holds (places Push.hpr? s.pushing t) r → s.hpr.heap.content r = some {}
  remover : At s.hpr objs recs s.remover

variable [Fintype T] {s : Manager T} {objs recs : List ℕ} {t : T} {x r : ℕ}

lemma heap_of_content {γ : Type} {s : Stack γ} {c : γ} (h : s.heap.content x = some c) :
    s.heap x ≠ none := by
  rw [Heap.content] at h
  intro hnone
  rw [hnone] at h
  cases h

lemma content_alloc {γ : Type} (s : Stack γ) (x : ℕ) (c : γ) (y : ℕ) :
    (alloc s x c).heap.content y = if y = x then some c else s.heap.content y := by
  by_cases hy : y = x
  · subst hy
    simp [alloc, Heap.content]
  · simp [alloc, Heap.content, hy]

lemma content_setContent {γ : Type} (s : Stack γ) (x : ℕ) (f : γ → γ) (y : ℕ) :
    (setContent s x f).heap.content y =
      if y = x then (s.heap.content x).map f else s.heap.content y := by
  by_cases hy : y = x
  · subst hy
    simp [setContent, Heap.content, Option.map_map, comp_def]
  · simp [setContent, Heap.content, hy]

omit [Fintype T] in
lemma places_of_idle {f : Push → Option (ℕ × Stage)} {pushing : T → Option Push}
    (ht : pushing t = none) : places f pushing t = none := by
  rw [places, ht]
  rfl

omit [Fintype T] in
/-- What a thread pushes to the other list is not seen here. -/
lemma places_update_none [DecidableEq T] {f : Push → Option (ℕ × Stage)} {pushing : T → Option Push}
    (ht : places f pushing t = none) {v : Option Push} (hv : v.bind f = none) :
    places f (update pushing t v) = places f pushing := by
  rw [places_update, hv, ← ht, update_eq_self]

lemma Inv.newObject (h : Inv s objs recs) (hx : s.obj.heap x = none) :
    Inv { s with obj := alloc s.obj x false } objs recs where
  obj := h.obj.alloc hx false
  hpr := h.hpr
  retired y := by
    rw [content_alloc, ← h.retired]
    split_ifs with hy
    · subst hy
      simp [Heap.content, hx]
    · rfl
  made := h.made
  blank := h.blank
  remover := h.remover

omit [Fintype T] in
lemma inConstructor_of_holds {pushing : T → Option Push}
    (h : Holds (places Push.hpr? pushing t) r) :
    ∃ st, pushing t = some (.hpr r st) := by
  unfold places at h
  cases hp : pushing t with
  | none =>
    rw [hp] at h
    exact h.elim
  | some p =>
    rw [hp] at h
    cases p with
    | obj x st => exact h.elim
    | hpr x st => cases st <;> first | exact h.elim | exact ⟨_, by rw [show x = r from h]⟩

variable [DecidableEq T]

lemma Inv.newRecord (h : Inv s objs recs) (hr : s.hpr.heap r = none) (ht : s.pushing t = none) :
    Inv { s with
      hpr := alloc s.hpr r {}
      pushing := update s.pushing t (some (.hpr r .load)) } objs recs := by
  obtain ⟨hrecs, hothers⟩ : r ∉ recs ∧ ¬ ∃ u, Holds (places Push.hpr? s.pushing u) r := by
    rw [← not_or, ← h.made]
    exact not_not.mpr hr
  have hobj : places Push.obj? (update s.pushing t (some (.hpr r .load))) =
      places Push.obj? s.pushing := places_update_none (places_of_idle ht) rfl
  have hidle := places_of_idle (f := Push.hpr?) ht
  have hplaces : places Push.hpr? (update s.pushing t (some (.hpr r .load))) =
      update (places Push.hpr? s.pushing) t (some (r, .load)) := places_update _ _ _ _
  have hnew : ∀ y, s.hpr.heap y ≠ none → y ≠ r := by
    rintro y hy rfl
    exact hy hr
  refine ⟨?_, ?_, ?_, fun y => ?_, fun u y hu => ?_, ?_⟩
  · rw [hobj]
    exact h.obj
  · rw [hplaces]
    refine (h.hpr.alloc hr {}).start (by rw [hidle]; rfl) hrecs ?_ (not_exists.mp hothers)
    simp [alloc]
  · rw [hobj]
    exact h.retired
  · rw [hplaces, holds_update]
    have hiff := h.made y
    rw [holds_iff _ t, hidle] at hiff
    by_cases hy : y = r
    · subst hy
      simp [alloc, Holds]
    · simpa [alloc, Holds, hy, Ne.symm hy] using hiff
  · rw [hplaces] at hu
    rw [content_alloc]
    split_ifs with hy
    · rfl
    · refine h.blank u y ?_
      by_cases hut : u = t
      · subst hut
        rw [update_self] at hu
        exact absurd hu.symm hy
      · rwa [update_of_ne hut] at hu
  · refine h.remover.mono ?_ ?_ [] []
    · rintro r' x - ⟨c, hc, hearly, hload⟩
      rw [content_alloc] at hc
      split_ifs at hc with hr'
      · obtain rfl := Option.some.inj hc
        cases hearly
      · exact ⟨c, hc, hearly, hload⟩
    · intro r' c hc hu
      refine ⟨c, ?_, hu⟩
      rw [content_alloc, if_neg (hnew r' (heap_of_content hc)), hc]

omit [DecidableEq T] in
lemma Inv.store (h : Inv s objs recs) (hr : s.Owned r) {f : Record → Record}
    (hearly : ∀ c, s.hpr.heap.content r = some c → (f c).early = true → ∀ x ∈ objs,
      (f c).hazptr.load.1 = some x → Early s.hpr r x) :
    Inv { s with hpr := setContent s.hpr r f } objs recs := by
  obtain ⟨hconstructed, c₀, hc₀, hmark⟩ := hr
  have hout : ∀ u, ¬ Holds (places Push.hpr? s.pushing u) r := fun u hu =>
    hconstructed ⟨u, inConstructor_of_holds hu⟩
  refine ⟨h.obj, h.hpr.setContent r f, h.retired, fun y => ?_, fun u y hu => ?_,
    h.remover.mono ?_ ?_ [] []⟩
  · rw [← h.made]
    by_cases hy : y = r
    · subst hy
      simp [setContent]
    · simp [setContent, hy]
  · rw [content_setContent, if_neg (show y ≠ r by rintro rfl; exact hout u hu)]
    exact h.blank u y hu
  · rintro r' x hx ⟨c', hc', hearly', hload⟩
    rw [content_setContent] at hc'
    split_ifs at hc' with hr'
    · subst hr'
      rw [hc₀, Option.map_some] at hc'
      obtain rfl := Option.some.inj hc'
      exact hearly c₀ hc₀ hearly' x hx hload
    · exact ⟨c', hc', hearly', hload⟩
  · intro r' c' hc' hu
    have hne : r' ≠ r := by
      rintro rfl
      rw [hc₀] at hc'
      obtain rfl := Option.some.inj hc'
      rw [Unused] at hu
      rw [hu] at hmark
      cases hmark
    exact ⟨c', by rw [content_setContent, if_neg hne, hc'], hu⟩

lemma Inv.deleteLater (h : Inv s objs recs) (hx : s.obj.heap.content x = some false)
    (ht : s.pushing t = none) :
    Inv { s with
      obj := setContent s.obj x fun _ => true
      pushing := update s.pushing t (some (.obj x .load)) } objs recs := by
  have hout : ¬ (x ∈ objs ∨ ∃ u, Holds (places Push.obj? s.pushing u) x) := by
    rw [← h.retired, hx]
    nofun
  obtain ⟨hobjs, hothers⟩ := not_or.mp hout
  have hhpr : places Push.hpr? (update s.pushing t (some (.obj x .load))) =
      places Push.hpr? s.pushing := places_update_none (places_of_idle ht) rfl
  have hidle := places_of_idle (f := Push.obj?) ht
  have hplaces : places Push.obj? (update s.pushing t (some (.obj x .load))) =
      update (places Push.obj? s.pushing) t (some (x, .load)) := places_update _ _ _ _
  refine ⟨?_, ?_, fun y => ?_, ?_, ?_, h.remover⟩
  · rw [hplaces]
    refine (h.obj.setContent x fun _ => true).start (by rw [hidle]; rfl) hobjs ?_
      (not_exists.mp hothers)
    have hheap := heap_of_content hx
    simpa [setContent] using hheap
  · rw [hhpr]
    exact h.hpr
  · rw [hplaces, holds_update, content_setContent]
    have hiff := h.retired y
    rw [holds_iff _ t, hidle] at hiff
    by_cases hy : y = x
    · subst hy
      simp [Holds, hx]
    · simpa [Holds, hy, Ne.symm hy] using hiff
  · rw [hhpr]
    exact h.made
  · rw [hhpr]
    exact h.blank

omit [Fintype T] in
lemma holds_link {pos : T → Option (ℕ × Stage)} {l : List ℕ} (hpos : ∀ y, Holds (pos t) y ↔ x = y)
    {v : Option (ℕ × Stage)} (hv : ∀ y, ¬ Holds v y) (y : ℕ) :
    (y ∈ x :: l ∨ ∃ u, Holds (update pos t v u) y) ↔ y ∈ l ∨ ∃ u, Holds (pos u) y := by
  rw [holds_update, holds_iff pos t, hpos, List.mem_cons]
  simp only [hv, false_or]
  tauto

omit [Fintype T] in
lemma holds_keep {pos : T → Option (ℕ × Stage)} {v : Option (ℕ × Stage)}
    (hv : ∀ y, Holds v y ↔ Holds (pos t) y) (y : ℕ) :
    (∃ u, Holds (update pos t v u) y) ↔ ∃ u, Holds (pos u) y := by
  rw [holds_update, holds_iff pos t, hv]

/-- **A step of `push`** of one list: it links the node of the thread, or nothing. -/
lemma Pushing.step {γ : Type} {s : Stack γ} {l : List ℕ} {pos : T → Option (ℕ × Stage)}
    (h : Pushing s l pos) {st : Stage} (hpos : pos t = some (x, st))
    (hst : st = .load ∨ st = .exchange ∨ st = .count) (fails : Bool) {v : Option (ℕ × Stage)}
    (hv : v = some (x, (pushStep s x fails st).2) ∨ v = none ∧ st = .count) :
    ∃ front, Pushing (pushStep s x fails st).1 (front ++ l) (update pos t v) ∧
      (∀ y, (pushStep s x fails st).1.heap.content y = s.heap.content y) ∧
      ∀ y, (y ∈ front ++ l ∨ ∃ u, Holds (update pos t v u) y) ↔ y ∈ l ∨ ∃ u, Holds (pos u) y := by
  rcases hst with rfl | rfl | rfl
  · have hx : Holds (pos t) x := by rw [hpos]; rfl
    obtain rfl := hv.resolve_right nofun
    refine ⟨[], h.load hx (by rw [hpos]; rfl), fun y => Heap.content_setNext _ _ _ _, fun y => ?_⟩
    rw [List.nil_append, holds_keep fun y => ?_]
    rw [hpos]
    rfl
  · have hx : Holds (pos t) x := by rw [hpos]; rfl
    obtain rfl := hv.resolve_right nofun
    simp only [pushStep]
    split_ifs with hnext
    · refine ⟨[x], h.link hx (by rw [hpos]; rfl) hnext.2, fun y => rfl, ?_⟩
      exact holds_link (fun y => by rw [hpos]; rfl) fun y => id
    · refine ⟨[], h.again hx (by rw [hpos]; rfl), fun y => rfl, fun y => ?_⟩
      rw [List.nil_append, holds_keep fun y => ?_]
      rw [hpos]
      rfl
  · have hcounting : counting v = 0 := by rcases hv with rfl | ⟨rfl, -⟩ <;> rfl
    have hholds : ∀ y, ¬ Holds v y := by
      intro y
      rcases hv with rfl | ⟨rfl, -⟩ <;> exact id
    refine ⟨[], h.counted hpos hcounting hholds, fun y => rfl, fun y => ?_⟩
    rw [List.nil_append, holds_keep fun y => ?_]
    rw [hpos]
    exact iff_of_false (hholds y) id

lemma Pushing.waits {γ : Type} {s : Stack γ} {l : List ℕ} {pos : T → Option (ℕ × Stage)}
    (h : Pushing s l pos) (hcounting : counting (pos t) = 0) (hholds : ∀ y, ¬ Holds (pos t) y)
    {v : Option (ℕ × Stage)} (hv : counting v = 0 ∧ ∀ y, ¬ Holds v y) :
    Pushing s l (update pos t v) ∧
      ∀ y, (∃ u, Holds (update pos t v u) y) ↔ ∃ u, Holds (pos u) y :=
  ⟨h.free hcounting hv.1 hv.2, holds_keep fun y => iff_of_false (hv.2 y) (hholds y)⟩

lemma Inv.pushObject (h : Inv s objs recs) {st : Stage} (ht : s.pushing t = some (.obj x st))
    (fails : Bool) : ∃ objs', Inv (s.pushObject t x fails st) objs' recs := by
  have hpos : places Push.obj? s.pushing t = some (x, st) := by
    rw [places, ht]
    rfl
  have hother : places Push.hpr? s.pushing t = none := by
    rw [places, ht]
    rfl
  -- nothing of the records changes
  have hhpr : ∀ v, v.bind Push.hpr? = none →
      places Push.hpr? (update s.pushing t v) = places Push.hpr? s.pushing :=
    fun v hv => places_update_none hother hv
  have hwaits : (st = .wait ∨ ∃ limit, st = .compare limit) → ∀ v : Option Push,
      v.bind Push.hpr? = none → counting (v.bind Push.obj?) = 0 →
        (∀ y, ¬ Holds (v.bind Push.obj?) y) →
          Inv { s with pushing := update s.pushing t v } objs recs := by
    intro hst v hv hcounting hholds
    obtain ⟨hobj, hiff⟩ := h.obj.waits (t := t)
      (by rw [hpos]; rcases hst with rfl | ⟨l, rfl⟩ <;> rfl)
      (fun y => by rw [hpos]; rcases hst with rfl | ⟨l, rfl⟩ <;> exact id) ⟨hcounting, hholds⟩
    refine ⟨?_, ?_, fun y => ?_, ?_, ?_, h.remover⟩
    · rw [places_update]
      exact hobj
    · rw [hhpr v hv]
      exact h.hpr
    · rw [places_update, hiff]
      exact h.retired y
    · rw [hhpr v hv]
      exact h.made
    · rw [hhpr v hv]
      exact h.blank
  have hsteps : (st = .load ∨ st = .exchange ∨ st = .count) → ∃ objs', Inv { s with
      obj := (pushStep s.obj x fails st).1
      pushing := update s.pushing t (some (.obj x (pushStep s.obj x fails st).2)) } objs' recs := by
    intro hst
    obtain ⟨front, hobj, hcontent, hiff⟩ := h.obj.step hpos hst fails (.inl rfl)
    refine ⟨front ++ objs, ?_, ?_, fun y => ?_, ?_, ?_, ?_⟩
    · rw [places_update]
      exact hobj
    · rw [hhpr _ rfl]
      exact h.hpr
    · rw [hcontent, places_update]
      exact (h.retired y).trans (hiff y).symm
    · rw [hhpr _ rfl]
      exact h.made
    · rw [hhpr _ rfl]
      exact h.blank
    · exact h.remover.mono (fun _ _ _ hr => hr) (fun _ c hc hu => ⟨c, hc, hu⟩) front []
  cases st with
  | load => exact hsteps (.inl rfl)
  | exchange => exact hsteps (.inr (.inl rfl))
  | count => exact hsteps (.inr (.inr rfl))
  | wait => exact ⟨objs, hwaits (.inl rfl) _ rfl rfl fun y => id⟩
  | compare limit =>
    refine ⟨objs, hwaits (.inr ⟨limit, rfl⟩) _ ?_ ?_ fun y => ?_⟩
    · split_ifs <;> rfl
    · split_ifs <;> rfl
    · split_ifs <;> exact id

lemma Inv.records (h : Inv s objs recs) {hpr : Stack Record} {v : Option Push} {front : List ℕ}
    (hother : places Push.obj? s.pushing t = none) (hv : v.bind Push.obj? = none)
    (hpush : Pushing hpr (front ++ recs) (update (places Push.hpr? s.pushing) t (v.bind Push.hpr?)))
    (hcontent : ∀ y, hpr.heap.content y = s.hpr.heap.content y)
    (hiff : ∀ y, (y ∈ front ++ recs ∨
      ∃ u, Holds (update (places Push.hpr? s.pushing) t (v.bind Push.hpr?) u) y) ↔
        y ∈ recs ∨ ∃ u, Holds (places Push.hpr? s.pushing u) y) :
    Inv { s with hpr, pushing := update s.pushing t v } objs (front ++ recs) := by
  have hobj : places Push.obj? (update s.pushing t v) = places Push.obj? s.pushing :=
    places_update_none hother hv
  refine ⟨?_, ?_, ?_, fun y => ?_, fun u y hu => ?_, ?_⟩
  · rw [hobj]
    exact h.obj
  · rw [places_update]
    exact hpush
  · rw [hobj]
    exact h.retired
  · have hheap : hpr.heap y ≠ none ↔ s.hpr.heap y ≠ none := by
      have hsame := hcontent y
      unfold Heap.content at hsame
      exact not_congr ((Option.map_eq_none_iff (f := Node.content)).symm.trans
        (by rw [hsame, Option.map_eq_none_iff]))
    rw [places_update, hheap]
    exact (h.made y).trans (hiff y).symm
  · rw [places_update] at hu
    rw [hcontent]
    rcases (hiff y).mp (.inr ⟨u, hu⟩) with hmem | ⟨w, hw⟩
    · exact absurd (List.mem_append_right _ hmem) (hpush.apart u y hu).1
    · exact h.blank w y hw
  · refine h.remover.mono (fun r' x _ hr => ?_) (fun r' c hc hu => ⟨c, ?_, hu⟩) [] front
    · obtain ⟨c, hc, hr⟩ := hr
      exact ⟨c, (hcontent r').symm.trans hc, hr⟩
    · rw [hcontent, hc]

lemma Inv.pushRecord (h : Inv s objs recs) {st : Stage} (ht : s.pushing t = some (.hpr r st))
    (fails : Bool) : ∃ recs', Inv (s.pushRecord t r fails st) objs recs' := by
  have hpos : places Push.hpr? s.pushing t = some (r, st) := by
    rw [places, ht]
    rfl
  have hother : places Push.obj? s.pushing t = none := by
    rw [places, ht]
    rfl
  -- the steps that work on the list itself
  have hsteps : (st = .load ∨ st = .exchange ∨ st = .count) → ∀ v : Option Push,
      v.bind Push.obj? = none →
        (v.bind Push.hpr? = some (r, (pushStep s.hpr r fails st).2) ∨
          v.bind Push.hpr? = none ∧ st = .count) →
            ∃ recs', Inv { s with
              hpr := (pushStep s.hpr r fails st).1
              pushing := update s.pushing t v } objs recs' := by
    intro hst v hv hstage
    obtain ⟨front, hpush, hcontent, hiff⟩ := h.hpr.step hpos hst fails hstage
    exact ⟨front ++ recs, h.records hother hv hpush hcontent hiff⟩
  -- the steps that wait until the collector is not counting
  have hwaits : (st = .wait ∨ ∃ limit, st = .compare limit) → ∀ v : Option Push,
      v.bind Push.obj? = none → counting (v.bind Push.hpr?) = 0 →
        (∀ y, ¬ Holds (v.bind Push.hpr?) y) →
          Inv { s with pushing := update s.pushing t v } objs recs := by
    intro hst v hv hcounting hholds
    obtain ⟨hpush, hiff⟩ := h.hpr.waits (t := t)
      (by rw [hpos]; rcases hst with rfl | ⟨l, rfl⟩ <;> rfl)
      (fun y => by rw [hpos]; rcases hst with rfl | ⟨l, rfl⟩ <;> exact id) ⟨hcounting, hholds⟩
    have hrecords : Inv _ objs ([] ++ recs) :=
      h.records hother hv hpush (fun _ => rfl) fun y => or_congr_right (hiff y)
    exact hrecords
  cases st with
  | load => exact hsteps (.inl rfl) _ rfl (.inl rfl)
  | exchange =>
    have hne : (pushStep s.hpr r fails .exchange).2 ≠ .wait := by
      simp only [pushStep]
      split_ifs <;> nofun
    have hpush := hsteps (.inr (.inl rfl)) (some (.hpr r (pushStep s.hpr r fails .exchange).2)) rfl
      (.inl rfl)
    simp only [Manager.pushRecord]
    rwa [if_neg hne]
  | count => exact hsteps (.inr (.inr rfl)) none rfl (.inr ⟨rfl, rfl⟩)
  | wait => exact ⟨recs, hwaits (.inl rfl) none rfl rfl fun y => id⟩
  | compare limit =>
    exact ⟨recs, hwaits (.inr ⟨limit, rfl⟩) (some (.hpr r (.compare limit))) rfl rfl fun y => id⟩

end Threads

/-! ### A step of the remover -/

section Remover

variable {T : Type} [Fintype T] {s : Manager T} {objs recs : List ℕ} {x r : ℕ}

/-- What is gone was retired, was guarded by no record since before that, and was not the first;
and records that are gone were left to the remover. -/
structure Cleared (s s' : Manager T) (objs recs : List ℕ) : Prop where
  object : ∀ x, s.obj.heap x ≠ none → s'.obj.heap x = none →
    x ∈ objs ∧ objs.head? ≠ some x ∧ ∀ r, ¬ Early s.hpr r x
  record : ∀ r, s.hpr.heap r ≠ none → s'.hpr.heap r = none →
    recs.head? ≠ some r ∧ ∃ c, s.hpr.heap.content r = some c ∧ Unused c

lemma head?_ne_of_nodup {l l' : List ℕ} {y : ℕ} (h : (l ++ y :: x :: l').Nodup) :
    (l ++ y :: x :: l').head? ≠ some x := by
  intro hhead
  rw [List.nodup_append, List.nodup_cons] at h
  obtain ⟨-, ⟨hy, -⟩, hl⟩ := h
  cases l with
  | nil =>
    obtain rfl := Option.some.inj hhead
    exact hy List.mem_cons_self
  | cons z l =>
    obtain rfl := Option.some.inj hhead
    exact hl z List.mem_cons_self z (List.mem_cons_of_mem _ List.mem_cons_self) rfl

lemma content_unlink {γ : Type} (s : Stack γ) (p : ℕ) {y : ℕ} (next : Option ℕ) (hy : y ≠ x) :
    (s.unlink p x next).heap.content y = s.heap.content y := by
  rw [Stack.unlink, Heap.content_free _ hy, Heap.content_setNext]

lemma heap_unlink {γ : Type} (s : Stack γ) (p : ℕ) {y : ℕ} (next : Option ℕ) :
    (s.unlink p x next).heap y = none ↔ y = x ∨ s.heap y = none := by
  by_cases hy : y = x
  · subst hy
    simp [Stack.unlink]
  · by_cases hp : y = p
    · subst hp
      simp [Stack.unlink, hy]
    · simp [Stack.unlink, hy, hp]

lemma mem_unlink {l l' : List ℕ} {p y : ℕ} (h : (l ++ p :: x :: l').Nodup) :
    y ∈ l ++ p :: l' ↔ y ≠ x ∧ y ∈ l ++ p :: x :: l' := by
  rw [List.append_cons, List.nodup_middle, List.nodup_cons, List.append_assoc] at h
  constructor
  · intro hy
    refine ⟨?_, ?_⟩
    · rintro rfl
      exact h.1 (by simpa using hy)
    · simp only [List.mem_append, List.mem_cons] at hy ⊢
      tauto
  · rintro ⟨hne, hy⟩
    simp only [List.mem_append, List.mem_cons] at hy ⊢
    tauto

lemma next_of_mem {γ : Type} {s : Stack γ} {l l' : List ℕ} (h : s.IsList (l ++ x :: l')) :
    s.next (some x) = some l'.head? := by
  obtain ⟨n, hn⟩ := h.node (x := x) (by simp)
  rw [Stack.next, Option.bind_some, hn, Option.map_some, h.next_eq hn]

lemma Inv.goOn (h : Inv s objs recs) {pc : Pc} (hat : At s.hpr objs recs pc) :
    ∃ objs' recs', Inv { s with remover := pc } objs' recs' ∧
      Cleared s { s with remover := pc } objs recs :=
  ⟨objs, recs, ⟨h.obj, h.hpr, h.retired, h.made, h.blank, hat⟩,
    ⟨fun _ hx hnone => absurd hnone hx, fun _ hr hnone => absurd hnone hr⟩⟩

lemma Inv.deleteObject {l l' : List ℕ} {p : ℕ} {n : Node ℕ Bool}
    (h : Inv s (l ++ p :: x :: l') recs)
    (hn : s.obj.heap x = some n) (hearly : ∀ r, ¬ Early s.hpr r x) {pc : Pc}
    (hat : At s.hpr (l ++ p :: l') recs pc) :
    Inv { s with obj := s.obj.unlink p x n.next, remover := pc } (l ++ p :: l') recs ∧
      Cleared s { s with obj := s.obj.unlink p x n.next, remover := pc }
        (l ++ p :: x :: l') recs := by
  have hnodup := Seg.nodup h.obj.list
  have hx : x ∈ l ++ p :: x :: l' := by simp
  refine ⟨⟨h.obj.unlink hn, h.hpr, fun y => ?_, h.made, h.blank, hat⟩, fun y hy hnone => ?_,
    fun r hr hnone => absurd hnone hr⟩
  · rw [mem_unlink hnodup]
    by_cases hy : y = x
    · subst hy
      have hcontent : (s.obj.unlink p y n.next).heap.content y = none := by
        rw [Heap.content, (heap_unlink s.obj p n.next).mpr (.inl rfl), Option.map_none]
      rw [hcontent]
      refine iff_of_false (Option.some_ne_none true).symm ?_
      rintro (⟨hne, -⟩ | ⟨u, hu⟩)
      · exact hne rfl
      · exact (h.obj.apart u y hu).1 hx
    · rw [content_unlink s.obj p n.next hy, h.retired]
      simp [hy]
  · rcases (heap_unlink s.obj p n.next).mp hnone with rfl | hnone
    · exact ⟨hx, head?_ne_of_nodup hnodup, hearly⟩
    · exact absurd hnone hy

lemma Inv.deleteRecord {l l' : List ℕ} {q : ℕ} {n : Node ℕ Record}
    (h : Inv s objs (l ++ q :: r :: l')) (hn : s.hpr.heap r = some n) (hu : Unused n.content)
    {pc : Pc} (hat : At (s.hpr.unlink q r n.next) objs (l ++ q :: l') pc) :
    Inv { s with hpr := s.hpr.unlink q r n.next, remover := pc } objs (l ++ q :: l') ∧
      Cleared s { s with hpr := s.hpr.unlink q r n.next, remover := pc } objs
        (l ++ q :: r :: l') := by
  have hnodup := Seg.nodup h.hpr.list
  have hr : r ∈ l ++ q :: r :: l' := by simp
  refine ⟨⟨h.obj, h.hpr.unlink hn, h.retired, fun y => ?_, fun u y hy => ?_, hat⟩,
    fun x hx hnone => absurd hnone hx, fun y hy hnone => ?_⟩
  · rw [mem_unlink hnodup, ne_eq, heap_unlink, not_or]
    have hiff := h.made y
    constructor
    · rintro ⟨hne, hheap⟩
      exact (hiff.mp hheap).imp (fun hmem => ⟨hne, hmem⟩) id
    · rintro (⟨hne, hmem⟩ | ⟨u, hy⟩)
      · exact ⟨hne, hiff.mpr (.inl hmem)⟩
      · refine ⟨?_, hiff.mpr (.inr ⟨u, hy⟩)⟩
        rintro rfl
        exact (h.hpr.apart u y hy).1 hr
  · have hne : y ≠ r := by
      rintro rfl
      exact (h.hpr.apart u y hy).1 hr
    rw [content_unlink s.hpr q n.next hne]
    exact h.blank u y hy
  · rcases (heap_unlink s.hpr q n.next).mp hnone with rfl | hnone
    · exact ⟨head?_ne_of_nodup hnodup, n.content, by rw [Heap.content, hn, Option.map_some], hu⟩
    · exact absurd hnone hy

lemma Inv.removeObject (h : Inv s objs recs) {p : Pass} {crt : ℕ} {prev prevR guardp : Option ℕ}
    (hpc : s.remover = .record p crt prev none prevR guardp) :
    ∃ s' objs' recs', s.remove = some s' ∧ Inv s' objs' recs' ∧ Cleared s s' objs recs := by
  have hat := h.remover
  rw [hpc] at hat
  obtain ⟨done, todo, doneR, todoR, hscan, rfl, hr, -, hguardp⟩ := hat
  obtain rfl := List.head?_eq_none_iff.mp hr.symm
  obtain ⟨newer, rfl⟩ := hscan.objs
  obtain ⟨n, hn⟩ := h.obj.list.node (x := crt) (by simp)
  rcases List.eq_nil_or_concat' done with rfl | ⟨d, q, rfl⟩
  · have hnext := next_of_mem (l := newer) h.obj.list
    have hstep : s.remove = some { s with remover := p.enter (some crt) todo.head? } := by
      simp [Manager.remove, hpc, Ne.symm hguardp, Stack.pop, hnext]
    obtain ⟨objs', recs', hinv, hcleared⟩ := h.goOn (At.enter [crt]
      (List.suffix_append newer _) hscan.recs hscan.first hscan.later)
    exact ⟨_, objs', recs', hstep, hinv, hcleared⟩
  · have hlist : s.obj.IsList ((newer ++ d) ++ q :: crt :: todo) := by simpa using h.obj.list
    have hobjs : newer ++ ((d ++ [q]) ++ crt :: todo) = (newer ++ d) ++ q :: crt :: todo := by simp
    rw [hobjs] at h ⊢
    obtain ⟨obj, hpop, hdel⟩ := hlist.pop hn
    have hstep : s.remove = some { s with
        obj := s.obj.unlink q crt n.next
        remover := p.enter (d ++ [q]).getLast? todo.head? } := by
      simp [Manager.remove, hpc, Ne.symm hguardp, hpop, hdel, hlist.next_unlink hn]
    have hat : At s.hpr ((newer ++ d) ++ q :: todo) recs
        (p.enter (d ++ [q]).getLast? todo.head?) := by
      refine At.enter (d ++ [q]) ⟨newer, by simp⟩ hscan.recs hscan.first hscan.later
    obtain ⟨hinv, hcleared⟩ := h.deleteObject hn (fun r hr => List.not_mem_nil (hscan.now r hr)) hat
    exact ⟨_, _, _, hstep, hinv, hcleared⟩

lemma Inv.scanRecord (h : Inv s objs recs) {p : Pass} {crt r : ℕ} {prev prevR guardp : Option ℕ}
    (hpc : s.remover = .record p crt prev (some r) prevR guardp) :
    ∃ s' objs' recs', s.remove = some s' ∧ Inv s' objs' recs' ∧ Cleared s s' objs recs := by
  have hat := h.remover
  rw [hpc] at hat
  obtain ⟨done, todo, doneR, todoR, hscan, rfl, hr, rfl, -⟩ := hat
  obtain ⟨rest, rfl⟩ : ∃ rest, todoR = r :: rest := by
    cases todoR with
    | nil => cases hr
    | cons r' rest =>
      obtain rfl := Option.some.inj hr
      exact ⟨rest, rfl⟩
  obtain ⟨newer, hobjs⟩ := hscan.objs
  obtain ⟨newerR, hrecs⟩ := hscan.recs
  have hlist : s.obj.IsList ((newer ++ done) ++ crt :: todo) := by
    rw [List.append_assoc, hobjs]
    exact h.obj.list
  have hlistR : s.hpr.IsList ((newerR ++ doneR) ++ r :: rest) := by
    rw [List.append_assoc, hrecs]
    exact h.hpr.list
  have hnext := next_of_mem hlist
  have hnextR := next_of_mem hlistR
  obtain ⟨n, hn⟩ := hlistR.node (x := r) (by simp)
  have hcontent : s.hpr.heap.content r = some n.content := by
    rw [Heap.content, hn, Option.map_some]
  have hgo : ∀ pc, s.remove = some { s with remover := pc } → At s.hpr objs recs pc →
      ∃ s' objs' recs', s.remove = some s' ∧ Inv s' objs' recs' ∧ Cleared s s' objs recs := by
    intro pc hstep hat
    obtain ⟨objs', recs', hinv, hcleared⟩ := h.goOn hat
    exact ⟨_, objs', recs', hstep, hinv, hcleared⟩
  by_cases hdel : Unused n.content ∧ doneR ≠ []
  · -- the record is left to the remover, and is not the first
    obtain ⟨hu, hne⟩ := hdel
    obtain ⟨d, q, rfl⟩ := (List.eq_nil_or_concat' doneR).resolve_left hne
    refine hgo (.popRecord p crt done.getLast? r q) ?_ ⟨done, todo, d, rest, hscan, rfl, _,
      hcontent, hu⟩
    unfold Unused at hu
    simp [Manager.remove, hpc, hn, hu]
  · let next : Pc := .record p crt done.getLast? rest.head? (some r) n.content.hazptr.load.1
    have hkeep : s.remove =
        if some crt = n.content.hazptr.load.1 then
          some { s with remover := p.enter (some crt) todo.head? }
        else some { s with remover := next } := by
      by_cases hu : Unused n.content
      · obtain rfl : doneR = [] := not_not.mp fun hne => hdel ⟨hu, hne⟩
        unfold Unused at hu
        simp [Manager.remove, hpc, hn, hu, hnextR, next]
      · have hused : (n.content.hazptr.load.2 && n.content.hazptr.load.1.isNone) = false := by
          rw [Bool.eq_false_iff, ne_eq, Bool.and_eq_true, Option.isNone_iff_eq_none]
          exact fun hload => hu (Prod.ext hload.2 hload.1)
        simp [Manager.remove, hpc, hn, hused, hnext, hnextR, next]
    rw [hkeep] at hgo ⊢
    by_cases hguard : some crt = n.content.hazptr.load.1
    · rw [if_pos hguard] at hgo ⊢
      have hat : At s.hpr objs recs (p.enter (done ++ [crt]).getLast? todo.head?) :=
        At.enter (done ++ [crt]) ⟨newer, by rw [← hobjs]; simp⟩ hscan.recs hscan.first hscan.later
      rw [List.getLast?_concat] at hat
      exact hgo _ rfl hat
    · rw [if_neg hguard] at hgo ⊢
      have hrecords : doneR ++ r :: rest = (doneR ++ [r]) ++ rest := by simp
      refine hgo next rfl ⟨done, todo, doneR ++ [r], rest, ⟨hscan.objs, hrecords ▸ hscan.recs,
        hrecords ▸ hscan.first, hrecords ▸ hscan.later, fun r' hr' => ?_⟩, rfl, rfl,
        (List.getLast?_concat ..).symm, Ne.symm hguard⟩
      rcases List.mem_cons.mp (hscan.now r' hr') with rfl | hmem
      · obtain ⟨c, hc, -, hload⟩ := hr'
        obtain rfl := Option.some.inj (hcontent.symm.trans hc)
        exact absurd hload.symm hguard
      · exact hmem

lemma Inv.removeRecord (h : Inv s objs recs) {p : Pass} {crt r q : ℕ} {prev : Option ℕ}
    (hpc : s.remover = .popRecord p crt prev r q) :
    ∃ s' objs' recs', s.remove = some s' ∧ Inv s' objs' recs' ∧ Cleared s s' objs recs := by
  have hat := h.remover
  rw [hpc] at hat
  obtain ⟨done, todo, doneR, todoR, hscan, rfl, c, hc, hu⟩ := hat
  obtain ⟨newerR, hrecs⟩ := hscan.recs
  have hsplit : newerR ++ (doneR ++ [q] ++ r :: todoR) = (newerR ++ doneR) ++ q :: r :: todoR := by
    simp
  obtain rfl := hsplit.symm.trans hrecs
  have hlist := h.hpr.list
  obtain ⟨n, hn⟩ := hlist.node (x := r) (by simp)
  obtain rfl : n.content = c := by
    rw [Heap.content, hn] at hc
    exact Option.some.inj hc
  obtain ⟨hpr, hpop, hdel⟩ := hlist.pop hn
  let next : Pc := .record p crt done.getLast? todoR.head? (some q) none
  have hstep : s.remove = some { s with hpr := s.hpr.unlink q r n.next, remover := next } := by
    simp [Manager.remove, hpc, hpop, hdel, hlist.next_unlink hn, next]
  -- the record that is gone guards nothing
  have hearly : ∀ r' x, Early (s.hpr.unlink q r n.next) r' x → r' ≠ r ∧ Early s.hpr r' x := by
    rintro r' x ⟨c, hc, hrest⟩
    have hne : r' ≠ r := by
      rintro rfl
      exact heap_of_content hc ((heap_unlink s.hpr q n.next).mpr (.inl rfl))
    rw [content_unlink s.hpr q n.next hne] at hc
    exact ⟨hne, c, hc, hrest⟩
  have hmem : ∀ {l l' : List ℕ} {r' : ℕ}, r' ∈ l ++ r :: l' → r' ≠ r → r' ∈ l ++ l' := by
    intro l l' r' hr' hne
    simp only [List.mem_append, List.mem_cons] at hr' ⊢
    tauto
  have hat : At (s.hpr.unlink q r n.next) objs ((newerR ++ doneR) ++ q :: todoR) next := by
    refine ⟨done, todo, doneR ++ [q], todoR, ⟨hscan.objs, ⟨newerR, by simp⟩, ?_, ?_, ?_⟩, rfl, rfl,
      (List.getLast?_concat ..).symm, (Option.some_ne_none crt).symm⟩
    · rw [hscan.first]
      cases doneR <;> rfl
    · intro r' x hx hr'
      obtain ⟨hne, hr'⟩ := hearly r' x hr'
      exact hmem (hscan.later r' x hx hr') hne
    · intro r' hr'
      obtain ⟨hne, hr'⟩ := hearly r' crt hr'
      exact (List.mem_cons.mp (hscan.now r' hr')).resolve_left hne
  obtain ⟨hinv, hcleared⟩ := h.deleteRecord hn hu hat
  exact ⟨_, _, _, hstep, hinv, hcleared⟩

/-- **A step of the remover** touches nothing that is deleted, and deletes only what may go. -/
lemma Inv.remove (h : Inv s objs recs) :
    ∃ s' objs' recs', s.remove = some s' ∧ Inv s' objs' recs' ∧ Cleared s s' objs recs := by
  have hgo : ∀ pc, s.remove = some { s with remover := pc } → At s.hpr objs recs pc →
      ∃ s' objs' recs', s.remove = some s' ∧ Inv s' objs' recs' ∧ Cleared s s' objs recs := by
    intro pc hstep hat
    obtain ⟨objs', recs', hinv, hcleared⟩ := h.goOn hat
    exact ⟨_, objs', recs', hstep, hinv, hcleared⟩
  cases hpc : s.remover with
  | idle =>
    have hstep : s.remove = some s := by rw [Manager.remove, hpc]
    exact hgo s.remover hstep h.remover
  | objCount => exact hgo (.hprCount s.obj.count) (by rw [Manager.remove, hpc]) trivial
  | hprCount objCnt => exact hgo (.objHead objCnt s.hpr.count) (by rw [Manager.remove, hpc]) trivial
  | objHead objCnt hprCnt =>
    refine hgo (.hprHead objCnt hprCnt s.obj.head) (by rw [Manager.remove, hpc]) ?_
    exact ⟨objs, List.suffix_rfl, Seg.head_eq h.obj.list⟩
  | hprHead objCnt hprCnt crt =>
    have hat := h.remover
    rw [hpc] at hat
    obtain ⟨todo, htodo, rfl⟩ := hat
    refine hgo (Pass.enter ⟨objCnt, hprCnt, s.hpr.head⟩ none todo.head?)
      (by rw [Manager.remove, hpc]) ?_
    refine At.enter [] htodo List.suffix_rfl (Seg.head_eq h.hpr.list) ?_
    -- what guards early is linked
    rintro r x - ⟨c, hc, hearly, -⟩
    rcases (h.made r).mp (heap_of_content hc) with hr | ⟨t, ht⟩
    · exact hr
    · rw [h.blank t r ht] at hc
      obtain rfl := Option.some.inj hc
      cases hearly
  | record p crt prev r prevR guardp =>
    cases r with
    | none => exact h.removeObject hpc
    | some r => exact h.scanRecord hpc
  | popRecord p crt prev r q => exact h.removeRecord hpc
  | endObjCount p =>
    refine hgo (if s.obj.count ≤ p.startObjCnt then .idle else .endHprCount p)
      (by rw [Manager.remove, hpc]) ?_
    split_ifs <;> trivial
  | endHprCount p =>
    refine hgo (if s.hpr.count ≤ p.startHprCnt then .idle else .objCount)
      (by rw [Manager.remove, hpc]) ?_
    split_ifs <;> trivial

end Remover

/-! ### Any run -/

section Run

variable {T : Type} [Fintype T] {s s' : Manager T} {objs recs : List ℕ}

lemma inv_init : Inv ({} : Manager T) [] [] where
  obj := ⟨.nil none, fun _ _ h => h.elim, fun _ _ _ h => h.elim, by simp [places, counting]⟩
  hpr := ⟨.nil none, fun _ _ h => h.elim, fun _ _ _ h => h.elim, by simp [places, counting]⟩
  retired x := by simp [Heap.content, places, Holds]
  made r := by simp [places, Holds]
  blank := fun _ _ h => h.elim
  remover := trivial

lemma load_aligned {x : ℕ} (hx : x % TAtomicPtr.mask = 0) :
    (⟨x⟩ : TAtomicPtr).load.1 = if x = 0 then none else some x := by
  have hx' : x / TAtomicPtr.mask * TAtomicPtr.mask = x := by
    unfold TAtomicPtr.mask at hx ⊢
    omega
  simp only [TAtomicPtr.load, hx']

/-- Of either list nothing is deleted. -/
def Kept {γ : Type} (s s' : Stack γ) : Prop := ∀ x, s.heap x ≠ none → s'.heap x ≠ none

lemma kept_alloc {γ : Type} (s : Stack γ) (x : ℕ) (c : γ) : Kept s (alloc s x c) := by
  intro y hy
  by_cases hyx : y = x
  · simp [alloc, hyx]
  · simpa [alloc, hyx] using hy

lemma kept_setContent {γ : Type} (s : Stack γ) (x : ℕ) (f : γ → γ) : Kept s (setContent s x f) := by
  intro y hy
  by_cases hyx : y = x
  · subst hyx
    simpa [setContent] using hy
  · simpa [setContent, hyx] using hy

lemma kept_pushStep {γ : Type} (s : Stack γ) (x : ℕ) (fails : Bool) (st : Stage) :
    Kept s (pushStep s x fails st).1 := by
  cases st with
  | load =>
    intro y hy
    by_cases hyx : y = x
    · subst hyx
      simpa [pushStep] using hy
    · simpa [pushStep, hyx] using hy
  | exchange =>
    simp only [pushStep]
    split_ifs <;> exact fun _ hy => hy
  | count | wait | compare => exact fun _ hy => hy

omit [Fintype T] in
lemma Cleared.of_kept (hobj : Kept s.obj s'.obj) (hhpr : Kept s.hpr s'.hpr) :
    Cleared s s' objs recs :=
  ⟨fun x hx hnone => absurd hnone (hobj x hx), fun r hr hnone => absurd hnone (hhpr r hr)⟩

variable [DecidableEq T]

lemma Inv.step (h : Inv s objs recs) {a : Act T} (ha : s.Allowed a) :
    ∃ s' objs' recs', s.step a = some s' ∧ Inv s' objs' recs' ∧ Cleared s s' objs recs := by
  have hsame : Kept s.obj s.obj ∧ Kept s.hpr s.hpr := ⟨fun _ hx => hx, fun _ hx => hx⟩
  cases a with
  | newObject x =>
    exact ⟨_, objs, recs, rfl, h.newObject ha.1, .of_kept (kept_alloc _ _ _) hsame.2⟩
  | newRecord t r =>
    exact ⟨_, objs, recs, rfl, h.newRecord ha.1 ha.2, .of_kept hsame.1 (kept_alloc _ _ _)⟩
  | guard r ptr =>
    refine ⟨_, objs, recs, rfl, h.store ha.1 fun c hc hearly x hx hload => ?_, .of_kept hsame.1 ?_⟩
    swap
    · dsimp only
      exact kept_setContent _ _ _
    cases ptr with
    | none =>
      rw [Option.getD_none, load_aligned rfl] at hload
      cases hload
    | some y =>
      rw [Option.getD_some, load_aligned (ha.2 y rfl)] at hload
      split_ifs at hload
      obtain rfl := Option.some.inj hload
      simp only [Option.any_some, Bool.or_eq_true, Bool.and_eq_true, decide_eq_true_eq] at hearly
      -- what is on the list is retired, so that it was there early already
      obtain hfresh | ⟨hearly, hheld⟩ := hearly
      · exact absurd ((h.retired y).mpr (.inl hx)) hfresh
      · exact ⟨c, hc, hearly, hheld⟩
  | destroy r =>
    refine ⟨_, objs, recs, rfl, h.store ha (fun _ _ hearly => nomatch hearly), .of_kept hsame.1 ?_⟩
    exact kept_setContent s.hpr r fun _ => _
  | deleteLater t x =>
    by_cases hx : s.obj.heap.content x = some false
    · refine ⟨_, objs, recs, if_pos hx, h.deleteLater hx ha.2, .of_kept ?_ hsame.2⟩
      exact kept_setContent s.obj x fun _ => true
    · exact ⟨s, objs, recs, if_neg hx, h, .of_kept hsame.1 hsame.2⟩
  | push t fails =>
    rw [Manager.step]
    cases ht : s.pushing t with
    | none => exact ⟨s, objs, recs, rfl, h, .of_kept hsame.1 hsame.2⟩
    | some push =>
      cases push with
      | obj x st =>
        obtain ⟨objs', hinv⟩ := h.pushObject ht fails
        refine ⟨_, objs', recs, rfl, hinv, ?_⟩
        cases st with
        | load => exact .of_kept (kept_pushStep s.obj x fails .load) hsame.2
        | exchange => exact .of_kept (kept_pushStep s.obj x fails .exchange) hsame.2
        | count => exact .of_kept (kept_pushStep s.obj x fails .count) hsame.2
        | wait | compare => exact .of_kept hsame.1 hsame.2
      | hpr r st =>
        obtain ⟨recs', hinv⟩ := h.pushRecord ht fails
        exact ⟨_, objs, recs', rfl, hinv, .of_kept hsame.1 (kept_pushStep s.hpr r fails st)⟩
  | gc =>
    refine ⟨_, objs, recs, rfl, ⟨h.obj, h.hpr, h.retired, h.made, h.blank, ?_⟩,
      .of_kept hsame.1 hsame.2⟩
    dsimp only
    split_ifs
    · trivial
    · exact h.remover
  | remove => exact h.remove

lemma inv_reaches (h : Manager.Reaches {} s) : ∃ objs recs, Inv s objs recs := by
  induction h with
  | refl => exact ⟨[], [], inv_init⟩
  | step _ ha hstep ih =>
    obtain ⟨objs, recs, hinv⟩ := ih
    obtain ⟨s', objs', recs', hstep', hinv', -⟩ := hinv.step ha
    obtain rfl := Option.some.inj (hstep.symm.trans hstep')
    exact ⟨objs', recs', hinv'⟩

/-- What holds of the lists whenever the threads and the remover have come to `s`. -/
structure Reclaims (s : Manager T) (objs recs : List ℕ) : Prop where
  objList : s.obj.IsList objs
  hprList : s.hpr.IsList recs
  /-- An object that is retired and not deleted is in the list, unless a thread is about to link
  it. -/
  retired : ∀ x, s.obj.heap.content x = some true ↔
    x ∈ objs ∨ ∃ t, Holds (places Push.obj? s.pushing t) x
  counted : (∀ t, s.pushing t = none) → s.obj.count = objs.length ∧ s.hpr.count = recs.length
  /-- Each step is possible, so that nothing that is deleted is touched, and it deletes only what
  may go. -/
  steps : ∀ a, s.Allowed a → ∃ s', s.step a = some s' ∧ Cleared s s' objs recs

/-- **Reclamation among threads**: no retired object is lost or deleted twice, and none is deleted
that a record has guarded since before it was retired. -/
theorem reclaims_of_reaches (h : Manager.Reaches {} s) : ∃ objs recs, Reclaims s objs recs := by
  obtain ⟨objs, recs, hinv⟩ := inv_reaches h
  refine ⟨objs, recs, hinv.obj.list, hinv.hpr.list, hinv.retired, fun hidle => ⟨?_, ?_⟩,
    fun a ha => ?_⟩
  · have hcount := hinv.obj.count
    simpa [places, hidle, counting] using hcount
  · have hcount := hinv.hpr.count
    simpa [places, hidle, counting] using hcount
  · obtain ⟨s', -, -, hstep, -, hcleared⟩ := hinv.step ha
    exact ⟨s', hstep, hcleared⟩

/-- What a thread or the remover may do at any time. -/
def Act.isFree : Act T → Bool
  | .push _ _ | .gc | .remove => true
  | _ => false

omit [Fintype T] in
lemma reaches_foldlM {s₀ : Manager T} (h : Manager.Reaches s₀ s) {acts : List (Act T)}
    (hfree : ∀ a ∈ acts, a.isFree) (hrun : acts.foldlM Manager.step s = some s') :
    Manager.Reaches s₀ s' := by
  induction acts generalizing s with
  | nil =>
    obtain rfl := Option.some.inj hrun
    exact h
  | cons a acts ih =>
    obtain ⟨s₁, hstep, hrun⟩ := Option.bind_eq_some_iff.mp hrun
    have ha : s.Allowed a := by
      have hfree := hfree a List.mem_cons_self
      cases a <;> trivial
    exact ih (h.step ha hstep) (fun a ha => hfree a (List.mem_cons_of_mem _ ha)) hrun

end Run

/-- Two threads retire an object each. -/
def sampleStart : List (Act Bool) :=
  [.newObject 4, .newObject 8, .deleteLater true 4, .deleteLater false 8]

/-- The objects are pushed, with an exchange that fails, and the remover goes over them. -/
def sampleActs : List (Act Bool) :=
  [.push false false, .push true false, .push true false, .push false false, .push true false,
    .push false false, .push false false, .push false false, .gc] ++ List.replicate 8 .remove

theorem reclaims_of_reaches_sample :
    ∃ s objs recs, Manager.Reaches ({} : Manager Bool) s ∧ Reclaims s objs recs ∧
      (s.obj.heap 4).isNone ∧ (s.obj.heap 8).isSome := by
  have hstart : ∃ s, sampleStart.foldlM Manager.step {} = some s ∧
      Manager.Reaches ({} : Manager Bool) s := by
    refine ⟨_, rfl, ?_⟩
    refine .step (a := .deleteLater false 8) (.step (a := .deleteLater true 4)
      (.step (a := .newObject 8) (.step (a := .newObject 4) .refl ?_ rfl) ?_ rfl) ?_ rfl) ?_ rfl
    · exact ⟨rfl, by decide, rfl⟩
    · exact ⟨rfl, by decide, rfl⟩
    · exact ⟨nofun, rfl⟩
    · exact ⟨nofun, rfl⟩
  obtain ⟨s, hs, hreaches⟩ := hstart
  have hrun : ((sampleStart ++ sampleActs).foldlM Manager.step ({} : Manager Bool)).map
      (fun s => ((s.obj.heap 4).isNone, (s.obj.heap 8).isSome)) = some (true, true) := by
    decide +kernel
  rw [List.foldlM_append, hs] at hrun
  obtain ⟨s', hs', hheap⟩ := Option.map_eq_some_iff.mp hrun
  obtain ⟨h4, h8⟩ := Prod.mk.inj hheap
  have hreaches' := reaches_foldlM hreaches (by decide) hs'
  obtain ⟨objs, recs, hreclaims⟩ := reclaims_of_reaches hreaches'
  exact ⟨s', objs, recs, hreaches', hreclaims, h4, h8⟩

end TreeFrog.Reclamation
