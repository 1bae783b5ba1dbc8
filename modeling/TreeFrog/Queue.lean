import TreeFrog.Linearizable
import TreeFrog.LinkedList

/-!
`TQueue`: a queue that threads share without a lock. In front is a node whose value is not in the
queue; `queTail` may fall behind the last node, and whoever finds it so moves it on.

Nodes are not deleted here, and no address is used again: `enqueue` and `dequeue` read nodes that
they have not guarded, and compare addresses where they mean nodes.
-/

namespace TreeFrog.Queue

open Linearizable LinkedList Relation

variable {T α : Type*}

/-! ### The queue -/

structure TQueue (α : Type*) where
  mem : Memory α
  queHead : ℕ
  queTail : ℕ
  counter : ℤ := 0

inductive Call (α : Type*) where
  | enqueue (val : α)
  | dequeue
  | head
  deriving DecidableEq

inductive Result (α : Type*) where
  | enqueued
  /-- Whether there was one, and what is in `val` then. -/
  | value (val : Option α)
  deriving DecidableEq

/-- Where a thread is in `enqueue`, in `dequeue` and in `head`. -/
inductive Pc (α : Type*) where
  | enqueue (val : α)
  | enqTail (newnode : ℕ)
  | enqNext (newnode tail : ℕ)
  | enqCheck (newnode tail : ℕ) (next : Option ℕ)
  | enqHelp (newnode tail next : ℕ)
  | enqLink (newnode tail : ℕ)
  | enqCount (newnode tail : ℕ)
  | enqSwing (newnode tail : ℕ)
  | dequeue
  | deqTail (head : ℕ)
  | deqNext (head tail : ℕ)
  | deqCheck (head tail : ℕ) (next : Option ℕ)
  | deqHelp (tail next : ℕ)
  | deqExchange (head next : ℕ)
  | deqValue (next : ℕ)
  | deqCount (val : Option α)
  | head
  | headNext (headp : ℕ)
  | headCheck (headp : ℕ) (next : Option ℕ)
  | headValue (next : ℕ)
  | ret (r : Result α)

namespace TQueue

/-- `TQueue()` -/
def new (dummy : α) : TQueue α where
  mem := Memory.empty.new dummy
  queHead := 0
  queTail := 0

def start : Call α → Pc α
  | .enqueue val => .enqueue val
  | .dequeue => .dequeue
  | .head => .head

def step (s : TQueue α) (pc : Pc α) (fails : Bool) : TQueue α × Pc α :=
  match pc with
  -- `enqueue`
  | .enqueue val => ({ s with mem := s.mem.new val }, .enqTail s.mem.size)
  | .enqTail newnode => (s, .enqNext newnode s.queTail)
  | .enqNext newnode tail => (s, .enqCheck newnode tail (s.mem.next tail))
  | .enqCheck newnode tail next =>
    if tail ≠ s.queTail then (s, .enqTail newnode)
    else
      match next with
      | some next => (s, .enqHelp newnode tail next)
      | none => (s, .enqLink newnode tail)
  | .enqHelp newnode tail next =>
    (if exchanges fails s.queTail tail then { s with queTail := next } else s, .enqTail newnode)
  | .enqLink newnode tail =>
    if exchanges fails (s.mem.next tail) none then
      ({ s with mem := s.mem.setNext tail (some newnode) }, .enqCount newnode tail)
    else (s, .enqTail newnode)
  | .enqCount newnode tail => ({ s with counter := s.counter + 1 }, .enqSwing newnode tail)
  | .enqSwing newnode tail =>
    -- the strong exchange
    (if exchanges false s.queTail tail then { s with queTail := newnode } else s, .ret .enqueued)
  -- `dequeue`
  | .dequeue => (s, .deqTail s.queHead)
  | .deqTail head => (s, .deqNext head s.queTail)
  | .deqNext head tail => (s, .deqCheck head tail (s.mem.next head))
  | .deqCheck head tail next =>
    if head ≠ s.queHead then (s, .dequeue)
    else if head = tail then
      match next with
      | some next => (s, .deqHelp tail next)
      | none => (s, .ret (.value none))
    else
      match next with
      | none => (s, .dequeue)
      | some next => (s, .deqExchange head next)
  | .deqHelp tail next =>
    (if exchanges fails s.queTail tail then { s with queTail := next } else s, .dequeue)
  | .deqExchange head next =>
    if exchanges fails s.queHead head then ({ s with queHead := next }, .deqValue next)
    else (s, .dequeue)
  | .deqValue next => (s, .deqCount (s.mem.heap.content next))
  | .deqCount val => ({ s with counter := s.counter - 1 }, .ret (.value val))
  -- `head`
  | .head => (s, .headNext s.queHead)
  | .headNext headp => (s, .headCheck headp (s.mem.next headp))
  | .headCheck headp next =>
    if headp = s.queHead then
      match next with
      | some next => (s, .headValue next)
      | none => (s, .ret (.value none))
    else (s, .head)
  | .headValue next => (s, .ret (.value (s.mem.heap.content next)))
  | .ret r => (s, .ret r)

def result : Pc α → Option (Result α)
  | .ret r => some r
  | _ => none

def implementation (dummy : α) : Implementation (TQueue α) (Pc α) (Call α) (Result α) where
  init := new dummy
  start := start
  step := step
  result := result

/-- What a queue is for. -/
def object (α : Type*) : Object (List α) (Call α) (Result α) where
  init := []
  apply
    | s, .enqueue val => (s ++ [val], .enqueued)
    | s, .dequeue => (s.tail, .value s.head?)
    | s, .head => (s, .value s.head?)

/-! ### What holds at every step -/

/-- The nodes that have been linked, in order, with the places of `queHead` and of `queTail`, and
who has made the nodes that have not been linked yet. -/
structure Ghost (T : Type*) where
  chain : List ℕ
  head : ℕ
  tail : ℕ
  owner : ℕ → Option T

structure Inv (s : TQueue α) (g : Ghost T) (l : List α) : Prop where
  seg : Seg s.mem.heap g.chain.head? g.chain none
  values : (g.chain.drop (g.head + 1)).map s.mem.heap.content = l.map some
  head : g.chain[g.head]? = some s.queHead
  tail : g.chain[g.tail]? = some s.queTail
  le : g.head ≤ g.tail
  linked : ∀ a ∈ g.chain, g.owner a = none
  fresh : ∀ a, s.mem.size ≤ a → g.owner a = none

/-- `b` has been linked behind `a`. -/
def Ghost.Follows (g : Ghost T) (a b : ℕ) : Prop :=
  ∃ i, g.chain[i]? = some a ∧ g.chain[i + 1]? = some b

/-- `queHead` is or was at `a`. -/
def Ghost.Passed (g : Ghost T) (a : ℕ) : Prop := ∃ i ≤ g.head, g.chain[i]? = some a

/-- `queTail` is or was at `b`, and `queHead` at `a` before. -/
def Ghost.Between (g : Ghost T) (a b : ℕ) : Prop :=
  ∃ i j, i ≤ g.head ∧ i ≤ j ∧ j ≤ g.tail ∧ g.chain[i]? = some a ∧ g.chain[j]? = some b

/-- A node of `t` that has not been linked yet. -/
def Private (s : TQueue α) (g : Ghost T) (t : T) (a : ℕ) (v : α) : Prop :=
  s.mem.heap a = some ⟨v, none⟩ ∧ g.owner a = some t

/-- What a thread knows where it is. -/
def Local (s : TQueue α) (g : Ghost T) (t : T) : Pc α → Status (Call α) (Result α) → Prop
  | .enqueue val, x => x = .pending (.enqueue val)
  | .enqTail newnode, x => ∃ v, x = .pending (.enqueue v) ∧ Private s g t newnode v
  | .enqNext newnode tail, x | .enqLink newnode tail, x =>
    ∃ v, x = .pending (.enqueue v) ∧ Private s g t newnode v ∧ tail ∈ g.chain
  | .enqCheck newnode tail next, x =>
    ∃ v, x = .pending (.enqueue v) ∧ Private s g t newnode v ∧ tail ∈ g.chain ∧
      ∀ b, next = some b → g.Follows tail b
  | .enqHelp newnode tail next, x =>
    ∃ v, x = .pending (.enqueue v) ∧ Private s g t newnode v ∧ g.Follows tail next
  | .enqCount newnode tail, x | .enqSwing newnode tail, x =>
    x = .done .enqueued ∧ g.Follows tail newnode
  | .dequeue, x => x = .pending .dequeue
  | .deqTail head, x => x = .pending .dequeue ∧ g.Passed head
  | .deqNext head tail, x => x = .pending .dequeue ∧ g.Between head tail
  | .deqCheck head tail none, x => x = .seen .dequeue (.value none) ∧ head = tail
  | .deqCheck head tail (some next), x =>
    x = .pending .dequeue ∧ g.Between head tail ∧ g.Follows head next
  | .deqHelp tail next, x => x = .pending .dequeue ∧ g.Follows tail next
  | .deqExchange head next, x =>
    x = .pending .dequeue ∧
      ∃ i < g.tail, g.chain[i]? = some head ∧ g.chain[i + 1]? = some next
  | .deqValue next, x | .headValue next, x =>
    ∃ v, x = .done (.value (some v)) ∧ s.mem.heap.content next = some v
  | .deqCount val, x => x = .done (.value val)
  | .head, x => x = .pending .head
  | .headNext headp, x => x = .pending .head ∧ g.Passed headp
  | .headCheck _ none, x => x = .seen .head (.value none)
  | .headCheck headp (some next), x => x = .pending .head ∧ g.Follows headp next
  | .ret r, x => x = .done r

/-- What a step of `t` does to what others know. -/
structure Keeps (t : T) (s : TQueue α) (g : Ghost T) (s' : TQueue α) (g' : Ghost T) : Prop where
  content : ∀ a v, s.mem.heap.content a = some v → s'.mem.heap.content a = some v
  own : ∀ u ≠ t, ∀ a v, Private s g u a v → Private s' g' u a v
  chain : g.chain <+: g'.chain
  head : g.head ≤ g'.head
  tail : g.tail ≤ g'.tail

variable {s s' : TQueue α} {g g' : Ghost T} {l : List α} {t u : T} {a b i : ℕ} {v : α}

section Keeps

variable (h : Keeps t s g s' g')
include h

lemma Keeps.getElem? (hi : g.chain[i]? = some a) : g'.chain[i]? = some a := by
  obtain ⟨hlt, rfl⟩ := List.getElem?_eq_some_iff.mp hi
  exact List.prefix_iff_getElem?.mp h.chain i hlt

lemma Keeps.mem (ha : a ∈ g.chain) : a ∈ g'.chain := h.chain.subset ha

lemma Keeps.follows (ha : g.Follows a b) : g'.Follows a b := by
  obtain ⟨i, ha, hb⟩ := ha
  exact ⟨i, h.getElem? ha, h.getElem? hb⟩

lemma Keeps.passed (ha : g.Passed a) : g'.Passed a := by
  obtain ⟨i, hi, ha⟩ := ha
  exact ⟨i, hi.trans h.head, h.getElem? ha⟩

lemma Keeps.between (ha : g.Between a b) : g'.Between a b := by
  obtain ⟨i, j, hi, hij, hj, ha, hb⟩ := ha
  exact ⟨i, j, hi.trans h.head, hij, hj.trans h.tail, h.getElem? ha, h.getElem? hb⟩

lemma Keeps.local (hu : u ≠ t) {pc : Pc α} {x : Status (Call α) (Result α)}
    (hx : Local s g u pc x) : Local s' g' u pc x := by
  cases pc with
  | enqueue | dequeue | deqCount | head | ret => exact hx
  | enqTail n =>
    obtain ⟨v, hpending, hn⟩ := hx
    exact ⟨v, hpending, h.own u hu n v hn⟩
  | enqNext n tail | enqLink n tail =>
    obtain ⟨v, hpending, hn, htail⟩ := hx
    exact ⟨v, hpending, h.own u hu n v hn, h.mem htail⟩
  | enqCheck n tail next =>
    obtain ⟨v, hpending, hn, htail, hnext⟩ := hx
    exact ⟨v, hpending, h.own u hu n v hn, h.mem htail, fun b hb => h.follows (hnext b hb)⟩
  | enqHelp n tail next =>
    obtain ⟨v, hpending, hn, hnext⟩ := hx
    exact ⟨v, hpending, h.own u hu n v hn, h.follows hnext⟩
  | enqCount n tail | enqSwing n tail => exact ⟨hx.1, h.follows hx.2⟩
  | deqTail head => exact ⟨hx.1, h.passed hx.2⟩
  | deqNext head tail => exact ⟨hx.1, h.between hx.2⟩
  | deqCheck head tail next =>
    cases next with
    | none => exact hx
    | some next => exact ⟨hx.1, h.between hx.2.1, h.follows hx.2.2⟩
  | deqHelp tail next => exact ⟨hx.1, h.follows hx.2⟩
  | deqExchange head next =>
    obtain ⟨hpending, i, hi, hhead, hnext⟩ := hx
    exact ⟨hpending, i, hi.trans_le h.tail, h.getElem? hhead, h.getElem? hnext⟩
  | deqValue next | headValue next =>
    obtain ⟨v, hdone, hv⟩ := hx
    exact ⟨v, hdone, h.content _ v hv⟩
  | headNext headp => exact ⟨hx.1, h.passed hx.2⟩
  | headCheck headp next =>
    cases next with
    | none => exact hx
    | some next => exact ⟨hx.1, h.follows hx.2⟩

end Keeps

lemma keeps_of_mem (hmem : s'.mem = s.mem) (hhead : g.head ≤ g'.head) (htail : g.tail ≤ g'.tail)
    (hchain : g'.chain = g.chain) (howner : g'.owner = g.owner) : Keeps t s g s' g' where
  content a v hv := by rwa [hmem]
  own u _ a v ha := by rwa [Private, hmem, howner]
  chain := hchain ▸ List.prefix_refl _
  head := hhead
  tail := htail

/-! ### Nodes -/

lemma Inv.nodup (h : Inv s g l) : g.chain.Nodup := h.seg.nodup

lemma Inv.index_eq (h : Inv s g l) {i j : ℕ} (hi : g.chain[i]? = some a)
    (hj : g.chain[j]? = some a) : i = j :=
  (List.getElem?_inj (List.getElem?_eq_some_iff.mp hi).1 h.nodup).mp (hi.trans hj.symm)

lemma Inv.next_eq (h : Inv s g l) (hi : g.chain[i]? = some a) : s.mem.next a = g.chain[i + 1]? := by
  obtain ⟨n, hn, hnext⟩ := h.seg.getElem? hi
  rw [Memory.next_eq hn, hnext]

lemma Inv.follows (h : Inv s g l) (ha : a ∈ g.chain) (hb : s.mem.next a = some b) :
    g.Follows a b := by
  obtain ⟨i, hi⟩ := List.mem_iff_getElem?.mp ha
  exact ⟨i, hi, by rw [← h.next_eq hi, hb]⟩

lemma Inv.tail_lt (h : Inv s g l) : g.tail < g.chain.length :=
  (List.getElem?_eq_some_iff.mp h.tail).1

lemma Inv.tail_mem (h : Inv s g l) : s.queTail ∈ g.chain := List.mem_of_getElem? h.tail

lemma Inv.front (h : Inv s g l) (hb : g.chain[g.head + 1]? = some b) :
    ∃ v l', l = v :: l' ∧ s.mem.heap.content b = some v ∧
      (g.chain.drop (g.head + 1 + 1)).map s.mem.heap.content = l'.map some := by
  have hvalues := h.values
  obtain ⟨hlt, rfl⟩ := List.getElem?_eq_some_iff.mp hb
  rw [List.drop_eq_getElem_cons hlt, List.map_cons] at hvalues
  cases l with
  | nil => cases hvalues
  | cons v l' =>
    obtain ⟨hv, hrest⟩ := List.cons.inj hvalues
    exact ⟨v, l', rfl, hv, hrest⟩

lemma Inv.empty (h : Inv s g l) (hi : i ≤ g.head) (ha : g.chain[i]? = some a)
    (hnext : s.mem.next a = none) : l = [] ∧ g.tail = i := by
  rw [h.next_eq ha, List.getElem?_eq_none_iff] at hnext
  have hlt := h.tail_lt
  have hle := h.le
  have hvalues := h.values
  rw [List.drop_eq_nil_of_le (by omega), List.map_nil, eq_comm, List.map_eq_nil_iff] at hvalues
  exact ⟨hvalues, by omega⟩

lemma Private.ne (hp : Private s g t a v) (h : Inv s g l) (hb : b ∈ g.chain) : b ≠ a := by
  rintro rfl
  have ho := hp.2
  rw [h.linked b hb] at ho
  cases ho

/-! ### What changes -/

lemma Inv.count (h : Inv s g l) (n : ℤ) : Inv { s with counter := n } g l :=
  ⟨h.seg, h.values, h.head, h.tail, h.le, h.linked, h.fresh⟩

lemma Inv.new (h : Inv s g l) (t : T) (v : α) :
    Inv { s with mem := s.mem.new v }
      { g with owner := Function.update g.owner s.mem.size (some t) } l := by
  have hheap : ∀ a ∈ g.chain, (s.mem.new v).heap a = s.mem.heap a ∧ a ≠ s.mem.size := by
    intro a ha
    obtain ⟨n, hn⟩ := h.seg.node ha
    exact ⟨(Memory.heap_new v hn).trans hn.symm, Nat.ne_of_lt (Memory.lt_size hn)⟩
  refine ⟨h.seg.congr fun a ha => (hheap a ha).1, ?_, h.head, h.tail, h.le, ?_, ?_⟩
  · rw [← h.values]
    exact List.map_congr_left fun a ha =>
      congrArg (Option.map Node.content) (hheap a (List.mem_of_mem_drop ha)).1
  · exact fun a ha => (Function.update_of_ne (hheap a ha).2 _ _).trans (h.linked a ha)
  · intro a ha
    have hsize : s.mem.size + 1 ≤ a := ha
    exact (Function.update_of_ne (by omega) _ _).trans (h.fresh a (by omega))

lemma keeps_new (v : α) :
    Keeps t s g { s with mem := s.mem.new v }
      { g with owner := Function.update g.owner s.mem.size (some t) } where
  content a c hc := Memory.content_new v hc
  own u _ a c ha := by
    have hne : a ≠ s.mem.size := Nat.ne_of_lt (Memory.lt_size ha.1)
    exact ⟨Memory.heap_new v ha.1, (Function.update_of_ne hne _ _).trans ha.2⟩
  chain := List.prefix_refl _
  head := Nat.le_refl _
  tail := Nat.le_refl _

lemma private_new (s : TQueue α) (g : Ghost T) (t : T) (v : α) :
    Private { s with mem := s.mem.new v }
      { g with owner := Function.update g.owner s.mem.size (some t) } t s.mem.size v :=
  ⟨Memory.heap_new_self v, Function.update_self _ _ _⟩

lemma Inv.swing (h : Inv s g l) (htail : s.queTail = a) (hb : g.Follows a b) :
    Inv { s with queTail := b } { g with tail := g.tail + 1 } l := by
  obtain ⟨i, ha, hb⟩ := hb
  obtain rfl : g.tail = i := h.index_eq (h.tail.trans (by rw [htail])) ha
  exact ⟨h.seg, h.values, h.head, hb, h.le.trans (Nat.le_succ _), h.linked, h.fresh⟩

lemma Inv.link (h : Inv s g l) (hp : Private s g t b v) (ha : a ∈ g.chain)
    (hnext : s.mem.next a = none) :
    Inv { s with mem := s.mem.setNext a (some b) }
      { g with chain := g.chain ++ [b], owner := Function.update g.owner b none } (l ++ [v]) ∧
    Ghost.Follows { g with chain := g.chain ++ [b], owner := Function.update g.owner b none }
      a b := by
  obtain ⟨i, hi⟩ := List.mem_iff_getElem?.mp ha
  -- nothing is behind `a`, so it is the last node of the chain
  have hlast : g.chain.length = i + 1 := by
    have hle := List.getElem?_eq_none_iff.mp ((h.next_eq hi).symm.trans hnext)
    have hlt := (List.getElem?_eq_some_iff.mp hi).1
    omega
  have hlast? : g.chain.getLast? = some a := by
    rw [List.getLast?_eq_getElem?, hlast, Nat.add_sub_cancel, hi]
  have hlt := h.tail_lt
  have hle := h.le
  refine ⟨⟨?_, ?_, ?_, ?_, h.le, ?_, ?_⟩, i, ?_, ?_⟩
  · rw [List.head?_append_of_ne_nil _ (List.ne_nil_of_mem ha)]
    exact h.seg.link hlast? hp.1 fun hb => hp.ne h hb rfl
  · dsimp only
    rw [List.drop_append_of_le_length (by omega), List.map_append, List.map_append, ← h.values]
    refine congrArg₂ _ (List.map_congr_left fun x _ => Memory.content_setNext _ x) ?_
    rw [List.map_singleton, List.map_singleton, Memory.content_setNext, Heap.content, hp.1,
      Option.map_some]
  · dsimp only
    rw [List.getElem?_append_left (by omega)]
    exact h.head
  · rw [List.getElem?_append_left hlt]
    exact h.tail
  · intro x hx
    by_cases hxb : x = b
    · rw [hxb]
      exact Function.update_self _ _ _
    · have hmem := (List.mem_append.mp hx).resolve_right (by simpa using hxb)
      exact (Function.update_of_ne hxb _ _).trans (h.linked x hmem)
  · intro x hx
    have hb : b < s.mem.size := Memory.lt_size hp.1
    have hsize : s.mem.size ≤ x := hx
    exact (Function.update_of_ne (by omega) _ _).trans (h.fresh x hx)
  · rw [List.getElem?_append_left (by omega), hi]
  · rw [← hlast, List.getElem?_concat_length]

lemma keeps_link (h : Inv s g l) (hp : Private s g t b v) (ha : a ∈ g.chain) :
    Keeps t s g { s with mem := s.mem.setNext a (some b) }
      { g with chain := g.chain ++ [b], owner := Function.update g.owner b none } where
  content x c hc := (Memory.content_setNext _ x).trans hc
  own u hu x c hx := by
    refine ⟨(Memory.heap_setNext_of_ne _ (hx.ne h ha).symm).trans hx.1, ?_⟩
    refine (Function.update_of_ne ?_ _ _).trans hx.2
    rintro rfl
    exact hu (Option.some.inj (hx.2.symm.trans hp.2))
  chain := List.prefix_append _ _
  head := Nat.le_refl _
  tail := Nat.le_refl _

lemma Inv.shift (h : Inv s g l) (ha : g.chain[i]? = some a) (hb : g.chain[i + 1]? = some b)
    (hi : i < g.tail) (hhead : s.queHead = a) :
    ∃ v l', l = v :: l' ∧ s.mem.heap.content b = some v ∧
      Inv { s with queHead := b } { g with head := g.head + 1 } l' := by
  obtain rfl : g.head = i := h.index_eq (h.head.trans (by rw [hhead])) ha
  obtain ⟨v, l', hl, hv, hvalues⟩ := h.front hb
  exact ⟨v, l', hl, hv, h.seg, hvalues, hb, h.tail, hi, h.linked, h.fresh⟩

/-! ### The steps -/

/-- By how much a thread has changed the queue and not the counter. -/
def share : Pc α → ℤ
  | .enqCount _ _ => 1
  | .deqValue _ => -1
  | .deqCount _ => -1
  | _ => 0

/-- What one step of a thread comes to. -/
def Advances (s : TQueue α) (g : Ghost T) (l : List α) (t : T) (pc : Pc α)
    (x : Status (Call α) (Result α)) (after : TQueue α × Pc α) : Prop :=
  ∃ g' l' x', ReflTransGen (object α).Move (l, x) (l', x') ∧ Inv after.1 g' l' ∧
    Local after.1 g' t after.2 x' ∧
    (∀ t' ≠ t, ∀ pc' y, Local s g t' pc' y → Local after.1 g' t' pc' y) ∧
    (l'.length - after.1.counter : ℤ) + share pc = l.length - s.counter + share after.2

variable {pc pc' : Pc α} {x x' : Status (Call α) (Result α)}

lemma advances {l' : List α} (hmoves : ReflTransGen (object α).Move (l, x) (l', x'))
    (hinv : Inv s' g' l') (hlocal : Local s' g' t pc' x') (hkeeps : Keeps t s g s' g')
    (hcount : (l'.length - s'.counter : ℤ) + share pc = l.length - s.counter + share pc') :
    Advances s g l t pc x (s', pc') :=
  ⟨g', l', x', hmoves, hinv, hlocal, fun _ hu _ _ hx => hkeeps.local hu hx, hcount⟩

lemma advances_stay (h : Inv s g l) (hmoves : ReflTransGen (object α).Move (l, x) (l, x'))
    (hlocal : Local s g t pc' x') (hshare : share pc = share pc') :
    Advances s g l t pc x (s, pc') :=
  advances hmoves h hlocal (keeps_of_mem rfl (Nat.le_refl _) (Nat.le_refl _) rfl rfl)
    (by rw [hshare])

lemma advances_swing (h : Inv s g l) (fails : Bool) (hb : g.Follows a b)
    (hlocal : ∀ (s' : TQueue α) (g' : Ghost T), s'.mem = s.mem → g'.owner = g.owner →
      Local s' g' t pc' x)
    (hshare : share pc = share pc') :
    Advances s g l t pc x
      (if exchanges fails s.queTail a then { s with queTail := b } else s, pc') := by
  split
  · rename_i hex
    have hkeeps : Keeps t s g { s with queTail := b } { g with tail := g.tail + 1 } :=
      keeps_of_mem rfl (Nat.le_refl _) (Nat.le_succ _) rfl rfl
    exact advances .refl (h.swing (exchanges_iff.mp hex).2 hb) (hlocal _ _ rfl rfl) hkeeps
      (by rw [hshare])
  · exact advances_stay h .refl (hlocal s g rfl rfl) hshare

lemma acts (l : List α) (c : Call α) :
    ReflTransGen (object α).Move (l, .pending c)
      (((object α).apply l c).1, .done ((object α).apply l c).2) :=
  .single (.act l c)

lemma step_enqCheck (fails : Bool) (h : Inv s g l) {newnode tail : ℕ} {next : Option ℕ}
    (hx : Local s g t (.enqCheck newnode tail next) x) :
    Advances s g l t (.enqCheck newnode tail next) x
      (s.step (.enqCheck newnode tail next) fails) := by
  obtain ⟨v, rfl, hp, htail, hnext⟩ := hx
  by_cases hq : tail = s.queTail
  · cases next with
    | none =>
      rw [step, if_neg (not_not.mpr hq)]
      exact advances_stay h .refl ⟨v, rfl, hp, htail⟩ rfl
    | some next =>
      rw [step, if_neg (not_not.mpr hq)]
      exact advances_stay h .refl ⟨v, rfl, hp, hnext next rfl⟩ rfl
  · have hstep : s.step (.enqCheck newnode tail next) fails = (s, .enqTail newnode) := by
      cases next <;> exact if_pos hq
    rw [hstep]
    exact advances_stay h .refl ⟨v, rfl, hp⟩ rfl

/-- It is here that `enqueue` acts. -/
lemma step_enqLink (fails : Bool) (h : Inv s g l) {newnode tail : ℕ}
    (hx : Local s g t (.enqLink newnode tail) x) :
    Advances s g l t (.enqLink newnode tail) x (s.step (.enqLink newnode tail) fails) := by
  obtain ⟨v, rfl, hp, htail⟩ := hx
  rw [step]
  split
  · rename_i hex
    obtain ⟨hinv, hfollows⟩ := h.link hp htail (exchanges_iff.mp hex).2
    refine advances (acts l (.enqueue v)) hinv ⟨rfl, hfollows⟩ (keeps_link h hp htail) ?_
    simp only [object, share, List.length_append, List.length_singleton]
    omega
  · exact advances_stay h .refl ⟨v, rfl, hp⟩ rfl

/-- Nothing behind the node: the queue is empty now, whatever it is when `dequeue` finds
`queHead` where it was. -/
lemma step_deqNext (fails : Bool) (h : Inv s g l) {head tail : ℕ}
    (hx : Local s g t (.deqNext head tail) x) :
    Advances s g l t (.deqNext head tail) x (s.step (.deqNext head tail) fails) := by
  obtain ⟨rfl, i, j, hi, hij, hj, hhead, htail⟩ := hx
  cases hnext : s.mem.next head with
  | none =>
    obtain ⟨rfl, hlast⟩ := h.empty hi hhead hnext
    obtain rfl : i = j := by omega
    have heq : head = tail := Option.some.inj (hhead.symm.trans htail)
    rw [step, hnext]
    exact advances_stay h (.single (.look rfl)) ⟨rfl, heq⟩ rfl
  | some next =>
    have hfollows : g.Follows head next := ⟨i, hhead, by rw [← h.next_eq hhead, hnext]⟩
    rw [step, hnext]
    exact advances_stay h .refl ⟨rfl, ⟨i, j, hi, hij, hj, hhead, htail⟩, hfollows⟩ rfl

lemma step_deqCheck (fails : Bool) (h : Inv s g l) {head tail : ℕ} {next : Option ℕ}
    (hx : Local s g t (.deqCheck head tail next) x) :
    Advances s g l t (.deqCheck head tail next) x
      (s.step (.deqCheck head tail next) fails) := by
  cases next with
  | none =>
    obtain ⟨rfl, rfl⟩ := hx
    by_cases hq : head = s.queHead
    · rw [step, if_neg (not_not.mpr hq), if_pos rfl]
      exact advances_stay h (.single (.keep _ _ _)) rfl rfl
    · rw [step, if_pos hq]
      exact advances_stay h (.single (.again _ _ _)) rfl rfl
  | some next =>
    obtain ⟨rfl, ⟨i, j, hi, hij, hj, hhead, htail⟩, hfollows⟩ := hx
    by_cases hq : head = s.queHead
    · by_cases heq : head = tail
      · rw [step, if_neg (not_not.mpr hq), if_pos heq]
        exact advances_stay h .refl ⟨rfl, heq ▸ hfollows⟩ rfl
      · rw [step, if_neg (not_not.mpr hq), if_neg heq]
        obtain ⟨k, hk, hnext⟩ := hfollows
        obtain rfl := h.index_eq hhead hk
        have hne : i ≠ j := by
          rintro rfl
          exact heq (Option.some.inj (hhead.symm.trans htail))
        exact advances_stay h .refl ⟨rfl, i, by omega, hhead, hnext⟩ rfl
    · rw [step, if_pos hq]
      exact advances_stay h .refl rfl rfl

/-- It is here that `dequeue` acts on a queue that is not empty. -/
lemma step_deqExchange (fails : Bool) (h : Inv s g l) {head next : ℕ}
    (hx : Local s g t (.deqExchange head next) x) :
    Advances s g l t (.deqExchange head next) x (s.step (.deqExchange head next) fails) := by
  obtain ⟨rfl, i, hi, hhead, hnext⟩ := hx
  rw [step]
  split
  · rename_i hex
    obtain ⟨v, l', rfl, hv, hinv⟩ := h.shift hhead hnext hi (exchanges_iff.mp hex).2
    refine advances (acts (v :: l') .dequeue) hinv ⟨v, rfl, hv⟩
      (keeps_of_mem rfl (Nat.le_succ _) (Nat.le_refl _) rfl rfl) ?_
    simp only [object, share, List.tail_cons, List.length_cons]
    omega
  · exact advances_stay h .refl rfl rfl

lemma step_headNext (fails : Bool) (h : Inv s g l) {headp : ℕ}
    (hx : Local s g t (.headNext headp) x) :
    Advances s g l t (.headNext headp) x (s.step (.headNext headp) fails) := by
  obtain ⟨rfl, i, hi, hhead⟩ := hx
  cases hnext : s.mem.next headp with
  | none =>
    obtain ⟨rfl, -⟩ := h.empty hi hhead hnext
    rw [step, hnext]
    exact advances_stay h (.single (.look rfl)) rfl rfl
  | some next =>
    rw [step, hnext]
    exact advances_stay h .refl ⟨rfl, i, hhead, by rw [← h.next_eq hhead, hnext]⟩ rfl

lemma step_headCheck (fails : Bool) (h : Inv s g l) {headp : ℕ} {next : Option ℕ}
    (hx : Local s g t (.headCheck headp next) x) :
    Advances s g l t (.headCheck headp next) x (s.step (.headCheck headp next) fails) := by
  cases next with
  | none =>
    obtain rfl : x = .seen .head (.value none) := hx
    by_cases hq : headp = s.queHead
    · rw [step, if_pos hq]
      exact advances_stay h (.single (.keep _ _ _)) rfl rfl
    · rw [step, if_neg hq]
      exact advances_stay h (.single (.again _ _ _)) rfl rfl
  | some next =>
    obtain ⟨rfl, i, hhead, hnext⟩ := hx
    by_cases hq : headp = s.queHead
    · rw [step, if_pos hq]
      obtain rfl := h.index_eq (h.head.trans (by rw [hq])) hhead
      obtain ⟨v, l', rfl, hv, -⟩ := h.front hnext
      exact advances_stay h (acts (v :: l') .head) ⟨v, rfl, hv⟩ rfl
    · rw [step, if_neg hq]
      exact advances_stay h .refl rfl rfl

lemma step_advances (fails : Bool) (h : Inv s g l) (hx : Local s g t pc x)
    (hr : result pc = none) : Advances s g l t pc x (s.step pc fails) := by
  cases pc with
  | enqueue val =>
    obtain rfl : x = .pending (.enqueue val) := hx
    exact advances .refl (h.new t val) ⟨val, rfl, private_new s g t val⟩ (keeps_new val) rfl
  | enqTail n =>
    obtain ⟨v, rfl, hp⟩ := hx
    exact advances_stay h .refl ⟨v, rfl, hp, h.tail_mem⟩ rfl
  | enqNext n tail =>
    obtain ⟨v, rfl, hp, htail⟩ := hx
    exact advances_stay h .refl ⟨v, rfl, hp, htail, fun b => h.follows htail⟩ rfl
  | enqCheck => exact step_enqCheck fails h hx
  | enqHelp n tail next =>
    obtain ⟨v, rfl, hp, hnext⟩ := hx
    exact advances_swing h fails hnext
      (fun s' g' hmem howner => ⟨v, rfl, by rwa [Private, hmem, howner]⟩) rfl
  -- the steps that read shared nodes have a lemma each
  | enqLink => exact step_enqLink fails h hx
  | enqCount n tail =>
    have hmoves : ReflTransGen (object α).Move (l, x) (l, x) := .refl
    refine advances hmoves (h.count _) hx
      (keeps_of_mem rfl (Nat.le_refl _) (Nat.le_refl _) rfl rfl) ?_
    simp only [share]
    omega
  | enqSwing n tail =>
    obtain ⟨rfl, hfollows⟩ := hx
    exact advances_swing h false hfollows (fun _ _ _ _ => rfl) rfl
  | dequeue =>
    obtain rfl : x = .pending .dequeue := hx
    exact advances_stay h .refl ⟨rfl, g.head, Nat.le_refl _, h.head⟩ rfl
  | deqTail head =>
    obtain ⟨rfl, i, hi, hhead⟩ := hx
    exact advances_stay h .refl
      ⟨rfl, i, g.tail, hi, hi.trans h.le, Nat.le_refl _, hhead, h.tail⟩ rfl
  | deqNext => exact step_deqNext fails h hx
  | deqCheck => exact step_deqCheck fails h hx
  | deqHelp tail next =>
    obtain ⟨rfl, hnext⟩ := hx
    exact advances_swing h fails hnext (fun _ _ _ _ => rfl) rfl
  | deqExchange => exact step_deqExchange fails h hx
  | deqValue next =>
    obtain ⟨v, rfl, hv⟩ := hx
    exact advances_stay h .refl (by rw [hv]; rfl) rfl
  | deqCount val =>
    have hmoves : ReflTransGen (object α).Move (l, x) (l, x) := .refl
    refine advances hmoves (h.count _) hx
      (keeps_of_mem rfl (Nat.le_refl _) (Nat.le_refl _) rfl rfl) ?_
    simp only [share]
    omega
  | head =>
    obtain rfl : x = .pending .head := hx
    exact advances_stay h .refl ⟨rfl, g.head, Nat.le_refl _, h.head⟩ rfl
  | headNext => exact step_headNext fails h hx
  | headCheck => exact step_headCheck fails h hx
  | headValue next =>
    obtain ⟨v, rfl, hv⟩ := hx
    exact advances_stay h .refl (by rw [hv]; rfl) rfl
  | ret r => cases hr

lemma inv_new (T : Type*) (dummy : α) :
    Inv (new dummy) (⟨[0], 0, 0, fun _ => none⟩ : Ghost T) [] where
  seg := .cons (n := ⟨dummy, none⟩) rfl (.nil none)
  values := rfl
  head := rfl
  tail := rfl
  le := Nat.le_refl 0
  linked _ _ := rfl
  fresh _ _ := rfl

lemma Inv.holds (h : Inv s g l) :
    ∃ chain, Seg s.mem.heap (some s.queHead) (s.queHead :: chain) none ∧
      chain.map s.mem.heap.content = l.map some := by
  obtain ⟨hlt, hhead⟩ := List.getElem?_eq_some_iff.mp h.head
  have hseg := h.seg
  rw [← List.take_append_drop g.head g.chain, List.drop_eq_getElem_cons hlt, hhead] at hseg
  obtain ⟨c, -, hseg⟩ := hseg.split
  obtain rfl := hseg.cons_inv.1
  exact ⟨_, hseg, h.values⟩

variable (T) in
/-- The queue is what it is for. -/
def refinement (dummy : α) : Refinement T (implementation dummy) (object α) (Ghost T) where
  Inv := Inv
  Local := Local
  balance s l := l.length - s.counter
  share := share
  ghost := ⟨[0], 0, 0, fun _ => none⟩
  init := inv_new T dummy
  start t c _ := by cases c <;> rfl
  step fails := step_advances fails
  result {sh g s t pc x r} _ hx hr := by
    cases pc with
    | ret r' =>
      obtain rfl : r' = r := Option.some.inj hr
      exact hx
    | _ => cases hr
  balance_init := rfl
  share_start c := by cases c <;> rfl
  share_result {pc} hr := by
    cases pc with
    | ret r => rfl
    | _ => cases hr

variable [DecidableEq T] {dummy : α} {es : List (Event T (Call α) (Result α))}
  {c : Config T (TQueue α) (Pc α)}

/-- **`TQueue` is linearizable**, if no node is deleted and no address used again: however the steps
of the threads are interleaved, what is called and returned is so on a queue on which every call
acts at once. What that queue holds is in the nodes behind `queHead`, and `counter` differs from its
length by what is being counted. -/
theorem queue_linearizable (h : ((implementation dummy).automaton T).Run es c) :
    ∃ l st, (object α).atomic.Run es (l, st) ∧ (∀ t, c.threads t = none → st t = .idle) ∧
      (∃ chain, Seg c.shared.mem.heap (some c.shared.queHead) (c.shared.queHead :: chain) none ∧
        chain.map c.shared.mem.heap.content = l.map some) ∧
      ∃ F : Finset T, (∀ t ∉ F, c.threads t = none) ∧
        l.length - c.shared.counter = ∑ t ∈ F, (c.threads t).elim 0 share := by
  obtain ⟨l, st, hrun, hidle, ⟨g, hinv⟩, hcount⟩ := (refinement T dummy).run h
  exact ⟨l, st, hrun, hidle, hinv.holds, hcount⟩

/-- `true` links 5 and is slow; `false` finds `queTail` behind, moves it on and links 7. `true`
then takes 5 out, while `queTail` is behind again. -/
def sampleActs : List (Act Bool (Call ℕ)) :=
  [[.call true (.enqueue 5)], List.replicate 5 (.run true false), [.call false (.enqueue 7)],
    List.replicate 10 (.run false false), List.replicate 2 (.run true false),
    [.ret true, .call true .dequeue], List.replicate 7 (.run true false), [.ret true]].flatten

def sampleHistory : List (Event Bool (Call ℕ) (Result ℕ)) :=
  [.call true (.enqueue 5), .call false (.enqueue 7), .ret true .enqueued, .call true .dequeue,
    .ret true (.value (some 5))]

theorem queue_linearizable_sample :
    ∃ c l st, (implementation (0 : ℕ)).follow sampleActs ⟨new 0, fun _ => none⟩ =
        some (sampleHistory, c) ∧
      (object ℕ).atomic.Run sampleHistory (l, st) := by
  have hfollow : ((implementation (0 : ℕ)).follow sampleActs ⟨new 0, fun _ => none⟩).map (·.1) =
      some sampleHistory := by decide +kernel
  obtain ⟨⟨es, c⟩, hc, hes⟩ := Option.map_eq_some_iff.mp hfollow
  obtain rfl : es = sampleHistory := hes
  obtain ⟨l, st, hatomic, -⟩ := queue_linearizable (Implementation.run_of_follow sampleActs hc)
  exact ⟨c, l, st, hc, hatomic⟩

end TQueue

end TreeFrog.Queue
