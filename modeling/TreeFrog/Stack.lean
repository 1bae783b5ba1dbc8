import TreeFrog.Linearizable
import TreeFrog.LinkedList

/-!
`TStack`: a stack that threads share without a lock. The loads, the exchanges and the counting are
steps of their own, between which other threads take theirs.

Nodes are not deleted here, and no address is used again. The hazard pointers are there to have it
so, but `guard` does not look again whether what it guards is still the head: where a node is gone
by then and its address is that of a new one, the exchange of `pop` takes the one for the other.
-/

namespace TreeFrog.Stack

open Linearizable LinkedList Relation

variable {T α : Type*}

/-! ### The stack -/

structure TStack (α : Type*) where
  mem : Memory α := .empty
  stkHead : Option ℕ := none
  counter : ℤ := 0

inductive Call (α : Type*) where
  | push (val : α)
  | pop
  | top
  deriving DecidableEq

inductive Result (α : Type*) where
  | pushed
  /-- Whether there was one, and what is in `val` then. -/
  | value (val : Option α)
  deriving DecidableEq

/-- Where a thread is in `push`, in `pop` and in `top`. -/
inductive Pc (α : Type*) where
  | push (val : α)
  | pushLoad (pnode : ℕ)
  | pushExchange (pnode : ℕ)
  | pushCount
  | pop
  | popNext (pnode : ℕ)
  | popExchange (pnode : ℕ) (next : Option ℕ)
  | popCount (pnode : ℕ)
  | popValue (pnode : ℕ)
  | popUnlink (pnode : ℕ) (val : Option α)
  | top
  | topValue (pnode : ℕ)
  | ret (r : Result α)

namespace TStack

def start : Call α → Pc α
  | .push val => .push val
  | .pop => .pop
  | .top => .top

def step (s : TStack α) (pc : Pc α) (fails : Bool) : TStack α × Pc α :=
  match pc with
  -- `push`
  | .push val => ({ s with mem := s.mem.new val }, .pushLoad s.mem.size)
  | .pushLoad pnode => ({ s with mem := s.mem.setNext pnode s.stkHead }, .pushExchange pnode)
  | .pushExchange pnode =>
    if exchanges fails s.stkHead (s.mem.next pnode) then
      ({ s with stkHead := some pnode }, .pushCount)
    else (s, .pushLoad pnode)
  | .pushCount => ({ s with counter := s.counter + 1 }, .ret .pushed)
  -- `pop`
  | .pop =>
    match s.stkHead with
    | none => (s, .ret (.value none))
    | some pnode => (s, .popNext pnode)
  | .popNext pnode => (s, .popExchange pnode (s.mem.next pnode))
  | .popExchange pnode next =>
    if exchanges fails s.stkHead (some pnode) then ({ s with stkHead := next }, .popCount pnode)
    else (s, .pop)
  | .popCount pnode => ({ s with counter := s.counter - 1 }, .popValue pnode)
  | .popValue pnode => (s, .popUnlink pnode (s.mem.heap.content pnode))
  | .popUnlink pnode val => ({ s with mem := s.mem.setNext pnode none }, .ret (.value val))
  -- `top`
  | .top =>
    match s.stkHead with
    | none => (s, .ret (.value none))
    | some pnode => (s, .topValue pnode)
  | .topValue pnode => (s, .ret (.value (s.mem.heap.content pnode)))
  | .ret r => (s, .ret r)

def result : Pc α → Option (Result α)
  | .ret r => some r
  | _ => none

def implementation (α : Type*) : Implementation (TStack α) (Pc α) (Call α) (Result α) where
  init := {}
  start := start
  step := step
  result := result

/-- What a stack is for. -/
def object (α : Type*) : Object (List α) (Call α) (Result α) where
  init := []
  apply
    | s, .push val => (val :: s, .pushed)
    | s, .pop => (s.tail, .value s.head?)
    | s, .top => (s, .value s.head?)

/-! ### What holds at every step -/

/-- The nodes on the stack, and who has made the ones that have not been there yet. -/
structure Ghost (T : Type*) where
  chain : List ℕ
  owner : ℕ → Option T

structure Inv (s : TStack α) (g : Ghost T) (l : List α) : Prop where
  seg : Seg s.mem.heap s.stkHead g.chain none
  values : g.chain.map s.mem.heap.content = l.map some
  linked : ∀ a ∈ g.chain, g.owner a = none
  fresh : ∀ a, s.mem.size ≤ a → g.owner a = none

/-- A node that is or was on the stack. -/
def Linked (s : TStack α) (g : Ghost T) (a : ℕ) : Prop :=
  (∃ v, s.mem.heap.content a = some v) ∧ g.owner a = none

/-- What a thread knows where it is. -/
def Local (s : TStack α) (g : Ghost T) (t : T) : Pc α → Status (Call α) (Result α) → Prop
  | .push val, x => x = .pending (.push val)
  | .pushLoad a, x | .pushExchange a, x =>
    ∃ v, x = .pending (.push v) ∧ s.mem.heap.content a = some v ∧ g.owner a = some t
  | .pushCount, x => x = .done .pushed
  | .pop, x => x = .pending .pop
  | .popNext a, x => x = .pending .pop ∧ Linked s g a
  | .popExchange a next, x =>
    x = .pending .pop ∧ Linked s g a ∧ (a ∈ g.chain → s.mem.next a = next)
  | .popCount a, x | .popValue a, x =>
    ∃ v, x = .done (.value (some v)) ∧ s.mem.heap.content a = some v ∧ Linked s g a ∧ a ∉ g.chain
  | .popUnlink a val, x =>
    x = .done (.value val) ∧ Linked s g a ∧ a ∉ g.chain
  | .top, x => x = .pending .top
  | .topValue a, x => ∃ v, x = .done (.value (some v)) ∧ s.mem.heap.content a = some v
  | .ret r, x => x = .done r

/-- What a step of `t` does to the nodes that others know of. -/
structure Keeps (t : T) (s : TStack α) (g : Ghost T) (s' : TStack α) (g' : Ghost T) : Prop where
  content : ∀ a v, s.mem.heap.content a = some v → s'.mem.heap.content a = some v
  owner : ∀ u ≠ t, ∀ a, g.owner a = some u → g'.owner a = some u
  linked : ∀ a, Linked s g a → g'.owner a = none
  gone : ∀ a, Linked s g a → a ∈ g'.chain → a ∈ g.chain
  next : ∀ a ∈ g'.chain, Linked s g a → s'.mem.next a = s.mem.next a

variable {s s' : TStack α} {g g' : Ghost T} {l : List α} {t u : T} {a : ℕ}

lemma Keeps.isLinked (h : Keeps t s g s' g') (ha : Linked s g a) : Linked s' g' a := by
  obtain ⟨v, hv⟩ := ha.1
  exact ⟨⟨v, h.content a v hv⟩, h.linked a ha⟩

lemma Keeps.local (h : Keeps t s g s' g') (hu : u ≠ t) {pc : Pc α}
    {x : Status (Call α) (Result α)} (hx : Local s g u pc x) : Local s' g' u pc x := by
  cases pc with
  | push | pushCount | pop | top | ret => exact hx
  | pushLoad a | pushExchange a =>
    obtain ⟨v, hpending, hv, ho⟩ := hx
    exact ⟨v, hpending, h.content a v hv, h.owner u hu a ho⟩
  | popNext a => exact ⟨hx.1, h.isLinked hx.2⟩
  | popExchange a next =>
    obtain ⟨hpending, hl, hnext⟩ := hx
    refine ⟨hpending, h.isLinked hl, fun ha => ?_⟩
    rw [h.next a ha hl, hnext (h.gone a hl ha)]
  | popCount a | popValue a =>
    obtain ⟨v, hdone, hv, hl, ha⟩ := hx
    exact ⟨v, hdone, h.content a v hv, h.isLinked hl, fun ha' => ha (h.gone a hl ha')⟩
  | popUnlink a val =>
    obtain ⟨hdone, hl, ha⟩ := hx
    exact ⟨hdone, h.isLinked hl, fun ha' => ha (h.gone a hl ha')⟩
  | topValue a =>
    obtain ⟨v, hdone, hv⟩ := hx
    exact ⟨v, hdone, h.content a v hv⟩

lemma keeps_of_mem (hmem : s'.mem = s.mem) : Keeps t s g s' g where
  content a v hv := by rwa [hmem]
  owner _ _ _ ho := ho
  linked _ ha := ha.2
  gone _ _ ha := ha
  next a _ _ := by rw [hmem]

lemma Inv.of_mem (h : Inv s g l) (hmem : s'.mem = s.mem) (hhead : s'.stkHead = s.stkHead) :
    Inv s' g l where
  seg := by rw [hmem, hhead]; exact h.seg
  values := by rw [hmem]; exact h.values
  linked := h.linked
  fresh := by rw [hmem]; exact h.fresh

/-! ### Nodes -/

lemma Inv.mem_linked (h : Inv s g l) (ha : a ∈ g.chain) : Linked s g a := by
  obtain ⟨n, hn⟩ := h.seg.node ha
  exact ⟨⟨n.content, by rw [Heap.content, hn, Option.map_some]⟩, h.linked a ha⟩

lemma Inv.head (h : Inv s g l) (hhead : s.stkHead = some a) :
    ∃ chain v l', g.chain = a :: chain ∧ l = v :: l' ∧ s.mem.heap.content a = some v ∧
      Seg s.mem.heap (s.mem.next a) chain none ∧ chain.map s.mem.heap.content = l'.map some := by
  obtain ⟨hseg, hvalues, -, -⟩ := h
  cases hchain : g.chain with
  | nil =>
    rw [hchain, hhead] at hseg
    cases hseg
  | cons b chain =>
    rw [hchain] at hseg hvalues
    obtain ⟨hb, n, hn, htail⟩ := hseg.cons_inv
    obtain rfl : a = b := Option.some.inj (hhead.symm.trans hb)
    cases l with
    | nil => cases hvalues
    | cons v l' =>
      obtain ⟨hv, hvalues⟩ := List.cons.inj hvalues
      exact ⟨chain, v, l', rfl, rfl, hv, by rwa [Memory.next_eq hn], hvalues⟩

lemma Inv.empty (h : Inv s g l) (hhead : s.stkHead = none) : l = [] := by
  have hchain : g.chain = [] := by
    have := h.seg.head_eq
    rwa [hhead, eq_comm, List.head?_eq_none_iff] at this
  have := h.values
  rwa [hchain, List.map_nil, eq_comm, List.map_eq_nil_iff] at this

lemma Inv.setNext (h : Inv s g l) (ha : a ∉ g.chain) (b : Option ℕ) :
    Inv { s with mem := s.mem.setNext a b } g l where
  seg := h.seg.congr fun x hx => Memory.heap_setNext_of_ne b (ne_of_mem_of_not_mem hx ha)
  values := by
    rw [← h.values]
    exact List.map_congr_left fun x _ => Memory.content_setNext b x
  linked := h.linked
  fresh := h.fresh

lemma keeps_setNext (ha : a ∉ g.chain) (b : Option ℕ) :
    Keeps t s g { s with mem := s.mem.setNext a b } g where
  content x v hv := (Memory.content_setNext b x).trans hv
  owner _ _ _ ho := ho
  linked _ hx := hx.2
  gone _ _ hx := hx
  next x hx _ := by
    rw [Memory.next, Memory.heap_setNext_of_ne b (ne_of_mem_of_not_mem hx ha), ← Memory.next]

lemma Inv.new (h : Inv s g l) (t : T) (v : α) :
    Inv { s with mem := s.mem.new v }
      { g with owner := Function.update g.owner s.mem.size (some t) } l := by
  have hne : ∀ a ∈ g.chain, a ≠ s.mem.size := by
    intro a ha
    obtain ⟨n, hn⟩ := h.seg.node ha
    exact Nat.ne_of_lt (Memory.lt_size hn)
  have hheap : ∀ a ∈ g.chain, (s.mem.new v).heap a = s.mem.heap a :=
    fun a ha => if_neg (hne a ha)
  refine ⟨h.seg.congr hheap, ?_, ?_, ?_⟩
  · rw [← h.values]
    exact List.map_congr_left fun a ha => congrArg (Option.map Node.content) (hheap a ha)
  · intro a ha
    dsimp only
    rw [Function.update_of_ne (hne a ha)]
    exact h.linked a ha
  · intro a ha
    have hsize : s.mem.size + 1 ≤ a := ha
    dsimp only
    rw [Function.update_of_ne (by omega)]
    exact h.fresh a (by omega)

lemma keeps_new (h : Inv s g l) (v : α) :
    Keeps t s g { s with mem := s.mem.new v }
      { g with owner := Function.update g.owner s.mem.size (some t) } where
  content a c hc := Memory.content_new v hc
  owner u _ a ho := by
    have hne : a ≠ s.mem.size := by
      rintro rfl
      rw [h.fresh _ (Nat.le_refl _)] at ho
      cases ho
    dsimp only
    rw [Function.update_of_ne hne, ho]
  linked a ha := by
    obtain ⟨⟨c, hc⟩, ho⟩ := ha
    obtain ⟨n, hn, -⟩ := Option.map_eq_some_iff.mp hc
    dsimp only
    rw [Function.update_of_ne (Nat.ne_of_lt (Memory.lt_size hn)), ho]
  gone _ _ ha := ha
  next a _ ha := by
    obtain ⟨⟨c, hc⟩, -⟩ := ha
    obtain ⟨n, hn, -⟩ := Option.map_eq_some_iff.mp hc
    rw [Memory.next_eq hn, Memory.next_eq (Memory.heap_new v hn)]

lemma Inv.push (h : Inv s g l) {v : α} (hv : s.mem.heap.content a = some v)
    (hnext : s.mem.next a = s.stkHead) :
    Inv { s with stkHead := some a }
      ⟨a :: g.chain, Function.update g.owner a none⟩ (v :: l) := by
  obtain ⟨n, hn, hc⟩ := Option.map_eq_some_iff.mp hv
  refine ⟨.cons hn ?_, ?_, ?_, ?_⟩
  · rw [← Memory.next_eq hn, hnext]
    exact h.seg
  · exact congrArg₂ List.cons hv h.values
  · intro x hx
    by_cases hxa : x = a
    · rw [hxa]
      exact Function.update_self _ _ _
    · have hmem := (List.mem_cons.mp hx).resolve_left hxa
      exact (Function.update_of_ne hxa _ _).trans (h.linked x hmem)
  · intro x hx
    have hlt : a < s.mem.size := Memory.lt_size hn
    have hsize : s.mem.size ≤ x := hx
    exact (Function.update_of_ne (by omega) _ _).trans (h.fresh x hx)

lemma keeps_push (ho : g.owner a = some t) :
    Keeps t s g { s with stkHead := some a } ⟨a :: g.chain, Function.update g.owner a none⟩ where
  content _ _ hv := hv
  owner u hu x hx := by
    refine (Function.update_of_ne ?_ _ _).trans hx
    rintro rfl
    exact hu (Option.some.inj (hx.symm.trans ho))
  linked x hx := by
    by_cases hxa : x = a
    · rw [hxa]
      exact Function.update_self _ _ _
    · exact (Function.update_of_ne hxa _ _).trans hx.2
  gone x hx hmem := by
    refine (List.mem_cons.mp hmem).resolve_left ?_
    rintro rfl
    exact absurd (hx.2.symm.trans ho) nofun
  next _ _ _ := rfl

lemma Inv.pop (h : Inv s g l) (hhead : s.stkHead = some a) :
    ∃ chain v l', l = v :: l' ∧ s.mem.heap.content a = some v ∧ a ∉ chain ∧
      Inv { s with stkHead := s.mem.next a } { g with chain := chain } l' ∧
      Keeps t s g { s with stkHead := s.mem.next a } { g with chain := chain } := by
  obtain ⟨chain, v, l', hchain, rfl, hv, hseg, hvalues⟩ := h.head hhead
  have hsub : ∀ x ∈ chain, x ∈ g.chain := fun x hx => hchain ▸ List.mem_cons_of_mem a hx
  have hnodup := h.seg.nodup
  rw [hchain] at hnodup
  refine ⟨chain, v, l', rfl, hv, (List.nodup_cons.mp hnodup).1, ?_, ?_⟩
  · exact ⟨hseg, hvalues, fun x hx => h.linked x (hsub x hx), h.fresh⟩
  · exact ⟨fun _ _ hv => hv, fun _ _ _ ho => ho, fun _ hx => hx.2, fun x _ hx => hsub x hx,
      fun _ _ _ => rfl⟩

/-! ### The steps -/

/-- By how much a thread has changed the stack and not the counter. -/
def share : Pc α → ℤ
  | .pushCount => 1
  | .popCount _ => -1
  | _ => 0

/-- What one step of a thread comes to. -/
def Advances (s : TStack α) (g : Ghost T) (l : List α) (t : T) (pc : Pc α)
    (x : Status (Call α) (Result α)) (after : TStack α × Pc α) : Prop :=
  ∃ g' l' x', ReflTransGen (object α).Move (l, x) (l', x') ∧ Inv after.1 g' l' ∧
    Local after.1 g' t after.2 x' ∧
    (∀ t' ≠ t, ∀ pc' y, Local s g t' pc' y → Local after.1 g' t' pc' y) ∧
    (l'.length - after.1.counter : ℤ) + share pc = l.length - s.counter + share after.2

variable {pc pc' : Pc α} {x x' : Status (Call α) (Result α)}

lemma advances {l' : List α} (hmoves : ReflTransGen (object α).Move (l, x) (l', x'))
    (hinv : Inv s' g' l') (hlocal : Local s' g' t pc' x') (hkeeps : Keeps t s g s' g')
    (hcount : (l'.length - s'.counter : ℤ) + share pc = l.length - s.counter + share pc') :
    Advances s g l t pc x (s', pc') :=
  ⟨g', l', x', hmoves, hinv, hlocal, fun _ hu _ _ hx => hkeeps.local hu hx, hcount⟩

lemma advances_stay (h : Inv s g l) (hmoves : ReflTransGen (object α).Move (l, x) (l, x'))
    (hlocal : Local s g t pc' x') (hshare : share pc = share pc') :
    Advances s g l t pc x (s, pc') :=
  advances hmoves h hlocal (keeps_of_mem rfl) (by rw [hshare])

lemma acts (l : List α) (c : Call α) :
    ReflTransGen (object α).Move (l, .pending c)
      (((object α).apply l c).1, .done ((object α).apply l c).2) :=
  .single (.act l c)

lemma step_advances (fails : Bool) (h : Inv s g l) (hx : Local s g t pc x)
    (hr : result pc = none) : Advances s g l t pc x (s.step pc fails) := by
  cases pc with
  | push val =>
    obtain rfl : x = .pending (.push val) := hx
    have hval : (s.mem.new val).heap.content s.mem.size = some val :=
      congrArg (Option.map Node.content) (Memory.heap_new_self val)
    exact advances .refl (h.new t val) ⟨val, rfl, hval, Function.update_self _ _ _⟩
      (keeps_new h val) rfl
  | pushLoad a =>
    obtain ⟨v, rfl, hv, ho⟩ := hx
    -- the node is still the thread's own, so it is not on the stack
    have ha : a ∉ g.chain := fun ha => by
      rw [h.linked a ha] at ho
      cases ho
    exact advances .refl (h.setNext ha _) ⟨v, rfl, (Memory.content_setNext _ a).trans hv, ho⟩
      (keeps_setNext ha _) rfl
  | pushExchange a =>
    obtain ⟨v, rfl, hv, ho⟩ := hx
    rw [step]
    split
    · rename_i hex
      obtain ⟨-, hhead⟩ := exchanges_iff.mp hex
      -- the exchange succeeds: `push` acts here
      refine advances (acts l (.push v)) (h.push hv hhead.symm) rfl (keeps_push ho) ?_
      simp only [object, share, List.length_cons]
      omega
    · -- it fails, and the loop begins again
      exact advances_stay h .refl ⟨v, rfl, hv, ho⟩ rfl
  | pushCount =>
    obtain rfl : x = .done .pushed := hx
    refine advances .refl (h.of_mem rfl rfl) rfl (keeps_of_mem rfl) ?_
    simp only [share]
    omega
  | pop =>
    obtain rfl : x = .pending .pop := hx
    rw [step]
    split
    · rename_i hhead
      -- `head` is null: `pop` acts here, on an empty stack
      obtain rfl := h.empty hhead
      exact advances_stay h (acts [] .pop) rfl rfl
    · rename_i a hhead
      have ha : a ∈ g.chain := List.mem_of_mem_head? (h.seg.head_eq ▸ hhead)
      exact advances_stay h .refl ⟨rfl, h.mem_linked ha⟩ rfl
  | popNext a =>
    obtain ⟨rfl, hl⟩ := hx
    exact advances_stay h .refl ⟨rfl, hl, fun _ => rfl⟩ rfl
  | popExchange a next =>
    obtain ⟨rfl, hl, hnext⟩ := hx
    rw [step]
    split
    · rename_i hex
      obtain ⟨-, hhead⟩ := exchanges_iff.mp hex
      have ha : a ∈ g.chain := List.mem_of_mem_head? (h.seg.head_eq ▸ hhead)
      -- `head` is still `a`, so `next` is what stands below it
      obtain ⟨chain, v, l', rfl, hv, hgone, hinv, hkeeps⟩ := h.pop (t := t) hhead
      rw [hnext ha] at hinv hkeeps
      refine advances (acts _ .pop) hinv ⟨v, rfl, hv, hl, hgone⟩ hkeeps ?_
      simp only [object, share, List.tail_cons, List.length_cons]
      omega
    · exact advances_stay h .refl rfl rfl
  | popCount a =>
    have hmoves : ReflTransGen (object α).Move (l, x) (l, x) := .refl
    refine advances hmoves (h.of_mem rfl rfl) hx (keeps_of_mem rfl) ?_
    simp only [share]
    omega
  | popValue a =>
    obtain ⟨v, rfl, hv, hl, ha⟩ := hx
    exact advances_stay h .refl ⟨by rw [hv], hl, ha⟩ rfl
  | popUnlink a val =>
    obtain ⟨rfl, -, ha⟩ := hx
    exact advances .refl (h.setNext ha none) rfl (keeps_setNext ha none) rfl
  | top =>
    obtain rfl : x = .pending .top := hx
    rw [step]
    split
    · rename_i hhead
      obtain rfl := h.empty hhead
      exact advances_stay h (acts [] .top) rfl rfl
    · rename_i a hhead
      obtain ⟨chain, v, l', -, rfl, hv, -⟩ := h.head hhead
      exact advances_stay h (acts (v :: l') .top) ⟨v, rfl, hv⟩ rfl
  | topValue a =>
    obtain ⟨v, rfl, hv⟩ := hx
    exact advances_stay h .refl (by rw [hv]; rfl) rfl
  | ret r => cases hr

variable (T α) in
/-- The stack is what it is for. -/
def refinement : Refinement T (implementation α) (object α) (Ghost T) where
  Inv := Inv
  Local := Local
  balance s l := l.length - s.counter
  share := share
  ghost := ⟨[], fun _ => none⟩
  init := ⟨.nil none, rfl, nofun, fun _ _ => rfl⟩
  start t c _ := by cases c <;> rfl
  step fails := step_advances fails
  result {sh g s t pc x r} _ hx hr := by
    cases pc with
    | ret r' =>
      obtain rfl : r' = r := Option.some.inj hr
      exact hx
    | _ => cases hr
  balance_init := rfl
  share_start c := by cases c <;> rfl
  share_result {pc} hr := by
    cases pc with
    | ret r => rfl
    | _ => cases hr

variable [DecidableEq T] {es : List (Event T (Call α) (Result α))}
  {c : Config T (TStack α) (Pc α)}

/-- **`TStack` is linearizable**, if no node's address is used again: however the steps of the
threads are interleaved, what is called and returned is so on a stack on which every call acts at
once. What that stack holds is in the nodes from `stkHead` on, and `counter` differs from its size
by what is being counted. -/
theorem stack_linearizable (h : ((implementation α).automaton T).Run es c) :
    ∃ l st, (object α).atomic.Run es (l, st) ∧ (∀ t, c.threads t = none → st t = .idle) ∧
      (∃ chain, Seg c.shared.mem.heap c.shared.stkHead chain none ∧
        chain.map c.shared.mem.heap.content = l.map some) ∧
      ∃ F : Finset T, (∀ t ∉ F, c.threads t = none) ∧
        l.length - c.shared.counter = ∑ t ∈ F, (c.threads t).elim 0 share := by
  obtain ⟨l, st, hrun, hidle, ⟨g, hinv⟩, hcount⟩ := (refinement T α).run h
  exact ⟨l, st, hrun, hidle, ⟨g.chain, hinv.seg, hinv.values⟩, hcount⟩

/-- `true` pushes 5, and its first exchange fails, as `false` pushes 7 meanwhile; `false` then
pops. -/
def sampleActs : List (Act Bool (Call ℕ)) :=
  [.call true (.push 5), .run true false, .run true false, .call false (.push 7),
    .run false false, .run false false, .run false false, .run true false, .run false false,
    .ret false, .run true false, .call false .pop, .run true false, .run false false,
    .run false false, .run false false, .run false false, .run true false, .ret true,
    .run false false, .run false false, .ret false]

def sampleHistory : List (Event Bool (Call ℕ) (Result ℕ)) :=
  [.call true (.push 5), .call false (.push 7), .ret false .pushed, .call false .pop,
    .ret true .pushed, .ret false (.value (some 5))]

theorem stack_linearizable_sample :
    ∃ c l st, (implementation ℕ).follow sampleActs ⟨{}, fun _ => none⟩ = some (sampleHistory, c) ∧
      (object ℕ).atomic.Run sampleHistory (l, st) := by
  have hfollow : ((implementation ℕ).follow sampleActs ⟨{}, fun _ => none⟩).map (·.1) =
      some sampleHistory := by decide +kernel
  obtain ⟨⟨es, c⟩, hc, hes⟩ := Option.map_eq_some_iff.mp hfollow
  obtain rfl : es = sampleHistory := hes
  obtain ⟨l, st, hatomic, -⟩ := stack_linearizable (Implementation.run_of_follow sampleActs hc)
  exact ⟨c, l, st, hc, hatomic⟩

end TStack

end TreeFrog.Stack
