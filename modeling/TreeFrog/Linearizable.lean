import Mathlib.Algebra.BigOperators.Group.Finset.Basic
import Mathlib.Algebra.Order.Ring.Int
import Mathlib.Logic.Relation

/-!
Objects that threads share without a lock. Every call takes several steps, between which other
threads take theirs; seen from outside are the calls and the returns only. Such an object is as good
as one on which every call acts at once, at some time between its call and its return.
-/

namespace TreeFrog.Linearizable

open Function Relation

variable {σ τ E T State Call Result Shared Pc Ghost : Type*}

/-! ### Automata -/

/-- A step is seen as an event, or is hidden. -/
structure Automaton (σ E : Type*) where
  init : σ
  step : σ → Option E → σ → Prop

namespace Automaton

/-- A run that leads to a state, with the events that are seen of it. -/
inductive Run (m : Automaton σ E) : List E → σ → Prop
  | init : Run m [] m.init
  | hidden {es : List E} {s s' : σ} : Run m es s → m.step s none s' → Run m es s'
  | seen {es : List E} {e : E} {s s' : σ} :
      Run m es s → m.step s (some e) s' → Run m (es ++ [e]) s'

variable {m : Automaton σ E} {n : Automaton τ E} {es : List E}

lemma Run.rest {s s' : σ} (h : m.Run es s) (hs : ReflTransGen (m.step · none ·) s s') :
    m.Run es s' := by
  induction hs with
  | refl => exact h
  | tail _ hstep ih => exact ih.hidden hstep

/-- **Simulation**: a hidden step is matched by hidden steps, an event by the same event. -/
theorem Run.simulate {R : σ → τ → Prop} (init : R m.init n.init)
    (hidden : ∀ s s' t, R s t → m.step s none s' →
      ∃ t', ReflTransGen (n.step · none ·) t t' ∧ R s' t')
    (seen : ∀ s s' t e, R s t → m.step s (some e) s' → ∃ t', n.step t (some e) t' ∧ R s' t')
    {s : σ} (h : m.Run es s) : ∃ t, n.Run es t ∧ R s t := by
  induction h with
  | init => exact ⟨n.init, .init, init⟩
  | @hidden es s s' _ hstep ih =>
    obtain ⟨t, hrun, hR⟩ := ih
    obtain ⟨t', ht, hR'⟩ := hidden s s' t hR hstep
    exact ⟨t', hrun.rest ht, hR'⟩
  | @seen es e s s' _ hstep ih =>
    obtain ⟨t, hrun, hR⟩ := ih
    obtain ⟨t', ht, hR'⟩ := seen s s' t e hR hstep
    exact ⟨t', hrun.seen ht, hR'⟩

end Automaton

/-! ### Objects -/

inductive Event (T Call Result : Type*) where
  | call (t : T) (c : Call)
  | ret (t : T) (r : Result)
  deriving DecidableEq

/-- What the calls do, one after another. -/
structure Object (State Call Result : Type*) where
  init : State
  apply : State → Call → State × Result

/-- Where a thread is. -/
inductive Status (Call Result : Type*) where
  | idle
  | pending (c : Call)
  /-- It has looked at what the call would return, and it would change nothing. -/
  | seen (c : Call) (r : Result)
  | done (r : Result)

namespace Object

variable [DecidableEq T] (o : Object State Call Result)

/-- A call acts at once, at some time between the call and its return. -/
inductive AtomicStep : State × (T → Status Call Result) → Option (Event T Call Result) →
    State × (T → Status Call Result) → Prop
  | call {s : State} {st : T → Status Call Result} {t : T} {c : Call} :
      st t = .idle → AtomicStep (s, st) (some (.call t c)) (s, update st t (.pending c))
  | act {s : State} {st : T → Status Call Result} {t : T} {c : Call} :
      st t = .pending c →
      AtomicStep (s, st) none ((o.apply s c).1, update st t (.done (o.apply s c).2))
  | ret {s : State} {st : T → Status Call Result} {t : T} {r : Result} :
      st t = .done r → AtomicStep (s, st) (some (.ret t r)) (s, update st t .idle)

def atomic : Automaton (State × (T → Status Call Result)) (Event T Call Result) where
  init := (o.init, fun _ => .idle)
  step := o.AtomicStep

/-- What a thread may do to the object. A look at a call that changes nothing may be given up,
and it may be kept, however the object has changed since. -/
inductive Move : State × Status Call Result → State × Status Call Result → Prop
  | act (s : State) (c : Call) : Move (s, .pending c) ((o.apply s c).1, .done (o.apply s c).2)
  | look {s : State} {c : Call} {r : Result} :
      o.apply s c = (s, r) → Move (s, .pending c) (s, .seen c r)
  | again (s : State) (c : Call) (r : Result) : Move (s, .seen c r) (s, .pending c)
  | keep (s : State) (c : Call) (r : Result) : Move (s, .seen c r) (s, .done r)

inductive LookStep : State × (T → Status Call Result) → Option (Event T Call Result) →
    State × (T → Status Call Result) → Prop
  | call {s : State} {st : T → Status Call Result} {t : T} {c : Call} :
      st t = .idle → LookStep (s, st) (some (.call t c)) (s, update st t (.pending c))
  | move {s s' : State} {st : T → Status Call Result} {t : T} {x : Status Call Result} :
      o.Move (s, st t) (s', x) → LookStep (s, st) none (s', update st t x)
  | ret {s : State} {st : T → Status Call Result} {t : T} {r : Result} :
      st t = .done r → LookStep (s, st) (some (.ret t r)) (s, update st t .idle)

def looking : Automaton (State × (T → Status Call Result)) (Event T Call Result) where
  init := (o.init, fun _ => .idle)
  step := o.LookStep

end Object

namespace Status

/-- What a look may turn out to be: nothing yet, or the call. -/
def MayBe : Status Call Result → Status Call Result → Prop
  | .seen c r, y => y = .pending c ∨ y = .done r
  | x, y => y = x

/-- A look that is given up. -/
def settle : Status Call Result → Status Call Result
  | .seen c _ => .pending c
  | x => x

lemma mayBe_settle (x : Status Call Result) : MayBe x x.settle := by
  cases x with
  | seen c r => exact .inl rfl
  | _ => rfl

end Status

section

variable [DecidableEq T] {o : Object State Call Result} {es : List (Event T Call Result)}
  {s : State} {st st' : T → Status Call Result}

lemma mayBe_self {t : T} {x : Status Call Result}
    (h : ∀ u, Status.MayBe (update st t x u) (st' u)) : Status.MayBe x (st' t) := by
  have := h t
  rwa [update_self] at this

lemma mayBe_update {t : T} {x y pre : Status Call Result}
    (h : ∀ u, Status.MayBe (update st t x u) (st' u)) (hpre : st t = pre)
    (hy : Status.MayBe pre y) (u : T) : Status.MayBe (st u) (update st' t y u) := by
  by_cases hu : u = t
  · subst hu
    rwa [update_self, hpre]
  · rw [update_of_ne hu]
    have := h u
    rwa [update_of_ne hu] at this

lemma mayBe_keep {t : T} {x pre : Status Call Result}
    (h : ∀ u, Status.MayBe (update st t x u) (st' u)) (hpre : st t = pre)
    (ht : Status.MayBe pre (st' t)) (u : T) : Status.MayBe (st u) (st' u) := by
  have := mayBe_update h hpre ht u
  rwa [update_eq_self] at this

/-- **Looks are nothing**: a run in which threads look is one without looks, whatever the looks that
are still open turn out to be. -/
theorem atomic_of_looking {x : State × (T → Status Call Result)} (h : o.looking.Run es x)
    (hst : ∀ u, Status.MayBe (x.2 u) (st' u)) : o.atomic.Run es (x.1, st') := by
  induction h generalizing st' with
  | init =>
    obtain rfl : st' = fun _ => .idle := funext hst
    exact .init
  | @hidden es x x' _ hstep ih =>
    cases hstep with
    | @move s s' st t y hmove =>
      have ht := mayBe_self hst
      generalize hpre : st t = pre at hmove
      cases hmove with
      | act _ c =>
        -- the choice before: the call is pending
        have hrun := ih (mayBe_update hst hpre (y := .pending c) rfl)
        have hact := Object.AtomicStep.act (o := o) (s := s) (update_self t (.pending c) st')
        rw [update_idem, ← show st' t = _ from ht, update_eq_self] at hact
        exact hrun.hidden hact
      | @look _ c r hr =>
        obtain ht | ht := ht
        · exact ih (mayBe_keep hst hpre ht)
        · -- the look is kept, so it is here that the call acts
          have hrun := ih (mayBe_update hst hpre (y := .pending c) rfl)
          have hact := Object.AtomicStep.act (o := o) (s := s) (update_self t (.pending c) st')
          rw [hr, update_idem, ← ht, update_eq_self] at hact
          exact hrun.hidden hact
      | again _ c r => exact ih (mayBe_keep hst hpre (.inl ht))
      | keep _ c r => exact ih (mayBe_keep hst hpre (.inr ht))
  | @seen es e x x' _ hstep ih =>
    cases hstep with
    | @call s st t c hidle =>
      have ht := mayBe_self hst
      have hrun := ih (mayBe_update hst hidle (y := .idle) rfl)
      have hcall := Object.AtomicStep.call (o := o) (s := s) (c := c) (update_self t .idle st')
      rw [update_idem, ← show st' t = _ from ht, update_eq_self] at hcall
      exact hrun.seen hcall
    | @ret s st t r hdone =>
      have ht := mayBe_self hst
      have hrun := ih (mayBe_update hst hdone (y := .done r) rfl)
      have hret := Object.AtomicStep.ret (o := o) (s := s) (update_self t (.done r) st')
      rw [update_idem, ← show st' t = _ from ht, update_eq_self] at hret
      exact hrun.seen hret

end

/-! ### Implementations -/

/-- A compare-and-exchange that may be told to fail though it need not. -/
def exchanges {β : Type*} [DecidableEq β] (fails : Bool) (current expected : β) : Bool :=
  !fails && decide (current = expected)

lemma exchanges_iff {β : Type*} [DecidableEq β] {fails : Bool} {current expected : β} :
    exchanges fails current expected ↔ fails = false ∧ current = expected := by
  simp [exchanges]

/-- What a call does, step by step. `start` is where it begins, and it is over where it has a
result. A step may be told to fail where it is allowed to. -/
structure Implementation (Shared Pc Call Result : Type*) where
  init : Shared
  start : Call → Pc
  step : Shared → Pc → Bool → Shared × Pc
  result : Pc → Option Result

structure Config (T Shared Pc : Type*) where
  shared : Shared
  threads : T → Option Pc

inductive Act (T Call : Type*) where
  | call (t : T) (c : Call)
  | run (t : T) (fails : Bool)
  | ret (t : T)

namespace Implementation

variable [DecidableEq T] (m : Implementation Shared Pc Call Result)

/-- One step of one thread; none if the thread is not there. -/
def next (c : Config T Shared Pc) :
    Act T Call → Option (Option (Event T Call Result) × Config T Shared Pc)
  | .call t x =>
    match c.threads t with
    | none => some (some (.call t x), ⟨c.shared, update c.threads t (some (m.start x))⟩)
    | some _ => none
  | .run t fails =>
    match c.threads t with
    | none => none
    | some pc =>
      if (m.result pc).isSome then none
      else
        let after := m.step c.shared pc fails
        some (none, ⟨after.1, update c.threads t (some after.2)⟩)
  | .ret t =>
    (c.threads t).bind fun pc => (m.result pc).map fun r =>
      (some (.ret t r), ⟨c.shared, update c.threads t none⟩)

def automaton (T : Type*) [DecidableEq T] :
    Automaton (Config T Shared Pc) (Event T Call Result) where
  init := ⟨m.init, fun _ => none⟩
  step c e d := ∃ a, m.next c a = some (e, d)

/-- Given steps, one after another, and what is seen of them. -/
def follow : List (Act T Call) → Config T Shared Pc →
    Option (List (Event T Call Result) × Config T Shared Pc)
  | [], c => some ([], c)
  | a :: as, c =>
    (m.next c a).bind fun x => (follow as x.2).map fun y => (x.1.toList ++ y.1, y.2)

variable {m} {c d : Config T Shared Pc} {es fs : List (Event T Call Result)}

lemma run_follow {as : List (Act T Call)} (hrun : (m.automaton T).Run es c)
    (h : m.follow as c = some (fs, d)) : (m.automaton T).Run (es ++ fs) d := by
  induction as generalizing c es fs with
  | nil =>
    obtain ⟨rfl, rfl⟩ := Prod.mk.inj (Option.some.inj h)
    rwa [List.append_nil]
  | cons a as ih =>
    obtain ⟨⟨e, c'⟩, hnext, h⟩ := Option.bind_eq_some_iff.mp h
    obtain ⟨⟨gs, d'⟩, hfollow, h⟩ := Option.map_eq_some_iff.mp h
    obtain ⟨rfl, rfl⟩ := Prod.mk.inj h
    cases e with
    | none => exact ih (hrun.hidden ⟨a, hnext⟩) hfollow
    | some e =>
      have := ih (hrun.seen ⟨a, hnext⟩) hfollow
      rwa [List.append_assoc] at this

lemma run_of_follow (as : List (Act T Call))
    (h : m.follow as ⟨m.init, fun _ => none⟩ = some (es, c)) : (m.automaton T).Run es c :=
  run_follow .init h

lemma next_cases {a : Act T Call} {e : Option (Event T Call Result)}
    (h : m.next c a = some (e, d)) :
    (∃ t x, c.threads t = none ∧ e = some (.call t x) ∧
      d = ⟨c.shared, update c.threads t (some (m.start x))⟩) ∨
    (∃ t pc fails, c.threads t = some pc ∧ m.result pc = none ∧ e = none ∧
      d = ⟨(m.step c.shared pc fails).1,
        update c.threads t (some (m.step c.shared pc fails).2)⟩) ∨
    ∃ t pc r, c.threads t = some pc ∧ m.result pc = some r ∧ e = some (.ret t r) ∧
      d = ⟨c.shared, update c.threads t none⟩ := by
  cases a with
  | call t x =>
    cases ht : c.threads t with
    | some pc => simp [next, ht] at h
    | none =>
      simp only [next, ht, Option.some.injEq, Prod.mk.injEq] at h
      exact .inl ⟨t, x, ht, h.1.symm, h.2.symm⟩
  | run t fails =>
    cases ht : c.threads t with
    | none => simp [next, ht] at h
    | some pc =>
      cases hr : m.result pc with
      | some r => simp [next, ht, hr] at h
      | none =>
        simp only [next, ht, hr, Option.isSome_none, Bool.false_eq_true, if_false,
          Option.some.injEq, Prod.mk.injEq] at h
        exact .inr (.inl ⟨t, pc, fails, ht, hr, h.1.symm, h.2.symm⟩)
  | ret t =>
    obtain ⟨pc, ht, h⟩ := Option.bind_eq_some_iff.mp h
    obtain ⟨r, hr, h⟩ := Option.map_eq_some_iff.mp h
    obtain ⟨rfl, rfl⟩ := Prod.mk.inj h
    exact .inr (.inr ⟨t, pc, r, ht, hr, rfl, rfl⟩)

end Implementation

/-! ### Refinement -/

/-- What is to be shown of an implementation, thread by thread: an invariant of what is shared,
with a ghost, and what a thread knows where it stands. A thread keeps the invariant and what the
others know. What it owes to a count of the state, or is owed, is its share. -/
structure Refinement (T : Type*) (m : Implementation Shared Pc Call Result)
    (o : Object State Call Result) (Ghost : Type*) where
  Inv : Shared → Ghost → State → Prop
  Local : Shared → Ghost → T → Pc → Status Call Result → Prop
  balance : Shared → State → ℤ
  share : Pc → ℤ
  ghost : Ghost
  init : Inv m.init ghost o.init
  start {sh : Shared} {g : Ghost} {s : State} (t : T) (c : Call) :
    Inv sh g s → Local sh g t (m.start c) (.pending c)
  step {sh : Shared} {g : Ghost} {s : State} {t : T} {pc : Pc} {x : Status Call Result}
    (fails : Bool) : Inv sh g s → Local sh g t pc x → m.result pc = none →
    ∃ g' s' x', ReflTransGen o.Move (s, x) (s', x') ∧ Inv (m.step sh pc fails).1 g' s' ∧
      Local (m.step sh pc fails).1 g' t (m.step sh pc fails).2 x' ∧
      (∀ t' ≠ t, ∀ pc' y, Local sh g t' pc' y → Local (m.step sh pc fails).1 g' t' pc' y) ∧
      balance (m.step sh pc fails).1 s' + share pc = balance sh s + share (m.step sh pc fails).2
  result {sh : Shared} {g : Ghost} {s : State} {t : T} {pc : Pc} {x : Status Call Result}
    {r : Result} : Inv sh g s → Local sh g t pc x → m.result pc = some r → x = .done r
  balance_init : balance m.init o.init = 0
  share_start (c : Call) : share (m.start c) = 0
  share_result {pc : Pc} : (m.result pc).isSome → share pc = 0

namespace Refinement

variable [DecidableEq T] {m : Implementation Shared Pc Call Result}
  {o : Object State Call Result} (ref : Refinement T m o Ghost)

/-- The share of a thread; one that is in no call has none. -/
def owed (threads : T → Option Pc) (t : T) : ℤ := (threads t).elim 0 ref.share

/-- What a configuration is an implementation of. Only some threads are in a call. -/
structure Refines (c : Config T Shared Pc) (a : State × (T → Status Call Result)) : Prop where
  idle (t : T) : c.threads t = none → a.2 t = .idle
  inv : ∃ g, ref.Inv c.shared g a.1 ∧ ∀ t pc, c.threads t = some pc →
    ref.Local c.shared g t pc (a.2 t)
  account : ∃ F : Finset T, (∀ t ∉ F, c.threads t = none) ∧
    ref.balance c.shared a.1 = ∑ t ∈ F, ref.owed c.threads t

variable {ref}

lemma sum_update {f : T → ℤ} {F : Finset T} (hF : ∀ u ∉ F, f u = 0) (t : T) (x : ℤ) :
    ∑ u ∈ insert t F, update f t x u = ∑ u ∈ F, f u - f t + x := by
  have ht := Finset.mem_insert_self t F
  have hold := Finset.add_sum_erase _ f ht
  have hnew := Finset.add_sum_erase _ (update f t x) ht
  rw [Finset.sum_insert_of_eq_zero_if_notMem (hF t)] at hold
  have hrest : ∑ u ∈ (insert t F).erase t, update f t x u = ∑ u ∈ (insert t F).erase t, f u :=
    Finset.sum_congr rfl fun u hu => update_of_ne (Finset.ne_of_mem_erase hu) _ _
  rw [hrest, update_self] at hnew
  omega

variable (ref) in
lemma account_update {threads : T → Option Pc} {F : Finset T} (hF : ∀ u ∉ F, threads u = none)
    (t : T) (p : Option Pc) :
    (∀ u ∉ insert t F, update threads t p u = none) ∧
      ∑ u ∈ insert t F, ref.owed (update threads t p) u =
        ∑ u ∈ F, ref.owed threads u - ref.owed threads t + p.elim 0 ref.share := by
  constructor
  · intro u hu
    obtain ⟨hut, hu⟩ := not_or.mp (Finset.mem_insert.not.mp hu)
    rw [update_of_ne hut, hF u hu]
  · have howed : ref.owed (update threads t p) = update (ref.owed threads) t (p.elim 0 ref.share) :=
      comp_update (fun p : Option Pc => p.elim 0 ref.share) threads t p
    rw [howed]
    exact sum_update (fun u hu => by rw [owed, hF u hu]; rfl) t _

lemma looking_moves {s s' : State} {x x' : Status Call Result} {t : T}
    {st : T → Status Call Result} (h : ReflTransGen o.Move (s, x) (s', x')) (ht : st t = x) :
    ReflTransGen (o.looking.step · none ·) (s, st) (s', update st t x') := by
  generalize hy : (s', x') = y at h
  induction h generalizing s' x' with
  | refl =>
    obtain ⟨rfl, rfl⟩ := Prod.mk.inj hy
    rw [← ht, update_eq_self]
  | @tail b c _ hmove ih =>
    subst hy
    refine (ih rfl).tail ?_
    have hnow : o.Move (b.1, update st t b.2 t) (s', x') := by rwa [update_self]
    have hstep := Object.LookStep.move hnow
    rwa [update_idem] at hstep

variable {c d : Config T Shared Pc} {a : State × (T → Status Call Result)}

lemma Refines.stepped {s s' : State} {st : T → Status Call Result} (h : ref.Refines c (s, st))
    {sh : Shared} {g : Ghost} {t : T} {p : Option Pc} {x : Status Call Result}
    (hidle : p = none → x = .idle) (hinv : ref.Inv sh g s')
    (hthis : ∀ pc, p = some pc → ref.Local sh g t pc x)
    (hothers : ∀ u ≠ t, ∀ pc, c.threads u = some pc → ref.Local sh g u pc (st u))
    (hbal : ref.balance sh s' =
      ref.balance c.shared s - ref.owed c.threads t + p.elim 0 ref.share) :
    ref.Refines ⟨sh, update c.threads t p⟩ (s', update st t x) := by
  obtain ⟨F, hF, hsum⟩ := h.account
  obtain ⟨hF', hsum'⟩ := account_update ref hF t p
  refine ⟨fun u hu => ?_, ⟨g, hinv, fun u pc hu => ?_⟩, insert t F, hF', ?_⟩
  · by_cases hut : u = t
    · subst hut
      dsimp only at hu ⊢
      rw [update_self] at hu ⊢
      exact hidle hu
    · dsimp only at hu ⊢
      rw [update_of_ne hut] at hu ⊢
      exact h.idle u hu
  · by_cases hut : u = t
    · subst hut
      dsimp only at hu ⊢
      rw [update_self] at hu ⊢
      exact hthis pc hu
    · dsimp only at hu ⊢
      rw [update_of_ne hut] at hu ⊢
      exact hothers u hut pc hu
  · rw [hsum', ← hsum, hbal]

lemma Refines.hidden (h : ref.Refines c a) (hstep : (m.automaton T).step c none d) :
    ∃ b, ReflTransGen (o.looking.step · none ·) a b ∧ ref.Refines d b := by
  obtain ⟨act, hnext⟩ := hstep
  obtain ⟨s, st⟩ := a
  obtain ⟨g, hinv, hlocal⟩ := h.inv
  obtain ⟨_, _, _, he, _⟩ | ⟨t, pc, fails, ht, hr, -, rfl⟩ | ⟨_, _, _, _, _, he, _⟩ :=
    Implementation.next_cases hnext
  · cases he
  · obtain ⟨g', s', x', hmoves, hinv', hthis, hothers, hbal⟩ :=
      ref.step fails hinv (hlocal t pc ht) hr
    refine ⟨(s', update st t x'), looking_moves hmoves rfl, h.stepped nofun hinv' ?_ ?_ ?_⟩
    · rintro _ ⟨⟩
      exact hthis
    · exact fun u hut pc' hu => hothers u hut _ _ (hlocal u pc' hu)
    · rw [owed, ht, Option.elim_some, Option.elim_some]
      dsimp only at hbal
      omega
  · cases he

lemma Refines.seen {e : Event T Call Result} (h : ref.Refines c a)
    (hstep : (m.automaton T).step c (some e) d) :
    ∃ b, o.looking.step a (some e) b ∧ ref.Refines d b := by
  obtain ⟨act, hnext⟩ := hstep
  obtain ⟨s, st⟩ := a
  obtain ⟨g, hinv, hlocal⟩ := h.inv
  obtain ⟨t, x, ht, he, rfl⟩ | ⟨_, _, _, _, _, he, _⟩ | ⟨t, pc, r, ht, hr, he, rfl⟩ :=
    Implementation.next_cases hnext
  · cases he
    refine ⟨(s, update st t (.pending x)), .call (h.idle t ht), h.stepped nofun hinv ?_ ?_ ?_⟩
    · rintro _ ⟨⟩
      exact ref.start t x hinv
    · exact fun u _ pc hu => hlocal u pc hu
    · rw [owed, ht, Option.elim_none, Option.elim_some, ref.share_start]
      omega
  · cases he
  · cases he
    have hdone := ref.result hinv (hlocal t pc ht) hr
    refine ⟨(s, update st t .idle), .ret hdone, h.stepped (fun _ => rfl) hinv nofun ?_ ?_⟩
    · exact fun u _ pc hu => hlocal u pc hu
    · rw [owed, ht, Option.elim_some, Option.elim_none, ref.share_result (by rw [hr]; rfl)]
      omega

/-- **Linearizability**: what is seen of the implementation is seen of an object on which every
call acts at once. The balance is what the threads in a call owe. -/
theorem run {es : List (Event T Call Result)} (h : (m.automaton T).Run es c) :
    ∃ s st, o.atomic.Run es (s, st) ∧ (∀ t, c.threads t = none → st t = .idle) ∧
      (∃ g, ref.Inv c.shared g s) ∧ ∃ F : Finset T, (∀ t ∉ F, c.threads t = none) ∧
        ref.balance c.shared s = ∑ t ∈ F, ref.owed c.threads t := by
  have hinit : ref.Refines (m.automaton T).init o.looking.init := by
    refine ⟨fun _ _ => rfl, ⟨ref.ghost, ref.init, nofun⟩, ∅, fun _ _ => rfl, ?_⟩
    exact ref.balance_init
  obtain ⟨⟨s, st⟩, hrun, href⟩ := h.simulate (n := o.looking) (R := ref.Refines) hinit
    (fun _ _ _ href hstep => href.hidden hstep) fun _ _ _ _ href hstep => href.seen hstep
  obtain ⟨g, hinv, -⟩ := href.inv
  refine ⟨s, fun t => (st t).settle, atomic_of_looking hrun fun t => Status.mayBe_settle _, ?_,
    ⟨g, hinv⟩, href.account⟩
  exact fun t ht => congrArg Status.settle (href.idle t ht)

end Refinement

end TreeFrog.Linearizable
