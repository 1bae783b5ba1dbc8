import Mathlib.Data.List.Perm.Basic
import Mathlib.Logic.Function.Basic
import Mathlib.Logic.Relation
import Mathlib.Tactic.Common

/-!
Pools of named connections: for each database a stack of names whose connections are open and a
stack of the others. Callers take a name from one of them and give it back later; a timer closes
connections that are not in use.

Any number of callers are on their way at once, each of them between two operations on the stacks.
As long as every name goes back to a stack of its own database, none is lost or doubled.
-/

namespace TreeFrog.ConnectionPool

variable {Caller Name : Type*}

/-- How a pool treats its names. -/
structure Pool (Name : Type*) where
  /-- The database that the name was created for. -/
  home : Name → ℕ
  /-- Calls for this database look for a name. -/
  serves : ℕ → Bool
  /-- The database whose cache a connection is given back to; none if it is given up. -/
  cacheOf : Name → Option ℕ
  /-- A connection that cannot be opened goes back to the stack. -/
  keepsFailed : Bool

/-- Where a call stands. -/
inductive Call (Caller Name : Type*) where
  /-- At the head of the loop of `database`. -/
  | looking (caller : Caller) (id : ℕ)
  /-- The cache was empty. -/
  | uncached (caller : Caller) (id : ℕ)
  /-- A name came from the cache. -/
  | cached (caller : Caller) (id : ℕ) (name : Name)
  /-- A name came from the other stack. -/
  | opening (caller : Caller) (id : ℕ) (name : Name)
  /-- The timer has a connection to close. -/
  | closing (id : ℕ) (name : Name)

def Call.name : Call Caller Name → Option Name
  | looking .. | uncached .. => none
  | cached _ _ n | opening _ _ n | closing _ n => some n

def Call.isClosing : Call Caller Name → Bool
  | closing .. => true
  | _ => false

structure State (Caller Name : Type*) where
  cachedDatabase : ℕ → List Name
  availableNames : ℕ → List Name
  calls : List (Call Caller Name)
  /-- The connections that callers have in use. -/
  out : List (Caller × Name)

/-- The names are created and on their stacks. -/
def start (created : ℕ → List Name) : State Caller Name := ⟨fun _ => [], created, [], []⟩

namespace State

variable (s : State Caller Name)

def cache (id : ℕ) (names : List Name) : State Caller Name :=
  { s with cachedDatabase := Function.update s.cachedDatabase id names }

def stack (id : ℕ) (names : List Name) : State Caller Name :=
  { s with availableNames := Function.update s.availableNames id names }

def call (c : Call Caller Name) : State Caller Name := { s with calls := s.calls ++ [c] }

def hand (caller : Caller) (name : Name) : State Caller Name :=
  { s with out := s.out ++ [(caller, name)] }

/-- Without the `i`-th call. -/
def take (i : ℕ) : State Caller Name := { s with calls := s.calls.eraseIdx i }

/-- Without the `i`-th connection in use. -/
def release (i : ℕ) : State Caller Name := { s with out := s.out.eraseIdx i }

/-- The names that are on no stack. -/
def held : List Name := s.calls.filterMap Call.name ++ s.out.map Prod.snd

end State

/-- What can happen next. -/
inductive Act (Caller : Type*) where
  /-- A caller asks for a connection. -/
  | database (caller : Caller) (id : ℕ)
  /-- The `i`-th call goes on; `isOpen` is what comes of testing or opening its connection. -/
  | resume (i : ℕ) (isOpen : Bool)
  /-- The `i`-th connection in use is given back. -/
  | pool (i : ℕ)
  /-- The timer takes a connection from the cache. -/
  | timer (id : ℕ)

section

variable (p : Pool Name)

/-- A call goes on up to its next operation on a stack. -/
def resume (s : State Caller Name) (isOpen : Bool) : Call Caller Name → State Caller Name
  | .looking caller id =>
    match s.cachedDatabase id with
    | [] => s.call (.uncached caller id)
    | n :: ns => (s.cache id ns).call (.cached caller id n)
  | .uncached caller id =>
    match s.availableNames id with
    | [] => s.call (.looking caller id)
    | n :: ns => (s.stack id ns).call (.opening caller id n)
  | .cached caller id n =>
    if isOpen then s.hand caller n
    else (s.stack id (n :: s.availableNames id)).call (.looking caller id)
  | .opening caller id n =>
    if isOpen then s.hand caller n
    else if p.keepsFailed then s.stack id (n :: s.availableNames id)
    else s
  | .closing id n => s.stack id (n :: s.availableNames id)

/-- A connection is given back. -/
def giveBack (s : State Caller Name) (n : Name) : State Caller Name :=
  match p.cacheOf n with
  | some id => s.cache id (n :: s.cachedDatabase id)
  | none => s

/-- One step; none if the act is not possible. -/
def step (s : State Caller Name) : Act Caller → Option (State Caller Name)
  | .database caller id => if p.serves id then some (s.call (.looking caller id)) else none
  | .resume i isOpen =>
    s.calls[i]?.map fun c => resume p (s.take i) isOpen c
  | .pool i =>
    s.out[i]?.map fun o => giveBack p (s.release i) o.2
  | .timer id =>
    if s.calls.any Call.isClosing then none
    else match s.cachedDatabase id with
      | [] => none
      | n :: ns => some ((s.cache id ns).call (.closing id n))

/-- What an act must not do: give a connection back to another cache, or fail to open one that the
pool does not keep then. -/
def InOrder (s : State Caller Name) : Act Caller → Prop
  | .pool i => ∀ o, s.out[i]? = some o → p.cacheOf o.2 = some (p.home o.2)
  | .resume i isOpen =>
    ∀ caller id n, s.calls[i]? = some (.opening caller id n) → isOpen = true ∨ p.keepsFailed = true
  | _ => True

/-- The states that steps under a condition lead to. -/
def Reaches (cond : State Caller Name → Act Caller → Prop) :
    State Caller Name → State Caller Name → Prop :=
  Relation.ReflTransGen fun s t => ∃ a, cond s a ∧ step p s a = some t

/-- The names that were created for each database. -/
structure Created (created : ℕ → List Name) : Prop where
  home : ∀ id, ∀ n ∈ created id, p.home n = id
  nodup : ∀ id, (created id).Nodup

variable [DecidableEq Name]

/-- The names on the stacks of a database and those of the database that are on no stack. -/
def State.names (s : State Caller Name) (id : ℕ) : List Name :=
  s.cachedDatabase id ++ s.availableNames id ++ s.held.filter fun n => p.home n = id

/-- Every name is in one place, and on no stack of another database. -/
def Conserved (created : ℕ → List Name) (s : State Caller Name) : Prop :=
  ∀ id, (s.names p id).Perm (created id) ∧ (s.names p id).Nodup

end

section

variable {p : Pool Name} {s : State Caller Name} {m : Name} {id : ℕ} {caller : Caller}

lemma resume_looking_nil (hpop : s.cachedDatabase id = []) (isOpen : Bool) :
    resume p s isOpen (.looking caller id) = s.call (.uncached caller id) := by
  simp only [resume, hpop]

lemma resume_looking_cons {ns : List Name} (hpop : s.cachedDatabase id = m :: ns)
    (isOpen : Bool) :
    resume p s isOpen (.looking caller id) = (s.cache id ns).call (.cached caller id m) := by
  simp only [resume, hpop]

lemma resume_uncached_nil (hpop : s.availableNames id = []) (isOpen : Bool) :
    resume p s isOpen (.uncached caller id) = s.call (.looking caller id) := by
  simp only [resume, hpop]

lemma resume_uncached_cons {ns : List Name} (hpop : s.availableNames id = m :: ns)
    (isOpen : Bool) :
    resume p s isOpen (.uncached caller id) = (s.stack id ns).call (.opening caller id m) := by
  simp only [resume, hpop]

end

/-! ### Counting -/

section

variable {p : Pool Name} [DecidableEq Name] {s : State Caller Name} {m n : Name} {id j : ℕ}

/-- How often a name is found at a database. -/
def State.places (p : Pool Name) (s : State Caller Name) (id : ℕ) (n : Name) : ℕ :=
  (s.cachedDatabase id).count n + (s.availableNames id).count n +
    if p.home n = id then s.held.count n else 0

lemma count_names (id : ℕ) (n : Name) : (s.names p id).count n = s.places p id n := by
  rw [State.names, List.count_append, List.count_append, State.places]
  split_ifs with hhome
  · rw [List.count_filter (by simpa using hhome)]
  · have hnone : n ∉ s.held.filter fun n => p.home n = id := fun hmem =>
      hhome (by simpa using (List.mem_filter.mp hmem).2)
    rw [List.count_eq_zero.mpr hnone]

lemma home_count (h : p.home m = id) (j : ℕ) (n : Name) :
    (if p.home n = j then [m].count n else 0) = if j = id then [m].count n else 0 := by
  by_cases hn : n = m
  · subst hn
    rw [h]
    exact if_congr eq_comm rfl rfl
  · have hzero : [m].count n = 0 := List.count_eq_zero.mpr (by simpa using hn)
    rw [hzero, ite_self, ite_self]

lemma places_call (c : Call Caller Name) : (s.call c).places p j n =
    s.places p j n + if p.home n = j then c.name.toList.count n else 0 := by
  have hheld : (s.call c).held.count n = s.held.count n + c.name.toList.count n := by
    unfold State.held State.call
    rw [List.filterMap_append, List.filterMap_cons, List.filterMap_nil]
    cases c.name <;> simp only [List.count_append, Option.toList_none, Option.toList_some] <;> omega
  unfold State.places
  rw [hheld]
  change (s.cachedDatabase j).count n + (s.availableNames j).count n + _ = _
  split_ifs <;> omega

lemma places_hand (caller : Caller) : (s.hand caller m).places p j n =
    s.places p j n + if p.home n = j then [m].count n else 0 := by
  have hheld : (s.hand caller m).held.count n = s.held.count n + [m].count n := by
    unfold State.held State.hand
    rw [List.map_append, ← List.append_assoc, List.count_append]
    rfl
  unfold State.places
  rw [hheld]
  change (s.cachedDatabase j).count n + (s.availableNames j).count n + _ = _
  split_ifs <;> omega

lemma count_update (f : ℕ → List Name) (id : ℕ) (ns : List Name) (j : ℕ) (n : Name) :
    (Function.update f id ns j).count n + (if j = id then (f id).count n else 0) =
      (f j).count n + if j = id then ns.count n else 0 := by
  by_cases hj : j = id
  · subst hj
    rw [Function.update_self, if_pos rfl, if_pos rfl, Nat.add_comm]
  · rw [Function.update_of_ne hj, if_neg hj, if_neg hj]

lemma count_cons_eq (m : Name) (ns : List Name) (n : Name) :
    (m :: ns).count n = ns.count n + [m].count n := by
  rw [← List.singleton_append, List.count_append, Nat.add_comm]

lemma places_cache (ns : List Name) : (s.cache id ns).places p j n =
    (Function.update s.cachedDatabase id ns j).count n + (s.availableNames j).count n +
      if p.home n = j then s.held.count n else 0 := rfl

lemma places_stack (ns : List Name) : (s.stack id ns).places p j n =
    (s.cachedDatabase j).count n + (Function.update s.availableNames id ns j).count n +
      if p.home n = j then s.held.count n else 0 := rfl

lemma places_cache_push : (s.cache id (m :: s.cachedDatabase id)).places p j n =
    s.places p j n + if j = id then [m].count n else 0 := by
  have h := count_update s.cachedDatabase id (m :: s.cachedDatabase id) j n
  rw [count_cons_eq] at h
  rw [places_cache, State.places]
  split_ifs at h ⊢ <;> omega

lemma places_cache_pop {ns : List Name} (hpop : s.cachedDatabase id = m :: ns) :
    (s.cache id ns).places p j n + (if j = id then [m].count n else 0) = s.places p j n := by
  have h := count_update s.cachedDatabase id ns j n
  rw [hpop, count_cons_eq] at h
  rw [places_cache, State.places]
  split_ifs at h ⊢ <;> omega

lemma places_stack_push : (s.stack id (m :: s.availableNames id)).places p j n =
    s.places p j n + if j = id then [m].count n else 0 := by
  have h := count_update s.availableNames id (m :: s.availableNames id) j n
  rw [count_cons_eq] at h
  rw [places_stack, State.places]
  split_ifs at h ⊢ <;> omega

lemma places_stack_pop {ns : List Name} (hpop : s.availableNames id = m :: ns) :
    (s.stack id ns).places p j n + (if j = id then [m].count n else 0) = s.places p j n := by
  have h := count_update s.availableNames id ns j n
  rw [hpop, count_cons_eq] at h
  rw [places_stack, State.places]
  split_ifs at h ⊢ <;> omega

lemma count_name_cons (c : Call Caller Name) (cs : List (Call Caller Name)) (n : Name) :
    ((c :: cs).filterMap Call.name).count n =
      c.name.toList.count n + (cs.filterMap Call.name).count n := by
  rw [List.filterMap_cons]
  cases c.name with
  | none => exact (Nat.zero_add _).symm
  | some m => rw [Option.toList_some, count_cons_eq, Nat.add_comm]

lemma places_take {i : ℕ} {c : Call Caller Name} (hc : s.calls[i]? = some c) :
    (s.take i).places p j n + (if p.home n = j then c.name.toList.count n else 0) =
      s.places p j n := by
  obtain ⟨hi, rfl⟩ := List.getElem?_eq_some_iff.mp hc
  have hperm := (List.getElem_cons_eraseIdx_perm hi).filterMap Call.name
  have hheld : s.held.count n = s.calls[i].name.toList.count n + (s.take i).held.count n := by
    rw [State.held, State.held, List.count_append, List.count_append, ← hperm.count_eq,
      count_name_cons, Nat.add_assoc]
    rfl
  unfold State.places
  rw [hheld]
  change (s.cachedDatabase j).count n + (s.availableNames j).count n + _ + _ = _
  split_ifs <;> omega

lemma places_release {i : ℕ} {o : Caller × Name} (ho : s.out[i]? = some o) :
    (s.release i).places p j n + (if p.home n = j then [o.2].count n else 0) =
      s.places p j n := by
  obtain ⟨hi, rfl⟩ := List.getElem?_eq_some_iff.mp ho
  have hperm := (List.getElem_cons_eraseIdx_perm hi).map Prod.snd
  have hheld : s.held.count n = (s.release i).held.count n + [s.out[i].2].count n := by
    rw [State.held, State.held, List.count_append, List.count_append, ← hperm.count_eq,
      List.map_cons, count_cons_eq s.out[i].2, Nat.add_assoc]
    rfl
  unfold State.places
  rw [hheld]
  change (s.cachedDatabase j).count n + (s.availableNames j).count n + _ + _ = _
  split_ifs <;> omega

/-! ### The invariant -/

/-- What a call holds was created for the database of the call. -/
def Call.Fits (p : Pool Name) : Call Caller Name → Prop
  | .looking .. | .uncached .. => True
  | .cached _ id n | .opening _ id n | .closing id n => p.home n = id

/-- Each name that was created is counted once, at its own database. -/
structure Sound (p : Pool Name) (created : ℕ → List Name) (s : State Caller Name) : Prop where
  places : ∀ id n, s.places p id n = (created id).count n
  calls : ∀ c ∈ s.calls, c.Fits p

variable {created : ℕ → List Name}

lemma sound_start : Sound p created (start created : State Caller Name) where
  places id n := by
    change ([] : List Name).count n + (created id).count n +
      (if p.home n = id then ([] : List Name).count n else 0) = _
    rw [List.count_nil, ite_self, Nat.zero_add, Nat.add_zero]
  calls c hc := absurd hc List.not_mem_nil

lemma Sound.home_cached (h : Sound p created s) (hcreated : Created p created)
    (hmem : m ∈ s.cachedDatabase id) : p.home m = id := by
  have hcount := h.places id m
  have hpos := List.count_pos_iff.mpr hmem
  rw [State.places] at hcount
  exact hcreated.home id m (List.count_pos_iff.mp (by omega))

lemma Sound.home_available (h : Sound p created s) (hcreated : Created p created)
    (hmem : m ∈ s.availableNames id) : p.home m = id := by
  have hcount := h.places id m
  have hpos := List.count_pos_iff.mpr hmem
  rw [State.places] at hcount
  exact hcreated.home id m (List.count_pos_iff.mp (by omega))

lemma Sound.created_out (h : Sound p created s) {caller : Caller} (hmem : (caller, m) ∈ s.out) :
    m ∈ created (p.home m) := by
  have hcount := h.places (p.home m) m
  have hheld : m ∈ s.held := List.mem_append_right _ (List.mem_map_of_mem hmem)
  have hpos := List.count_pos_iff.mpr hheld
  rw [State.places, if_pos rfl] at hcount
  exact List.count_pos_iff.mp (by omega)

/-- **A call that goes on** moves a name between its hands and a stack of the name's database. -/
lemma places_resume (hcached : ∀ id, ∀ m ∈ s.cachedDatabase id, p.home m = id)
    (havailable : ∀ id, ∀ m ∈ s.availableNames id, p.home m = id) {c : Call Caller Name}
    (hfits : c.Fits p) {isOpen : Bool}
    (hopen : ∀ caller id n, c = .opening caller id n → isOpen = true ∨ p.keepsFailed = true) :
    (resume p s isOpen c).places p j n =
      s.places p j n + if p.home n = j then c.name.toList.count n else 0 := by
  have hnone : ∀ k, k + (if p.home n = j then ([] : List Name).count n else 0) = k := fun k => by
    rw [List.count_nil, ite_self, Nat.add_zero]
  cases c with
  | looking caller id =>
    refine Eq.trans ?_ (hnone _).symm
    cases hpop : s.cachedDatabase id with
    | nil =>
      rw [resume_looking_nil hpop, places_call]
      exact hnone _
    | cons m ns =>
      rw [resume_looking_cons hpop, places_call, ← places_cache_pop hpop]
      exact congrArg _ (home_count (hcached id m (hpop ▸ List.mem_cons_self)) j n)
  | uncached caller id =>
    refine Eq.trans ?_ (hnone _).symm
    cases hpop : s.availableNames id with
    | nil =>
      rw [resume_uncached_nil hpop, places_call]
      exact hnone _
    | cons m ns =>
      rw [resume_uncached_cons hpop, places_call, ← places_stack_pop hpop]
      exact congrArg _ (home_count (havailable id m (hpop ▸ List.mem_cons_self)) j n)
  | cached caller id m =>
    rw [resume]
    cases isOpen with
    | true => exact places_hand caller
    | false =>
      rw [if_neg Bool.false_ne_true, places_call, places_stack_push]
      exact (hnone _).trans (congrArg _ (home_count hfits j n).symm)
  | opening caller id m =>
    rw [resume]
    cases isOpen with
    | true => exact places_hand caller
    | false =>
      -- `open` has failed: the name goes back, as `hopen` asks
      have hkeeps := (hopen caller id m rfl).resolve_left Bool.false_ne_true
      rw [if_neg Bool.false_ne_true, if_pos hkeeps, places_stack_push]
      exact congrArg _ (home_count hfits j n).symm
  | closing id m =>
    rw [resume, places_stack_push]
    exact congrArg _ (home_count hfits j n).symm

omit [DecidableEq Name] in
lemma fits_resume (hcached : ∀ id, ∀ m ∈ s.cachedDatabase id, p.home m = id)
    (havailable : ∀ id, ∀ m ∈ s.availableNames id, p.home m = id)
    (hcalls : ∀ c ∈ s.calls, c.Fits p) (isOpen : Bool) (c : Call Caller Name) :
    ∀ d ∈ (resume p s isOpen c).calls, d.Fits p := by
  have hcall : ∀ (t : State Caller Name) (d : Call Caller Name), t.calls = s.calls → d.Fits p →
      ∀ e ∈ (t.call d).calls, e.Fits p := by
    intro t d ht hd e he
    rcases List.mem_append.mp he with he | he
    · exact hcalls e (ht ▸ he)
    · exact List.mem_singleton.mp he ▸ hd
  cases c with
  | looking caller id =>
    cases hpop : s.cachedDatabase id with
    | nil =>
      rw [resume_looking_nil hpop]
      exact hcall s _ rfl trivial
    | cons m ns =>
      rw [resume_looking_cons hpop]
      exact hcall _ _ rfl (hcached id m (hpop ▸ List.mem_cons_self))
  | uncached caller id =>
    cases hpop : s.availableNames id with
    | nil =>
      rw [resume_uncached_nil hpop]
      exact hcall s _ rfl trivial
    | cons m ns =>
      rw [resume_uncached_cons hpop]
      exact hcall _ _ rfl (havailable id m (hpop ▸ List.mem_cons_self))
  | cached caller id m =>
    rw [resume]
    split_ifs
    · exact hcalls
    · exact hcall _ _ rfl trivial
  | opening caller id m =>
    rw [resume]
    split_ifs <;> exact hcalls
  | closing id m => exact hcalls

lemma Sound.step (h : Sound p created s) (hcreated : Created p created) {a : Act Caller}
    {t : State Caller Name} (ha : InOrder p s a) (hstep : step p s a = some t) :
    Sound p created t := by
  have hcached : ∀ id, ∀ m ∈ s.cachedDatabase id, p.home m = id := fun id m hm =>
    h.home_cached hcreated hm
  have havailable : ∀ id, ∀ m ∈ s.availableNames id, p.home m = id := fun id m hm =>
    h.home_available hcreated hm
  cases a with
  | database caller id =>
    rw [ConnectionPool.step] at hstep
    split_ifs at hstep with hid
    obtain rfl := Option.some.inj hstep
    refine ⟨fun j n => ?_, fun c hc => ?_⟩
    · rw [places_call, ← h.places]
      change _ + (if p.home n = j then ([] : List Name).count n else 0) = _
      rw [List.count_nil, ite_self, Nat.add_zero]
    · rcases List.mem_append.mp hc with hc | hc
      · exact h.calls c hc
      · exact List.mem_singleton.mp hc ▸ trivial
  | resume i isOpen =>
    obtain ⟨c, hc, rfl⟩ := Option.map_eq_some_iff.mp hstep
    have hmem : c ∈ s.calls := List.mem_of_getElem? hc
    refine ⟨fun j n => ?_, ?_⟩
    · rw [places_resume (s := s.take i) hcached havailable (h.calls c hmem)
        (fun caller id n hopening => ha caller id n (hopening ▸ hc)), places_take hc, h.places]
    · exact fits_resume (s := s.take i) hcached havailable
        (fun d hd => h.calls d (List.mem_of_mem_eraseIdx hd)) isOpen c
  | pool i =>
    obtain ⟨o, ho, rfl⟩ := Option.map_eq_some_iff.mp hstep
    have hback : giveBack p (s.release i) o.2 = (s.release i).cache (p.home o.2)
        (o.2 :: (s.release i).cachedDatabase (p.home o.2)) := by
      simp only [giveBack, ha o ho]
    rw [hback]
    refine ⟨fun j n => ?_, h.calls⟩
    rw [places_cache_push, ← home_count rfl j n, places_release ho, h.places]
  | timer id =>
    rw [ConnectionPool.step] at hstep
    split_ifs at hstep
    cases hpop : s.cachedDatabase id with
    | nil =>
      rw [hpop] at hstep
      cases hstep
    | cons m ns =>
      rw [hpop] at hstep
      obtain rfl := Option.some.inj hstep
      have hhome := hcached id m (hpop ▸ List.mem_cons_self)
      refine ⟨fun j n => ?_, fun c hc => ?_⟩
      · rw [places_call, ← h.places, ← places_cache_pop hpop]
        exact congrArg _ (home_count hhome j n)
      · rcases List.mem_append.mp hc with hc | hc
        · exact h.calls c hc
        · exact List.mem_singleton.mp hc ▸ hhome

lemma Sound.reaches {cond : State Caller Name → Act Caller → Prop} {t : State Caller Name}
    (h : Sound p created s) (hcreated : Created p created)
    (hcond : ∀ s a, Sound p created s → cond s a → InOrder p s a)
    (hreaches : Reaches p cond s t) : Sound p created t := by
  induction hreaches with
  | refl => exact h
  | tail _ hstep ih =>
    obtain ⟨a, ha, hstep⟩ := hstep
    exact ih.step hcreated (hcond _ a ih ha) hstep

lemma Sound.conserved (h : Sound p created s) (hcreated : Created p created) :
    Conserved p created s := by
  intro id
  have hperm : (s.names p id).Perm (created id) :=
    List.perm_iff_count.mpr fun n => (count_names id n).trans (h.places id n)
  exact ⟨hperm, hperm.nodup_iff.mpr (hcreated.nodup id)⟩

/-- **Conservation**: when every step is in order, each name stays in one place, and on no stack of
another database. -/
theorem conserved_of_reaches {cond : State Caller Name → Act Caller → Prop}
    (hcreated : Created p created)
    (hcond : ∀ s a, Sound p created s → cond s a → InOrder p s a)
    (hreaches : Reaches p cond (start created) s) : Conserved p created s :=
  (sound_start.reaches hcreated hcond hreaches).conserved hcreated

end

end TreeFrog.ConnectionPool
