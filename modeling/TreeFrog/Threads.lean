import Mathlib.Data.List.Perm.Basic
import Mathlib.Logic.Relation
import Mathlib.Tactic.Common

/-!
Threads that share a state. A thread is the list of the operations it still has to do; one of them
is done at a time, of any thread, and leaves the list that the thread goes on with. New threads
come from outside.
-/

namespace TreeFrog.Threads

open List

variable {Shared Op Outside : Type*}

/-- What an operation does, given those behind it, and what happens from outside: the threads
that it starts, and the new state. -/
structure System (Shared Op Outside : Type*) where
  run : Shared → List Op → Op → List Op × Shared
  outside : Shared → Outside → List (List Op) × Shared

structure Config (Shared Op : Type*) where
  threads : List (List Op)
  shared : Shared

/-- All that is still to be done. -/
def Config.ops (c : Config Shared Op) : List Op := c.threads.flatten

inductive Act (Outside : Type*) where
  /-- The `i`-th thread does its next operation. -/
  | resume (i : ℕ)
  | outside (e : Outside)

namespace System

variable (m : System Shared Op Outside)

/-- One step; none if there is nothing to resume. -/
def step (c : Config Shared Op) : Act Outside → Option (Config Shared Op)
  | .resume i =>
    match c.threads[i]? with
    | some (op :: rest) =>
      some ⟨c.threads.set i (m.run c.shared rest op).1, (m.run c.shared rest op).2⟩
    | _ => none
  | .outside e => some ⟨c.threads ++ (m.outside c.shared e).1, (m.outside c.shared e).2⟩

/-- The configurations that steps under a condition lead to. -/
def Reaches (cond : Config Shared Op → Act Outside → Prop) :
    Config Shared Op → Config Shared Op → Prop :=
  Relation.ReflTransGen fun c d => ∃ a, cond c a ∧ m.step c a = some d

/-- Given steps, one after another; none if one is not possible. -/
def follow : List (Act Outside) → Config Shared Op → Option (Config Shared Op)
  | [], c => some c
  | a :: as, c => (m.step c a).bind (follow as)

/-- Given steps are all allowed. -/
def Allowed (cond : Config Shared Op → Act Outside → Prop) :
    List (Act Outside) → Config Shared Op → Prop
  | [], _ => True
  | a :: as, c => cond c a ∧ ∀ d ∈ m.step c a, Allowed cond as d

instance decidableAllowed (cond : Config Shared Op → Act Outside → Prop)
    [∀ c, DecidablePred (cond c)] :
    ∀ as c, Decidable (m.Allowed cond as c)
  | [], _ => .isTrue trivial
  | a :: as, c =>
    match h : m.step c a with
    | none => decidable_of_iff (cond c a) (by simp [Allowed, h])
    | some d =>
      have := decidableAllowed cond as d
      decidable_of_iff (cond c a ∧ m.Allowed cond as d) (by simp [Allowed, h])

variable {m}

lemma reaches_follow {cond : Config Shared Op → Act Outside → Prop} {as : List (Act Outside)}
    {c d : Config Shared Op} (h : m.follow as c = some d) (hcond : m.Allowed cond as c) :
    m.Reaches cond c d := by
  induction as generalizing c with
  | nil =>
    obtain rfl := Option.some.inj h
    exact .refl
  | cons a as ih =>
    obtain ⟨e, hstep, hrest⟩ := Option.bind_eq_some_iff.mp h
    exact .head ⟨a, hcond.1, hstep⟩ (ih hrest (hcond.2 e hstep))

end System

variable {m : System Shared Op Outside} {c d : Config Shared Op} {i : ℕ} {op : Op}
  {rest l : List Op}

lemma ops_perm (h : c.threads[i]? = some l) :
    l ++ (c.threads.eraseIdx i).flatten ~ c.ops := by
  obtain ⟨hi, rfl⟩ := List.getElem?_eq_some_iff.mp h
  exact (List.getElem_cons_eraseIdx_perm hi).flatten

lemma set_perm (h : c.threads[i]? = some rest) (l : List Op) :
    (c.threads.set i l).flatten ~ l ++ (c.threads.eraseIdx i).flatten := by
  obtain ⟨hi, -⟩ := List.getElem?_eq_some_iff.mp h
  have hset : (c.threads.set i l)[i]? = some l := List.getElem?_set_self hi
  have hops := ops_perm (c := ⟨c.threads.set i l, c.shared⟩) hset
  rw [List.eraseIdx_set_eq] at hops
  exact hops.symm

lemma step_cases {a : Act Outside} (h : m.step c a = some d) :
    (∃ i op rest, a = .resume i ∧ c.threads[i]? = some (op :: rest) ∧
      d = ⟨c.threads.set i (m.run c.shared rest op).1, (m.run c.shared rest op).2⟩) ∨
    ∃ e, a = .outside e ∧
      d = ⟨c.threads ++ (m.outside c.shared e).1, (m.outside c.shared e).2⟩ := by
  cases a with
  | outside e => exact .inr ⟨e, rfl, (Option.some.inj h).symm⟩
  | resume i =>
    unfold System.step at h
    dsimp only at h
    split at h
    · rename_i op rest hi
      exact .inl ⟨i, op, rest, rfl, hi, (Option.some.inj h).symm⟩
    · cases h

/-- **Invariants**: what every operation keeps, whatever else is to be done, and everything from
outside keeps, holds along every run. -/
theorem invariant {cond : Config Shared Op → Act Outside → Prop} {Inv : Shared → List Op → Prop}
    (hperm : ∀ s k l, k ~ l → Inv s k → Inv s l)
    (hrun : ∀ (c : Config Shared Op) i op rest others, cond c (.resume i) →
      c.threads[i]? = some (op :: rest) → op :: (rest ++ others) ~ c.ops →
      Inv c.shared (op :: (rest ++ others)) →
      Inv (m.run c.shared rest op).2 ((m.run c.shared rest op).1 ++ others))
    (houtside : ∀ (c : Config Shared Op) e, cond c (.outside e) → Inv c.shared c.ops →
      Inv (m.outside c.shared e).2 (c.ops ++ (m.outside c.shared e).1.flatten))
    (h : m.Reaches cond c d) (h0 : Inv c.shared c.ops) : Inv d.shared d.ops := by
  induction h with
  | refl => exact h0
  | @tail c d _ hstep ih =>
    obtain ⟨a, hcond, hstep⟩ := hstep
    obtain ⟨i, op, rest, rfl, hi, rfl⟩ | ⟨e, rfl, rfl⟩ := step_cases hstep
    · have hops := ops_perm hi
      refine hperm _ _ _ (set_perm hi _).symm ?_
      exact hrun c i op rest _ hcond hi hops (hperm _ _ _ hops.symm ih)
    · have hout := houtside c e hcond ih
      rw [Config.ops] at hout ⊢
      rwa [List.flatten_append]

/-! ### Flags -/

/-- A flag that is set by an exchange, by whoever then does what it stands for: `pending` have set
it and not yet done it, `done` have. It may also be set by `force`. -/
structure Once (flag : Bool) (pending done : ℕ) (force : Prop) : Prop where
  atMost : pending + done ≤ flag.toNat
  atLeast : flag = true → force ∨ 1 ≤ pending + done

namespace Once

variable {flag : Bool} {pending done : ℕ} {force : Prop}

lemma start : Once false 0 0 force := ⟨Nat.le_refl 0, nofun⟩

lemma weaken {force' : Prop} (h : Once flag pending done force) (hf : force → force') :
    Once flag pending done force' :=
  ⟨h.atMost, fun hflag => (h.atLeast hflag).imp_left hf⟩

lemma exchange (h : Once false pending done force) : Once true (pending + 1) done force := by
  have hmost := h.atMost
  rw [Bool.toNat_false] at hmost
  refine ⟨?_, fun _ => .inr (by omega)⟩
  rw [Bool.toNat_true]
  omega

lemma act {pending' done' : ℕ} (h : Once flag pending done force)
    (hsum : pending' + done' = pending + done) : Once flag pending' done' force :=
  ⟨hsum ▸ h.atMost, hsum ▸ h.atLeast⟩

lemma forced {flag' : Bool} {pending' : ℕ} (h : Once flag pending done force)
    (hflag : flag = true → flag' = true) (hp : pending' ≤ pending) (hf : force) :
    Once flag' pending' done force := by
  refine ⟨?_, fun _ => .inl hf⟩
  have hmost := h.atMost
  have hle : flag.toNat ≤ flag'.toNat := by
    cases flag with
    | false => exact Nat.zero_le _
    | true => exact Nat.le_of_eq (by rw [hflag rfl])
  omega

lemma done_le (h : Once flag pending done force) : done ≤ 1 := by
  have hmost := h.atMost
  have hflag := Bool.toNat_le flag
  omega

lemma done_pos (h : Once true 0 done force) : force ∨ 1 ≤ done := by
  have hleast := h.atLeast rfl
  rwa [Nat.zero_add] at hleast

lemma done_eq (h : Once false pending done force) : done = 0 := by
  have hmost := h.atMost
  rw [Bool.toNat_false] at hmost
  omega

end Once

end TreeFrog.Threads
