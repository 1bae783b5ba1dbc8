import Mathlib.Order.Lattice
import Mathlib.Order.BoundedOrder.Basic
import Mathlib.Order.Notation
import Mathlib.Order.Heyting.Basic
import Mathlib.Algebra.Order.Ring.Int

/-!
Reading a boolean condition written with NOT, AND, OR and parentheses, NOT binding more
strongly than AND and AND more strongly than OR. The reader makes one pass with a stack of
the open parentheses, and computes the value of the condition in a lattice with a complement,
from the values of its predicates. A factor (a predicate, a negation, a condition in
parentheses) reads the same everywhere; a term (a chain of AND) reads as one operand wherever
no NOT is pending; refused pieces cannot be read anywhere.
-/

namespace TreeFrog.SqlCondition

/-- SQL's truth values, from false to true. -/
inductive Truth where
  | no
  | unknown
  | yes
  deriving DecidableEq, Repr

namespace Truth

def rank : Truth → ℕ
  | no => 0
  | unknown => 1
  | yes => 2

lemma rank_injective : Function.Injective rank := by
  intro x y h
  cases x <;> cases y <;> first | rfl | exact absurd h (by decide)

instance : LinearOrder Truth := LinearOrder.lift' rank rank_injective

instance : BoundedOrder Truth where
  top := yes
  le_top x := by cases x <;> decide
  bot := no
  bot_le x := by cases x <;> decide

/-- NOT of an unknown value is unknown. -/
instance : Compl Truth where
  compl
    | no => yes
    | unknown => unknown
    | yes => no

end Truth

/-- The pieces of a condition. -/
inductive Piece (π : Type) where
  | and
  | or
  | not
  | opened
  | closed
  | predicate (p : π)
  deriving DecidableEq, Repr

variable {π β : Type}

/-- What has been read since the last open parenthesis: the terms before the last OR, the
factors before the last AND, and the NOTs that wait for their operand. -/
structure Frame (β : Type) where
  disjuncts : Option β
  conjuncts : Option β
  nots : ℕ

/-- A reader inside its innermost parenthesis; `complete` after an operand. -/
structure Reader (β : Type) where
  frame : Frame β
  enclosing : List (Frame β)
  complete : Bool

def Frame.blank : Frame β := ⟨none, none, 0⟩

section Reading

variable [Lattice β] [Compl β]

/-- An operand is negated once for every pending NOT and joins the factors of its term. -/
def Frame.operand (f : Frame β) (x : β) : Frame β :=
  let y := compl^[f.nots] x
  { f with conjuncts := some (f.conjuncts.elim y (· ⊓ y)), nots := 0 }

def Frame.value (f : Frame β) : Option β :=
  match f.disjuncts, f.conjuncts with
  | none, c => c
  | some d, some c => some (d ⊔ c)
  | some _, none => none

def Reader.start : Reader β := ⟨.blank, [], false⟩

def Reader.operand (r : Reader β) (x : β) : Reader β :=
  { r with frame := r.frame.operand x, complete := true }

/-- One piece of the condition; `none` where it cannot stand. -/
def step (holds : π → β) (r : Reader β) : Piece π → Option (Reader β)
  | .predicate p => if r.complete then none else some (r.operand (holds p))
  | .not =>
    if r.complete then none
    else some { r with frame := { r.frame with nots := r.frame.nots + 1 } }
  | .opened =>
    if r.complete then none else some ⟨.blank, r.frame :: r.enclosing, false⟩
  | .and => if r.complete then some { r with complete := false } else none
  | .or =>
    if r.complete then some ⟨⟨r.frame.value, none, 0⟩, r.enclosing, false⟩ else none
  | .closed =>
    if r.complete then
      match r.frame.value, r.enclosing with
      | some x, f :: fs => some ⟨f.operand x, fs, true⟩
      | _, _ => none
    else none

def run (holds : π → β) (r : Reader β) (ps : List (Piece π)) : Option (Reader β) :=
  ps.foldlM (step holds) r

/-- The value of a whole condition; `none` if it is not one. -/
def evaluate (holds : π → β) (ps : List (Piece π)) : Option β := do
  let r ← run holds .start ps
  if r.complete ∧ r.enclosing.isEmpty then r.frame.value else none

@[simp] lemma run_nil (holds : π → β) (r : Reader β) : run holds r [] = some r := rfl

@[simp] lemma run_cons (holds : π → β) (r : Reader β) (p : Piece π) (ps : List (Piece π)) :
    run holds r (p :: ps) = (step holds r p).bind (run holds · ps) := rfl

lemma run_append (holds : π → β) (r : Reader β) (ps qs : List (Piece π)) :
    run holds r (ps ++ qs) = (run holds r ps).bind (run holds · qs) := by
  simp [run, List.foldlM_append]

@[simp] lemma operand_nots (f : Frame β) (x : β) : (f.operand x).nots = 0 := rfl

@[simp] lemma operand_disjuncts (f : Frame β) (x : β) :
    (f.operand x).disjuncts = f.disjuncts := rfl

/-- In a frame where nothing waits, two operands of a chain count as one. -/
lemma operand_operand (f : Frame β) (h : f.nots = 0) (x y : β) :
    (f.operand x).operand y = f.operand (x ⊓ y) := by
  obtain ⟨d, c, n⟩ := f
  obtain rfl : n = 0 := h
  cases c <;> simp [Frame.operand, inf_assoc]

/-! ### Factors and terms -/

/-- The pieces read as one operand of value `x` wherever an operand may stand. -/
def Factor (holds : π → β) (ps : List (Piece π)) (x : β) : Prop :=
  ∀ r : Reader β, r.complete = false → run holds r ps = some (r.operand x)

/-- The pieces read as one operand of value `x` where no NOT waits for an operand; where one
does, they read as something else. -/
structure Term (holds : π → β) (ps : List (Piece π)) (x : β) : Prop where
  value : ∀ r : Reader β, r.complete = false → r.frame.nots = 0 →
    run holds r ps = some (r.operand x)
  complete : ∀ r : Reader β, r.complete = false →
    ∃ r', run holds r ps = some r' ∧ r'.complete = true

/-- The pieces cannot be read where an operand must stand. -/
def Refused (holds : π → β) (ps : List (Piece π)) : Prop :=
  ∀ r : Reader β, r.complete = false → run holds r ps = none

variable {holds : π → β} {ps qs : List (Piece π)} {x y : β}

lemma Factor.term (h : Factor holds ps x) : Term holds ps x :=
  ⟨fun r hr _ => h r hr, fun r hr => ⟨r.operand x, h r hr, rfl⟩⟩

lemma Factor.predicate (p : π) : Factor holds [.predicate p] (holds p) := by
  intro r hr
  simp [step, hr]

lemma Factor.not (h : Factor holds ps x) : Factor holds (.not :: ps) xᶜ := by
  intro r hr
  have hrun := h { r with frame := { r.frame with nots := r.frame.nots + 1 } } hr
  simpa [step, hr, Reader.operand, Frame.operand] using hrun

lemma Term.and (hp : Term holds ps x) (hq : Term holds qs y) :
    Term holds (ps ++ .and :: qs) (x ⊓ y) := by
  constructor
  · intro r hr hn
    rw [run_append, hp.value r hr hn, Option.bind_some, run_cons]
    have hrun := hq.value { r.operand x with complete := false } rfl rfl
    simpa [step, Reader.operand, operand_operand r.frame hn x y] using hrun
  · intro r hr
    obtain ⟨r', hrun, hcomplete⟩ := hp.complete r hr
    obtain ⟨r'', hrun', hcomplete'⟩ := hq.complete { r' with complete := false } rfl
    exact ⟨r'', by simp [run_append, hrun, step, hcomplete, hrun'], hcomplete'⟩

lemma step_opened {r : Reader β} (hr : r.complete = false) :
    step holds r .opened = some ⟨.blank, r.frame :: r.enclosing, false⟩ := by
  simp [step, hr]

lemma Term.or_paren (hp : Term holds ps x) (hq : Term holds qs y) :
    Factor holds (Piece.opened :: ps ++ Piece.or :: qs ++ [Piece.closed]) (x ⊔ y) := by
  intro r hr
  have hfirst := hp.value ⟨.blank, r.frame :: r.enclosing, false⟩ rfl rfl
  have hsecond := hq.value ⟨⟨some x, none, 0⟩, r.frame :: r.enclosing, false⟩ rfl rfl
  simp only [List.append_assoc, List.cons_append, run_cons]
  rw [step_opened hr, Option.bind_some, run_append, hfirst, Option.bind_some, run_cons,
    show step holds (Reader.operand ⟨.blank, r.frame :: r.enclosing, false⟩ x) .or
      = some ⟨⟨some x, none, 0⟩, r.frame :: r.enclosing, false⟩ from rfl,
    Option.bind_some, run_append, hsecond]
  rfl

lemma Term.paren (h : Term holds ps x) : Factor holds (.opened :: ps ++ [.closed]) x := by
  intro r hr
  have hrun := h.value ⟨.blank, r.frame :: r.enclosing, false⟩ rfl rfl
  simp only [List.cons_append, run_cons]
  rw [step_opened hr, Option.bind_some, run_append, hrun]
  rfl

/-- **A term is a condition of its value.** -/
theorem Term.evaluate (h : Term holds ps x) : evaluate holds ps = some x := by
  rw [SqlCondition.evaluate, h.value .start rfl rfl]
  rfl

lemma not_term_nil (x : β) : ¬ Term holds [] x := by
  intro h
  have hrun := h.value .start rfl rfl
  simp [Reader.operand, Reader.start] at hrun

/-! ### Refused pieces -/

lemma Refused.append (h : Refused holds ps) (qs : List (Piece π)) :
    Refused holds (ps ++ qs) := by
  intro r hr
  rw [run_append, h r hr, Option.bind_none]

lemma Refused.not (h : Refused holds ps) : Refused holds (.not :: ps) := by
  intro r hr
  simpa [step, hr] using h { r with frame := { r.frame with nots := r.frame.nots + 1 } } hr

lemma Refused.paren (h : Refused holds ps) : Refused holds (.opened :: ps) := by
  intro r hr
  rw [run_cons, step_opened hr, Option.bind_some, h _ rfl]

lemma refused_cons {p : Piece π} (hp : p = .and ∨ p = .or ∨ p = .closed)
    (ps : List (Piece π)) : Refused holds (p :: ps) := by
  intro r hr
  rcases hp with rfl | rfl | rfl <;> simp [step, hr]

lemma Term.refused (hp : Term holds ps x) {c : Piece π} (hc : c = .and ∨ c = .or)
    (hq : Refused holds qs) : Refused holds (ps ++ c :: qs) := by
  intro r hr
  obtain ⟨r', hrun, hcomplete⟩ := hp.complete r hr
  rw [run_append, hrun, Option.bind_some, run_cons]
  rcases hc with rfl | rfl
  · simp [step, hcomplete, hq { r' with complete := false } rfl]
  · simp [step, hcomplete, hq ⟨⟨r'.frame.value, none, 0⟩, r'.enclosing, false⟩ rfl]

/-- **Refused pieces are no condition.** -/
theorem Refused.evaluate (h : Refused holds ps) : evaluate holds ps = none := by
  rw [SqlCondition.evaluate, h .start rfl]
  rfl

end Reading

end TreeFrog.SqlCondition
