import Mathlib.Order.Notation
import Mathlib.Algebra.Order.Ring.Int

/-!
`TCriteria`: the tree of a criteria and the operations that build it. A criteria holds two
operands and an operator between them; an operand is null, a comparison, or again a criteria.
`add` and `operator!` rewrite the tree they are called on.
-/

namespace TreeFrog.Criteria

/-- A `QVariant` with its type code, as far as the converters look into it. -/
inductive QVariant where
  | invalid
  | null (type : ℕ)
  | value (type : ℕ) (data : String)
  | list (elems : List QVariant)

namespace QVariant

def isNull : QVariant → Bool
  | invalid | null _ => true
  | value .. | list _ => false

def toList : QVariant → List QVariant
  | list elems => elems
  | _ => []

/-- `QVariant::List`. -/
def listType : ℕ := 9

def type : QVariant → ℕ
  | invalid => 0
  | null t => t
  | value t _ => t
  | list _ => listType

end QVariant

/-- `TSql::ComparisonOperator`; `mongo` stands for the operators that only `TMongo` has. -/
inductive ComparisonOperator where
  | invalid
  | equal
  | notEqual
  | lessThan
  | greaterThan
  | lessEqual
  | greaterEqual
  | isNull
  | isEmpty
  | isNotNull
  | isNotEmpty
  | like
  | notLike
  | likeEscape
  | notLikeEscape
  | iLike
  | notILike
  | iLikeEscape
  | notILikeEscape
  | isIn
  | notIn
  | between
  | notBetween
  | any
  | all
  | mongo (code : ℕ)
  deriving DecidableEq, Repr

structure TCriteriaData where
  property : ℤ
  op1 : ComparisonOperator
  op2 : ComparisonOperator
  val1 : QVariant
  val2 : QVariant

def TCriteriaData.isEmpty (d : TCriteriaData) : Bool :=
  d.property < 0 || d.op1 = .invalid

inductive LogicalOperator where
  | none
  | and
  | or
  | not
  deriving DecidableEq, Repr

/-- An operand of a criteria: the `QVariant` of a `TCriteriaData` or of a `TCriteria`. -/
inductive Operand where
  | null
  | data (d : TCriteriaData)
  | criteria (cri1 cri2 : Operand) (logiOp : LogicalOperator)

def Operand.isNull : Operand → Bool
  | null => true
  | data _ | criteria .. => false

structure TCriteria where
  cri1 : Operand
  cri2 : Operand
  logiOp : LogicalOperator

namespace TCriteria

/-- `TCriteria::TCriteria()`. -/
def empty : TCriteria := ⟨.null, .null, .none⟩

/-- The other constructors: one comparison. -/
def ofData (d : TCriteriaData) : TCriteria := ⟨.data d, .null, .none⟩

/-- `QVariant::fromValue` of a criteria. -/
def fromValue (c : TCriteria) : Operand := .criteria c.cri1 c.cri2 c.logiOp

def isEmpty (c : TCriteria) : Bool := c.cri1.isNull

/-- `TCriteria::add(LogicalOperator, const TCriteria &)`. -/
def add (c : TCriteria) (op : LogicalOperator) (criteria : TCriteria) : TCriteria :=
  if c.cri1.isNull then
    { cri1 := fromValue criteria, logiOp := .none, cri2 := .null }
  else
    { cri1 := if c.logiOp ≠ .none then fromValue c else c.cri1, logiOp := op,
      cri2 := fromValue criteria }

/-- The same call with the criteria itself as the argument. The argument is a reference, so
that what is copied into `cri2` has the new first operand and operator already. -/
def addItself (c : TCriteria) (op : LogicalOperator) : TCriteria :=
  if c.cri1.isNull then
    { cri1 := fromValue c, logiOp := .none, cri2 := .null }
  else
    let cri1 := if c.logiOp ≠ .none then fromValue c else c.cri1
    { cri1, logiOp := op, cri2 := fromValue { cri1, cri2 := c.cri2, logiOp := op } }

/-- `operator!`. -/
def negation (c : TCriteria) : TCriteria := { c with logiOp := .not }

@[simp] lemma add_isEmpty (c : TCriteria) (op : LogicalOperator) (d : TCriteria) :
    (c.add op d).isEmpty = false := by
  obtain ⟨cri1, cri2, logiOp⟩ := c
  cases cri1 <;> cases logiOp <;> rfl

@[simp] lemma addItself_isEmpty (c : TCriteria) (op : LogicalOperator) :
    (c.addItself op).isEmpty = false := by
  obtain ⟨cri1, cri2, logiOp⟩ := c
  cases cri1 <;> cases logiOp <;> rfl

@[simp] lemma negation_isEmpty (c : TCriteria) : c.negation.isEmpty = c.isEmpty := rfl

end TCriteria

/-! ### The calls that build a criteria -/

/-- The operators of `add`: `and` for `add` and `operator&&`, `or` for `addOr` and
`operator||`. -/
inductive Junction where
  | and
  | or
  deriving DecidableEq, Repr

def Junction.logicalOperator : Junction → LogicalOperator
  | and => .and
  | or => .or

/-- The calls by which a program builds a criteria. -/
inductive Build where
  | empty
  | data (d : TCriteriaData)
  | add (op : Junction) (b c : Build)
  | addItself (op : Junction) (b : Build)
  | not (b : Build)

namespace Build

/-- The tree that the calls build. -/
def tree : Build → TCriteria
  | empty => .empty
  | data d => .ofData d
  | add op b c => b.tree.add op.logicalOperator c.tree
  | addItself op b => b.tree.addItself op.logicalOperator
  | not b => b.tree.negation

def isEmpty (b : Build) : Bool := b.tree.isEmpty

/-- Nothing but empty criteria went into it. -/
def neutral : Build → Bool
  | empty => true
  | data _ => false
  | add _ b c => b.neutral && c.neutral
  | addItself _ b => b.neutral
  | not b => b.neutral

@[simp] lemma isEmpty_empty : isEmpty empty = true := rfl

@[simp] lemma isEmpty_data (d : TCriteriaData) : isEmpty (data d) = false := rfl

@[simp] lemma isEmpty_add (op : Junction) (b c : Build) : isEmpty (add op b c) = false := by
  simp [isEmpty, tree]

@[simp] lemma isEmpty_addItself (op : Junction) (b : Build) :
    isEmpty (addItself op b) = false := by
  simp [isEmpty, tree]

@[simp] lemma isEmpty_not (b : Build) : isEmpty (not b) = b.isEmpty := rfl

lemma neutral_of_isEmpty {b : Build} (h : b.isEmpty = true) : b.neutral = true := by
  induction b with
  | empty => rfl
  | data d => simp at h
  | add op b c _ _ => simp at h
  | addItself op b _ => simp at h
  | not b ih => exact ih h

lemma cri2_of_none {b : Build} (h : b.tree.logiOp = .none) : b.tree.cri2 = .null := by
  cases b with
  | empty => rfl
  | data d => rfl
  | add op b c =>
    by_cases hnull : b.tree.cri1.isNull
    · simp [tree, TCriteria.add, hnull]
    · cases op <;> simp [tree, TCriteria.add, hnull, Junction.logicalOperator] at h
  | addItself op b =>
    by_cases hnull : b.tree.cri1.isNull
    · simp [tree, TCriteria.addItself, hnull]
    · cases op <;> simp [tree, TCriteria.addItself, hnull, Junction.logicalOperator] at h
  | not b => simp [tree, TCriteria.negation] at h

end Build

end TreeFrog.Criteria
