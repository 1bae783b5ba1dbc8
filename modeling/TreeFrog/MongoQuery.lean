import Mathlib.Data.String.Basic
import TreeFrog.Criteria
import TreeFrog.SortedMap

/-!
Query documents of MongoDB and what they select.

The fields of a document are and-ed, those of one name too. `$or` is the disjunction of the
documents in its list. What one comparison holds of is left open.
-/

namespace TreeFrog.MongoQuery

open TreeFrog.Criteria TreeFrog.SortedMap

/-- The value of a field of a query: a value, a document of one operator, or documents. -/
inductive Condition where
  | value (v : QVariant)
  | operator (key : String) (v : QVariant)
  | documents (l : List (List (String × Condition)))

abbrev QVariantMap := List (String × Condition)

/-- The comparisons of MongoDB. -/
inductive Test where
  | equal
  | notEqual
  | lessThan
  | greaterThan
  | lessEqual
  | greaterEqual
  | exists_
  | notExists
  | all
  | isIn
  | notIn
  | mod
  | size
  | type
  deriving DecidableEq, Repr

/-- Which comparisons of a field with a value hold of a stored document. -/
abbrev Meaning := String → Test → QVariant → Bool

/-- The `bool` of this value. -/
def boolean (b : Bool) : QVariant := .value 1 (if b then "true" else "false")

/-- The comparison of an operator. -/
def reading (key : String) (v : QVariant) : Option (Test × QVariant) :=
  if key = "$ne" then some (.notEqual, v)
  else if key = "$lt" then some (.lessThan, v)
  else if key = "$gt" then some (.greaterThan, v)
  else if key = "$lte" then some (.lessEqual, v)
  else if key = "$gte" then some (.greaterEqual, v)
  else if key = "$exists" then
    match v with
    | .value 1 "true" => some (.exists_, .invalid)
    | .value 1 "false" => some (.notExists, .invalid)
    | _ => none
  else if key = "$all" then some (.all, v)
  else if key = "$in" then some (.isIn, v)
  else if key = "$nin" then some (.notIn, v)
  else if key = "$mod" then some (.mod, v)
  else if key = "$size" then some (.size, v)
  else if key = "$type" then some (.type, v)
  else none

mutual

def Condition.holds (meaning : Meaning) (key : String) : Condition → Bool
  | .value v => meaning key .equal v
  | .operator op v =>
    match reading op v with
    | some (test, w) => meaning key test w
    | none => false
  | .documents l => key = "$or" && anySelects meaning l

/-- The query selects the documents of which all of its fields hold. -/
def selects (meaning : Meaning) : List (String × Condition) → Bool
  | [] => true
  | (key, c) :: q => c.holds meaning key && selects meaning q

def anySelects (meaning : Meaning) : List (List (String × Condition)) → Bool
  | [] => false
  | q :: l => selects meaning q || anySelects meaning l

end

variable {meaning : Meaning}

lemma selects_perm {q r : QVariantMap} (h : q.Perm r) : selects meaning q = selects meaning r := by
  induction h with
  | nil => rfl
  | cons e _ ih => rw [selects, selects, ih]
  | swap e d q => simp only [selects, Bool.and_left_comm]
  | trans _ _ ih1 ih2 => exact ih1.trans ih2

lemma selects_append (q r : QVariantMap) :
    selects meaning (q ++ r) = (selects meaning q && selects meaning r) := by
  induction q with
  | nil => rfl
  | cons e q ih => rw [List.cons_append, selects, selects, ih, Bool.and_assoc]

/-- **Uniting** two queries selects what both select. -/
lemma selects_unite (q r : QVariantMap) :
    selects meaning (unite q r) = (selects meaning q && selects meaning r) := by
  rw [selects_perm (unite_perm q r), selects_append, Bool.and_comm]

lemma selects_or (q r : QVariantMap) :
    selects meaning [("$or", .documents [q, r])] = (selects meaning q || selects meaning r) := by
  simp [selects, Condition.holds, anySelects]

lemma unite_ne_nil {q r : QVariantMap} (h : r ≠ []) : unite q r ≠ [] := fun hnil => by
  have hperm := hnil ▸ unite_perm q r
  exact h (List.append_eq_nil_iff.mp hperm.nil_eq.symm).1

end TreeFrog.MongoQuery
