import TreeFrog.CriteriaConverter

/-!
What a criteria means, and when its WHERE text says so. The documented meaning of one
comparison is a predicate of SQL, a constant (an empty list) or a short condition (`IsEmpty`,
`IsNotEmpty`); the calls join them as a boolean expression in which empty criteria count for
nothing. The text agrees with that if every comparison renders, no operand is lost on the way
and no negation falls on a chain of AND.
-/

namespace TreeFrog.CriteriaMeaning

open SqlCondition SqlText Criteria CriteriaConverter

/-! ### One comparison -/

/-- The documented readings of a comparison of the column `name`. -/
inductive Form where
  | predicate (p : Predicate)
  | isEmpty (name : String)
  | isNotEmpty (name : String)
  | never
  | always
  deriving DecidableEq, Repr

def comparison : ComparisonOperator → Option Comparison
  | .equal => some .eq
  | .notEqual => some .ne
  | .lessThan => some .lt
  | .greaterThan => some .gt
  | .lessEqual => some .le
  | .greaterEqual => some .ge
  | _ => none

/-- LIKE and its variants: negated or not, insensitive or not. -/
def liking : ComparisonOperator → Option (Bool × Bool)
  | .like => some (false, false)
  | .notLike => some (true, false)
  | .iLike => some (false, true)
  | .notILike => some (true, true)
  | _ => none

/-- The two values of a comparison that takes two, in a list or one by one. -/
def values : TCriteriaData → Option (QVariant × QVariant)
  | ⟨_, _, _, .list [v, w], .invalid⟩ => some (v, w)
  | ⟨_, _, _, _, .invalid⟩ => none
  | ⟨_, _, _, v, w⟩ => some (v, w)

/-- A comparison with every value of a list, or with some; over the empty list it is
constant. -/
def overList (p : List String → Predicate) (empty : Form) (lit : QVariant → String) :
    QVariant → Option Form
  | .list [] => some empty
  | .list vs => some (.predicate (p (vs.map lit)))
  | _ => none

/-- The reading of a comparison with ANY or ALL. -/
def quantifiedForm (name : String) (lit : QVariant → String) (d : TCriteriaData)
    (q : Quantifier) (empty : Form) : Option Form :=
  match comparison d.op1, liking d.op1 with
  | some op, _ => overList (.compareEach name op q) empty lit d.val1
  | none, some (negated, insensitive) =>
    overList (.likeEach name negated insensitive q) empty lit d.val1
  | none, none => none

/-- The reading of a comparison with one operator. -/
def simpleForm (name : String) (lit : QVariant → String) (d : TCriteriaData) : Option Form :=
  match d.op1 with
  | .equal | .notEqual | .lessThan | .greaterThan | .lessEqual | .greaterEqual =>
    (comparison d.op1).map fun op => .predicate (.compare name op (lit d.val1))
  | .like | .notLike | .iLike | .notILike =>
    (liking d.op1).map fun k => .predicate (.like name k.1 k.2 (lit d.val1) none)
  | .likeEscape => (values d).map fun v => .predicate (.like name false false (lit v.1) (lit v.2))
  | .notLikeEscape =>
    (values d).map fun v => .predicate (.like name true false (lit v.1) (lit v.2))
  | .iLikeEscape => (values d).map fun v => .predicate (.like name false true (lit v.1) (lit v.2))
  | .notILikeEscape =>
    (values d).map fun v => .predicate (.like name true true (lit v.1) (lit v.2))
  | .isIn => overList (.isIn name false) .never lit d.val1
  | .notIn => overList (.isIn name true) .always lit d.val1
  | .between => (values d).map fun v => .predicate (.between name false (lit v.1) (lit v.2))
  | .notBetween => (values d).map fun v => .predicate (.between name true (lit v.1) (lit v.2))
  | .isNull => some (.predicate (.isNull name false))
  | .isNotNull => some (.predicate (.isNull name true))
  | .isEmpty => some (.isEmpty name)
  | .isNotEmpty => some (.isNotEmpty name)
  | .any | .all | .invalid | .mongo _ => none

variable (conv : TCriteriaConverter)

/-- A value as the literal that the driver writes for a property. -/
def lit (property : ℤ) (v : QVariant) : String :=
  formatValue v (conv.variantType property) conv.driver

/-- The documented reading of a comparison; `none` if there is none. -/
def form (d : TCriteriaData) : Option Form :=
  let name := conv.propertyName d.property
  if name = "" then none
  else
    match d.op2 with
    | .invalid => simpleForm name (lit conv d.property) d
    | .any => quantifiedForm name (lit conv d.property) d .any .never
    | .all => quantifiedForm name (lit conv d.property) d .all .always
    | _ => none

/-- The comparison has values that its operator can take and that the driver can write. -/
def Renders (d : TCriteriaData) : Prop :=
  conv.propertyName d.property ≠ "" ∧
  match d.op2 with
  | .invalid =>
    match d.op1 with
    | .equal | .notEqual | .lessThan | .greaterThan | .lessEqual | .greaterEqual
    | .like | .notLike | .iLike | .notILike =>
      (d.val1.isNull ∨ d.val2.isNull) ∧ lit conv d.property d.val1 ≠ ""
    | .likeEscape | .notLikeEscape | .iLikeEscape | .notILikeEscape | .between | .notBetween =>
      ∃ v w, values d = some (v, w) ∧ lit conv d.property v ≠ "" ∧ lit conv d.property w ≠ "" ∧
        (d.val2 ≠ .invalid → !v.isNull ∧ !w.isNull)
    | .isIn | .notIn =>
      d.val2.isNull ∧ d.val1.toList ≠ [] ∧ ∀ v ∈ d.val1.toList, lit conv d.property v ≠ ""
    | .isNull | .isNotNull | .isEmpty | .isNotEmpty => d.val1.isNull ∨ d.val2.isNull
    | .any | .all | .invalid | .mongo _ => False
  | .any | .all =>
    ((comparison d.op1).isSome ∨ (liking d.op1).isSome) ∧
      d.val1.toList ≠ [] ∧ ∀ v ∈ d.val1.toList, lit conv d.property v ≠ ""
  | _ => False

/-- How a reading is written; a constant is not. -/
def Form.text : Form → Option Text
  | .predicate (.like n negated i v (some e)) =>
    some (.opened :: (Predicate.like n negated i v (some e)).text ++ [.closed])
  | .predicate (.between n negated v w) =>
    some (.opened :: (Predicate.between n negated v w).text ++ [.closed])
  | .predicate p => some p.text
  | .isEmpty n =>
    some (.opened :: (Predicate.isNull n false).text ++ .or :: (Predicate.compare n .eq "''").text
      ++ [.closed])
  | .isNotEmpty n =>
    some ((Predicate.isNull n true).text ++ .and :: (Predicate.compare n .ne "''").text)
  | .never | .always => none

/-- The reading is a chain of AND without parentheses. -/
def Form.chain : Form → Bool
  | .isNotEmpty _ => true
  | _ => false

lemma joined_of_ne {vs : List String} (hne : vs ≠ []) (h : ∀ v ∈ vs, v ≠ "") :
    joined vs = [.literals vs] := by
  have hall : vs.filter (· ≠ "") = vs := List.filter_eq_self.mpr (by simpa using h)
  rw [joined, hall, if_neg hne]

variable {conv}

lemma nonneg_of_propertyName {p : ℤ} (h : conv.propertyName p ≠ "") : ¬ p < 0 := by
  intro hneg
  exact h (by simp [TCriteriaConverter.propertyName, hneg])

lemma list_of_toList_ne {v : QVariant} (h : v.toList ≠ []) :
    ∃ w ws, v = .list (w :: ws) := by
  cases v with
  | list elems =>
    cases elems with
    | nil => exact absurd rfl h
    | cons w ws => exact ⟨w, ws, rfl⟩
  | _ => exact absurd rfl h

lemma joined_lit {vs : List QVariant} {property : ℤ} (hne : vs ≠ [])
    (h : ∀ v ∈ vs, lit conv property v ≠ "") :
    joined (vs.map fun v => formatValue v (conv.variantType property) conv.driver) =
      [.literals (vs.map (lit conv property))] := by
  have hvs : vs.map (lit conv property) ≠ [] := by simpa using hne
  have hlit : ∀ v ∈ vs.map (lit conv property), v ≠ "" := by simpa using h
  exact joined_of_ne hvs hlit

lemma quantifiedToString_text {op1 op2 : ComparisonOperator} {q : Quantifier} {property : ℤ}
    {val1 val2 : QVariant} (empty : Form) (name : String)
    (hq : op2 = .any ∧ q = .any ∨ op2 = .all ∧ q = .all)
    (hop : (comparison op1).isSome ∨ (liking op1).isSome) (hne : val1.toList ≠ [])
    (hlit : ∀ v ∈ val1.toList, lit conv property v ≠ "") :
    ∃ f, quantifiedForm name (lit conv property) ⟨property, op1, op2, val1, val2⟩ q empty = some f ∧
      f.text = some (conv.quantifiedToString name (conv.variantType property) op1 op2 val1) ∧
      f.chain = decide (op1 = .isNotEmpty) := by
  obtain ⟨v, vs, rfl⟩ := list_of_toList_ne hne
  have hjoined := joined_lit hne hlit
  simp only [TCriteriaConverter.quantifiedToString, hjoined]
  rcases hq with ⟨rfl, rfl⟩ | ⟨rfl, rfl⟩ <;> cases op1 <;>
    first
    | exact ⟨_, rfl, rfl, rfl⟩
    | simp [comparison, liking] at hop

lemma pairToString_text {op : ComparisonOperator} {v w : QVariant} {property : ℤ} (name : String)
    (hop : op ∈ [.likeEscape, .notLikeEscape, .iLikeEscape, .notILikeEscape, .between, .notBetween])
    (hv : lit conv property v ≠ "") (hw : lit conv property w ≠ "") :
    conv.pairToString name (conv.variantType property) op v w =
      [Token.opened, Token.identifier name] ++ formatArg2 op [Token.literals [lit conv property v]]
        [Token.literals [lit conv property w]] ++ [Token.closed] := by
  have hv' : formatValue v (conv.variantType property) conv.driver ≠ "" := hv
  have hw' : formatValue w (conv.variantType property) conv.driver ≠ "" := hw
  simp only [TCriteriaConverter.pairToString, hv', hw', literal, lit, ne_eq, not_false_eq_true,
    and_self, if_true, if_false]
  simp only [List.mem_cons, List.not_mem_nil, or_false] at hop
  rcases hop with rfl | rfl | rfl | rfl | rfl | rfl <;> rfl

variable {property : ℤ} {op1 op2 : ComparisonOperator} {val1 val2 : QVariant}

lemma dataToString_quantified (hname : conv.propertyName property ≠ "") (h1 : op1 ≠ .invalid)
    (h2 : op2 ≠ .invalid) (hnull : val1.isNull = false) :
    conv.dataToString ⟨property, op1, op2, val1, val2⟩ =
      conv.quantifiedToString (conv.propertyName property) (conv.variantType property) op1 op2
        val1 := by
  simp [TCriteriaConverter.dataToString, TCriteriaData.isEmpty, nonneg_of_propertyName hname,
    hname, h1, h2, hnull]

lemma dataToString_pair (hname : conv.propertyName property ≠ "") (h1 : op1 ≠ .invalid)
    (hnull1 : val1.isNull = false) (hnull2 : val2.isNull = false) :
    conv.dataToString ⟨property, op1, .invalid, val1, val2⟩ =
      conv.pairToString (conv.propertyName property) (conv.variantType property) op1 val1
        val2 := by
  simp [TCriteriaConverter.dataToString, TCriteriaData.isEmpty, nonneg_of_propertyName hname,
    hname, h1, hnull1, hnull2]

lemma dataToString_switch (hname : conv.propertyName property ≠ "") (h1 : op1 ≠ .invalid)
    (hnull : val1.isNull ∨ val2.isNull) :
    conv.dataToString ⟨property, op1, .invalid, val1, val2⟩ =
      conv.switchToString (conv.propertyName property) (conv.variantType property)
        ⟨property, op1, .invalid, val1, val2⟩ := by
  rcases hnull with hnull | hnull <;>
    simp [TCriteriaConverter.dataToString, TCriteriaData.isEmpty, nonneg_of_propertyName hname,
      hname, h1, hnull]

lemma dataToString_values (hname : conv.propertyName property ≠ "")
    (hop : op1 ∈ [.likeEscape, .notLikeEscape, .iLikeEscape, .notILikeEscape,
      .between, .notBetween])
    {v w : QVariant} (hvalues : values ⟨property, op1, .invalid, val1, val2⟩ = some (v, w))
    (hnull : val2 ≠ .invalid → !v.isNull ∧ !w.isNull) :
    conv.dataToString ⟨property, op1, .invalid, val1, val2⟩ =
      conv.pairToString (conv.propertyName property) (conv.variantType property) op1 v w := by
  have hop1 : op1 ≠ .invalid := by rintro rfl; simp at hop
  by_cases hsecond : val2 = .invalid
  · subst hsecond
    obtain rfl : val1 = .list [v, w] := by
      unfold values at hvalues
      split at hvalues <;> simp_all
    rw [dataToString_switch hname hop1 (Or.inr rfl)]
    simp only [List.mem_cons, List.not_mem_nil, or_false] at hop
    rcases hop with rfl | rfl | rfl | rfl | rfl | rfl <;> rfl
  · obtain ⟨rfl, rfl⟩ : val1 = v ∧ val2 = w := by
      unfold values at hvalues
      split at hvalues <;> simp_all
    obtain ⟨hnull1, hnull2⟩ := hnull hsecond
    exact dataToString_pair hname hop1 (by simpa using hnull1) (by simpa using hnull2)

lemma form_simple (hname : conv.propertyName property ≠ "") :
    form conv ⟨property, op1, .invalid, val1, val2⟩ =
      simpleForm (conv.propertyName property) (lit conv property)
        ⟨property, op1, .invalid, val1, val2⟩ := by
  simp [form, hname]

/-- **A comparison that renders is written as it is documented.** -/
theorem dataToString_text {d : TCriteriaData} (h : Renders conv d) :
    ∃ f, form conv d = some f ∧ f.text = some (conv.dataToString d) ∧
      f.chain = decide (d.op1 = .isNotEmpty) := by
  obtain ⟨property, op1, op2, val1, val2⟩ := d
  obtain ⟨hname, h⟩ := h
  simp only at hname h
  cases op2
  -- a comparison with the elements of a list
  case any | all =>
    obtain ⟨hop, hne, hlit⟩ := h
    have hop1 : op1 ≠ .invalid := by rintro rfl; simp [comparison, liking] at hop
    have hnull : val1.isNull = false := by
      obtain ⟨w, ws, rfl⟩ := list_of_toList_ne hne
      rfl
    rw [dataToString_quantified hname hop1 (by decide) hnull]
    simp only [form, hname, if_false]
    exact quantifiedToString_text _ _ (by simp) hop hne hlit
  case invalid =>
    rw [form_simple hname]
    cases op1
    case equal | notEqual | lessThan | greaterThan | lessEqual | greaterEqual | like | notLike
        | iLike | notILike =>
      obtain ⟨hnull, hlit⟩ := h
      have hwritten : literal (formatValue val1 (conv.variantType property) conv.driver) =
          [.literals [lit conv property val1]] := if_neg hlit
      rw [dataToString_switch hname (by decide) hnull, TCriteriaConverter.switchToString]
      simp only [hwritten]
      exact ⟨_, rfl, rfl, rfl⟩
    case isIn | notIn =>
      obtain ⟨hnull, hne, hlit⟩ := h
      rw [dataToString_switch hname (by decide) (Or.inr hnull), TCriteriaConverter.switchToString]
      simp only [joined_lit hne hlit]
      obtain ⟨w, ws, rfl⟩ := list_of_toList_ne hne
      exact ⟨_, rfl, rfl, rfl⟩
    case likeEscape | notLikeEscape | iLikeEscape | notILikeEscape | between | notBetween =>
      obtain ⟨v, w, hvalues, hv, hw, hnull⟩ := h
      rw [dataToString_values hname (by simp) hvalues hnull,
        pairToString_text _ (by simp) hv hw, simpleForm, hvalues]
      exact ⟨_, rfl, rfl, rfl⟩
    case isNull | isNotNull | isEmpty | isNotEmpty =>
      rw [dataToString_switch hname (by decide) h]
      exact ⟨_, rfl, rfl, rfl⟩
    all_goals exact absurd h id
  all_goals exact absurd h id

end TreeFrog.CriteriaMeaning
