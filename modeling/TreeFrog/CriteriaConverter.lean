import TreeFrog.SqlText
import TreeFrog.Criteria
import TreeFrog.MetaObject

/-!
`TCriteriaConverter`: the WHERE text of a criteria. The text of an operand may be empty; what
`concat` makes of two texts depends on which of them is.
-/

namespace TreeFrog.CriteriaConverter

open SqlText Criteria MetaObject

/-- What the converter asks of the SQL driver. -/
structure QSqlDriver where
  isIdentifierEscaped : String → Bool
  escapeIdentifier : String → String
  formatValue : QVariant → ℕ → String

/-- `TSqlQuery::escapeIdentifier`. -/
def escapeIdentifier (identifier : String) (driver : QSqlDriver) : String :=
  if !driver.isIdentifierEscaped identifier then driver.escapeIdentifier identifier
  else identifier

/-- `TSqlQuery::formatValue`. -/
def formatValue (val : QVariant) (type : ℕ) (driver : QSqlDriver) : String :=
  driver.formatValue val (if type = 0 then val.type else type)

/-- `FormatHash`; an operator that is not in it has the empty format. -/
def formatHash : ComparisonOperator → Text
  | .equal => [.comparison .eq, .marker 1]
  | .notEqual => [.comparison .ne, .marker 1]
  | .lessThan => [.comparison .lt, .marker 1]
  | .greaterThan => [.comparison .gt, .marker 1]
  | .lessEqual => [.comparison .le, .marker 1]
  | .greaterEqual => [.comparison .ge, .marker 1]
  | .isNull => [.is, .null]
  | .isEmpty =>
    [.opened, .marker 1, .is, .null, .or, .marker 1, .comparison .eq, .literals ["''"], .closed]
  | .isNotNull => [.is, .not, .null]
  | .isNotEmpty =>
    [.marker 1, .is, .not, .null, .and, .marker 1, .comparison .ne, .literals ["''"]]
  | .like => [.like false, .marker 1]
  | .notLike => [.not, .like false, .marker 1]
  | .likeEscape => [.like false, .marker 1, .escape, .marker 2]
  | .notLikeEscape => [.not, .like false, .marker 1, .escape, .marker 2]
  | .iLike => [.like true, .marker 1]
  | .notILike => [.not, .like true, .marker 1]
  | .iLikeEscape => [.like true, .marker 1, .escape, .marker 2]
  | .notILikeEscape => [.not, .like true, .marker 1, .escape, .marker 2]
  | .isIn => [.isIn, .opened, .marker 1, .closed]
  | .notIn => [.not, .isIn, .opened, .marker 1, .closed]
  | .between => [.between, .marker 1, .and, .marker 2]
  | .notBetween => [.not, .between, .marker 1, .and, .marker 2]
  | .any => [.quantifier .any, .opened, .marker 1, .closed]
  | .all => [.quantifier .all, .opened, .marker 1, .closed]
  | .invalid | .mongo _ => []

/-- `QString::arg`: the places of a format with this number are filled. -/
def arg (format : Text) (n : ℕ) (a : Text) : Text :=
  format.flatMap fun t => if t = .marker n then a else [t]

/-- `TSql::formatArg` with one argument. -/
def formatArg (op : ComparisonOperator) (a : Text) : Text := arg (formatHash op) 1 a

/-- `TSql::formatArg` with two arguments, which are filled in at once. -/
def formatArg2 (op : ComparisonOperator) (a1 a2 : Text) : Text :=
  (formatHash op).flatMap fun t =>
    if t = .marker 1 then a1 else if t = .marker 2 then a2 else [t]

/-- A formatted value as a text, which is empty if the value is. -/
def literal (v : String) : Text := if v = "" then [] else [.literals [v]]

/-- The values of a list joined by commas. -/
def joined (vs : List String) : Text :=
  if vs.filter (· ≠ "") = [] then [] else [.literals (vs.filter (· ≠ ""))]

def concat (s1 : Text) (op : LogicalOperator) (s2 : Text) : Text :=
  if op = .none ∨ (s2.isEmpty ∧ op ≠ .not) then s1
  else
    match op with
    | .and => s1 ++ [.and] ++ s2
    | .or => [.opened] ++ s1 ++ [.or] ++ s2 ++ [.closed]
    | .not => [.opened, .not] ++ s1 ++ [.closed]
    | .none => []

structure TCriteriaConverter where
  metaObject : QMetaObject
  driver : QSqlDriver
  tableAlias : String

namespace TCriteriaConverter

/-- `getPropertyName`; the empty name if there is no such property. -/
def propertyName (conv : TCriteriaConverter) (property : ℤ) : String :=
  if property < 0 then ""
  else
    let name := (conv.metaObject.property (conv.metaObject.propertyOffset + property)).name
    if name = "" then name
    else
      let name := escapeIdentifier name conv.driver
      if conv.tableAlias ≠ "" then conv.tableAlias ++ "." ++ name else name

def variantType (conv : TCriteriaConverter) (property : ℤ) : ℕ :=
  (conv.metaObject.property (conv.metaObject.propertyOffset + property)).type

/-- `criteriaToString` of an operator with two values. -/
def pairToString (conv : TCriteriaConverter) (propertyName : String) (varType : ℕ)
    (op : ComparisonOperator) (val1 val2 : QVariant) : Text :=
  let v1 := formatValue val1 varType conv.driver
  let v2 := formatValue val2 varType conv.driver
  if v1 ≠ "" ∧ v2 ≠ "" then
    match op with
    | .likeEscape | .notLikeEscape | .iLikeEscape | .notILikeEscape | .between | .notBetween =>
      [.opened, .identifier propertyName] ++ formatArg2 op (literal v1) (literal v2) ++ [.closed]
    | _ => []
  else []

/-- `criteriaToString` of an operator with ANY or ALL. -/
def quantifiedToString (conv : TCriteriaConverter) (propertyName : String) (varType : ℕ)
    (op1 op2 : ComparisonOperator) (val : QVariant) : Text :=
  if op1 ≠ .invalid ∧ op2 ≠ .invalid ∧ !val.isNull then
    match op2 with
    | .any | .all =>
      let str := joined (val.toList.map fun v => formatValue v varType conv.driver)
      let str := formatArg op2 str
      if str.isEmpty then [] else [.identifier propertyName] ++ formatArg op1 str
    | _ => []
  else []

/-- The `switch` of `criteriaToString`, over the operators with at most one value. -/
def switchToString (conv : TCriteriaConverter) (name : String) (varType : ℕ)
    (cri : TCriteriaData) : Text :=
  match cri.op1 with
  | .equal | .notEqual | .lessThan | .greaterThan | .lessEqual | .greaterEqual
  | .like | .notLike | .iLike | .notILike =>
    [.identifier name] ++ formatArg cri.op1 (literal (formatValue cri.val1 varType conv.driver))
  | .isIn | .notIn =>
    let str := joined (cri.val1.toList.map fun v => formatValue v varType conv.driver)
    if !str.isEmpty then [.identifier name] ++ formatArg cri.op1 str else []
  | .likeEscape | .notLikeEscape | .iLikeEscape | .notILikeEscape | .between | .notBetween =>
    match cri.val1.toList with
    | [v1, v2] => conv.pairToString name varType cri.op1 v1 v2
    | _ => []
  | .isNull | .isNotNull => [.identifier name] ++ formatHash cri.op1
  | .isEmpty | .isNotEmpty => formatArg cri.op1 [.identifier name]
  | _ => []

/-- The branch of `criteriaToString` for a `TCriteriaData`. -/
def dataToString (conv : TCriteriaConverter) (cri : TCriteriaData) : Text :=
  if cri.isEmpty then []
  else
    let varType := conv.variantType cri.property
    let name := conv.propertyName cri.property
    if name = "" then []
    else if cri.op1 ≠ .invalid ∧ cri.op2 ≠ .invalid ∧ !cri.val1.isNull then
      conv.quantifiedToString name varType cri.op1 cri.op2 cri.val1
    else if cri.op1 ≠ .invalid ∧ !cri.val1.isNull ∧ !cri.val2.isNull then
      conv.pairToString name varType cri.op1 cri.val1 cri.val2
    else if cri.op1 ≠ .invalid then conv.switchToString name varType cri
    else []

def criteriaToString (conv : TCriteriaConverter) : Operand → Text
  | .null => []
  | .data d => conv.dataToString d
  | .criteria cri1 cri2 logiOp =>
    if cri1.isNull then []
    else concat (conv.criteriaToString cri1) logiOp (conv.criteriaToString cri2)

/-- `toString`, the WHERE text of the criteria. -/
def toString (conv : TCriteriaConverter) (criteria : TCriteria) : Text :=
  conv.criteriaToString (TCriteria.fromValue criteria)

end TCriteriaConverter

@[simp] lemma concat_none (s1 s2 : Text) : concat s1 .none s2 = s1 := by simp [concat]

@[simp] lemma concat_nil (s1 : Text) {op : LogicalOperator} (h : op ≠ .not) :
    concat s1 op [] = s1 := by simp [concat, h]

lemma concat_and {s2 : Text} (s1 : Text) (h : s2 ≠ []) :
    concat s1 .and s2 = s1 ++ .and :: s2 := by simp [concat, h]

lemma concat_or {s2 : Text} (s1 : Text) (h : s2 ≠ []) :
    concat s1 .or s2 = Token.opened :: s1 ++ Token.or :: s2 ++ [Token.closed] := by
  simp [concat, h]

lemma concat_not (s1 s2 : Text) :
    concat s1 .not s2 = .opened :: (.not :: s1) ++ [.closed] := by simp [concat]

/-! ### The text that each call makes -/

namespace TCriteriaConverter

variable (conv : TCriteriaConverter)

lemma toString_of_isEmpty {b : Build} (h : b.isEmpty = true) :
    conv.toString b.tree = [] := by
  have hnull : b.tree.cri1.isNull = true := h
  simp [toString, TCriteria.fromValue, criteriaToString, hnull]

lemma toString_of_not_isEmpty {b : Build} (h : b.isEmpty = false) :
    conv.toString b.tree =
      concat (conv.criteriaToString b.tree.cri1) b.tree.logiOp
        (conv.criteriaToString b.tree.cri2) := by
  have hnull : b.tree.cri1.isNull = false := h
  simp [toString, TCriteria.fromValue, criteriaToString, hnull]

lemma toString_data (d : TCriteriaData) :
    conv.toString (Build.tree (.data d)) = conv.dataToString d := by
  rw [toString_of_not_isEmpty conv rfl]
  simp [Build.tree, TCriteria.ofData, criteriaToString]

lemma cri1_add (op : Junction) (b c : Build) :
    conv.criteriaToString (Build.tree (.add op b c)).cri1 =
      if b.isEmpty then conv.toString c.tree else conv.toString b.tree := by
  cases hempty : b.isEmpty with
  | true =>
    have hnull : b.tree.cri1.isNull = true := hempty
    simp [Build.tree, TCriteria.add, hnull, toString]
  | false =>
    have hnull : b.tree.cri1.isNull = false := hempty
    by_cases hnone : b.tree.logiOp = .none
    · simp [toString_of_not_isEmpty conv hempty, Build.tree, TCriteria.add, hnull, hnone]
    · simp [Build.tree, TCriteria.add, hnull, hnone, toString]

lemma cri1_addItself (op : Junction) (b : Build) :
    conv.criteriaToString (Build.tree (.addItself op b)).cri1 = conv.toString b.tree := by
  cases hempty : b.isEmpty with
  | true =>
    have hnull : b.tree.cri1.isNull = true := hempty
    simp [Build.tree, TCriteria.addItself, hnull, toString]
  | false =>
    have hnull : b.tree.cri1.isNull = false := hempty
    by_cases hnone : b.tree.logiOp = .none
    · simp [toString_of_not_isEmpty conv hempty, Build.tree, TCriteria.addItself, hnull, hnone]
    · simp [Build.tree, TCriteria.addItself, hnull, hnone, toString]

lemma toString_add (op : Junction) (b c : Build) :
    conv.toString (Build.tree (.add op b c)) =
      if b.isEmpty then conv.toString c.tree
      else concat (conv.toString b.tree) op.logicalOperator (conv.toString c.tree) := by
  rw [toString_of_not_isEmpty conv (Build.isEmpty_add op b c), cri1_add]
  cases hempty : b.isEmpty with
  | true =>
    have hnull : b.tree.cri1.isNull = true := hempty
    simp [Build.tree, TCriteria.add, hnull]
  | false =>
    have hnull : b.tree.cri1.isNull = false := hempty
    simp [Build.tree, TCriteria.add, hnull, toString]

lemma toString_addItself (op : Junction) {b : Build} (hempty : b.isEmpty = false)
    (hnone : b.tree.logiOp = .none) :
    conv.toString (Build.tree (.addItself op b)) =
      concat (conv.toString b.tree) op.logicalOperator (conv.toString b.tree) := by
  have hnull : b.tree.cri1.isNull = false := hempty
  have htext : conv.toString b.tree = conv.criteriaToString b.tree.cri1 := by
    rw [toString_of_not_isEmpty conv hempty, hnone, concat_none]
  have hsecond : conv.criteriaToString (Build.tree (.addItself op b)).cri2 =
      conv.toString b.tree := by
    have hne : op.logicalOperator ≠ .not := by cases op <;> decide
    simp [Build.tree, TCriteria.addItself, hnull, hnone, TCriteria.fromValue, criteriaToString,
      Build.cri2_of_none hnone, htext, hne]
  rw [toString_of_not_isEmpty conv (by simp), cri1_addItself, hsecond]
  simp [Build.tree, TCriteria.addItself, hnull]

lemma toString_not {b : Build} (h : b.isEmpty = false) :
    conv.toString (Build.tree (.not b)) =
      Token.opened :: (Token.not :: conv.criteriaToString b.tree.cri1) ++ [Token.closed] := by
  rw [toString_of_not_isEmpty conv (by simpa using h)]
  simp [Build.tree, TCriteria.negation, concat_not]

end TCriteriaConverter

end TreeFrog.CriteriaConverter
