import TreeFrog.CriteriaSound

/-!
`TSqlORMapper::removeAll` and `updateAll`: one statement for all rows that a criteria selects.
The WHERE clause is left out when the text of the criteria is empty. Which criteria leave no
text is read off their calls, for all trees and values; where some text is left, the database
refuses it or it selects rows of the criteria.
-/

namespace TreeFrog.BulkWrite

open SqlCondition SqlText Criteria MetaObject CriteriaConverter CriteriaMeaning CriteriaSound

structure TSqlORMapper where
  metaObject : QMetaObject
  driver : QSqlDriver
  tableName : String
  /-- The driver's `sqlStatement(DeleteStatement, tableName, QSqlRecord(), false)`. -/
  deleteStatement : Text

namespace TSqlORMapper

def converter (m : TSqlORMapper) : TCriteriaConverter := ⟨m.metaObject, m.driver, ""⟩

/-- A name as a text, which is empty if the name is. -/
def name (s : String) : Text := if s = "" then [] else [.identifier s]

/-- The statement of `removeAll`; `none` if it executes none. -/
def removeAll (m : TSqlORMapper) (cri : TCriteria) : Option Text :=
  let del := m.deleteStatement
  let whereText := m.converter.toString cri
  if del.isEmpty then none
  else some (if !whereText.isEmpty then del ++ [.whereClause] ++ whereText else del)

/-- `QVariant::DateTime`. -/
def dateTimeType : ℕ := 16

/-- The assignment of the current time to the first time stamp among the properties. -/
def stamp (m : TSqlORMapper) (now : QVariant) : Text :=
  let indexes := List.range' m.metaObject.propertyOffset
    (m.metaObject.propertyCount - m.metaObject.propertyOffset)
  let names := indexes.map fun i => (m.metaObject.property i).name
  match names.find? fun n => n.toLower = "updated_at" || n.toLower = "modified_at" with
  | none => []
  | some n =>
    name n ++ [.comparison .eq] ++ literal (formatValue now dateTimeType m.driver) ++ [.comma]

/-- The loop over the pairs of column and value. -/
def assignments (m : TSqlORMapper) : List (ℤ × QVariant) → Text
  | [] => []
  | (key, value) :: rest =>
    name (m.converter.propertyName key) ++ [.comparison .eq]
      ++ literal (formatValue value (m.converter.variantType key) m.driver)
      ++ if rest.isEmpty then [] else .comma :: m.assignments rest

/-- The statement of `updateAll` at the time `now`; `none` if it executes none. -/
def updateAll (m : TSqlORMapper) (cri : TCriteria) (values : List (ℤ × QVariant))
    (now : QVariant) : Option Text :=
  let upd := [.keyword "UPDATE"] ++ name m.tableName ++ [.keyword "SET"]
  let whereText := m.converter.toString cri
  if values.isEmpty then none
  else
    let upd := upd ++ m.stamp now ++ m.assignments values
    some (if !whereText.isEmpty then upd ++ [.whereClause] ++ whereText else upd)

end TSqlORMapper

/-- The condition of a statement; `none` without a WHERE clause. -/
def whereOf : Text → Option Text
  | [] => none
  | .whereClause :: ts => some ts
  | _ :: ts => whereOf ts

lemma whereOf_append {s t : Text} (h : .whereClause ∉ s) : whereOf (s ++ t) = whereOf t := by
  induction s with
  | nil => rfl
  | cons a s ih =>
    simp only [List.mem_cons, not_or] at h
    cases a with
    | whereClause => exact absurd rfl h.1
    | _ => exact ih h.2

/-! ### Criteria without a text -/

variable {conv : TCriteriaConverter}

/-- The comparison leaves no text: its property has no name, its operator takes other values,
or no value of it can be written. -/
def Silent (conv : TCriteriaConverter) (d : TCriteriaData) : Prop :=
  conv.propertyName d.property = "" ∨ d.op1 = .invalid ∨
    if d.op2 ≠ .invalid ∧ !d.val1.isNull then d.op2 ≠ .any ∧ d.op2 ≠ .all
    else if !d.val1.isNull ∧ !d.val2.isNull then
      d.op1 ∉ [.likeEscape, .notLikeEscape, .iLikeEscape, .notILikeEscape, .between, .notBetween] ∨
        lit conv d.property d.val1 = "" ∨ lit conv d.property d.val2 = ""
    else
      match d.op1 with
      | .isIn | .notIn => ∀ v ∈ d.val1.toList, lit conv d.property v = ""
      | .likeEscape | .notLikeEscape | .iLikeEscape | .notILikeEscape | .between | .notBetween =>
        ∀ v w, d.val1.toList = [v, w] → lit conv d.property v = "" ∨ lit conv d.property w = ""
      | .any | .all | .mongo _ => True
      | _ => False

/-- No comparison that went into the criteria leaves a text. -/
def LeavesNothing (conv : TCriteriaConverter) : Build → Prop
  | .empty => True
  | .data d => Silent conv d
  | .add _ b c => LeavesNothing conv b ∧ LeavesNothing conv c
  | .addItself _ b => LeavesNothing conv b
  | .not b => b.isEmpty

lemma joined_eq_nil {vs : List String} : joined vs = [] ↔ ∀ v ∈ vs, v = "" := by
  unfold joined
  split
  · rename_i h
    simpa using h
  · rename_i h
    simpa using h

lemma pairToString_eq_nil {op : ComparisonOperator} {v w : QVariant} {property : ℤ}
    {name : String} :
    conv.pairToString name (conv.variantType property) op v w = [] ↔
      op ∉ [.likeEscape, .notLikeEscape, .iLikeEscape, .notILikeEscape, .between, .notBetween] ∨
        lit conv property v = "" ∨ lit conv property w = "" := by
  by_cases hv : formatValue v (conv.variantType property) conv.driver = "" <;>
    by_cases hw : formatValue w (conv.variantType property) conv.driver = "" <;>
    cases op <;> simp [TCriteriaConverter.pairToString, lit, hv, hw]

lemma quantifiedToString_eq_nil {op1 op2 : ComparisonOperator} {val : QVariant} {varType : ℕ}
    {name : String} (h1 : op1 ≠ .invalid) (h2 : op2 ≠ .invalid) (hnull : val.isNull = false) :
    conv.quantifiedToString name varType op1 op2 val = [] ↔ op2 ≠ .any ∧ op2 ≠ .all := by
  cases op2 <;>
    simp [TCriteriaConverter.quantifiedToString, h1, hnull, formatArg, arg, formatHash] at h2 ⊢

lemma switchToString_eq_nil {d : TCriteriaData} {name : String} (h1 : d.op1 ≠ .invalid) :
    conv.switchToString name (conv.variantType d.property) d = [] ↔
      match d.op1 with
      | .isIn | .notIn => ∀ v ∈ d.val1.toList, lit conv d.property v = ""
      | .likeEscape | .notLikeEscape | .iLikeEscape | .notILikeEscape | .between | .notBetween =>
        ∀ v w, d.val1.toList = [v, w] → lit conv d.property v = "" ∨ lit conv d.property w = ""
      | .any | .all | .mongo _ => True
      | _ => False := by
  obtain ⟨property, op1, op2, val1, val2⟩ := d
  cases op1
  case invalid => exact absurd rfl h1
  case isIn | notIn =>
    have hjoined : joined (val1.toList.map fun v => formatValue v (conv.variantType property)
        conv.driver) = [] ↔ ∀ v ∈ val1.toList, lit conv property v = "" := by
      simp [joined_eq_nil, lit]
    simp only [← hjoined]
    by_cases hstr : joined (val1.toList.map fun v => formatValue v (conv.variantType property)
        conv.driver) = [] <;> simp [TCriteriaConverter.switchToString, hstr]
  case likeEscape | notLikeEscape | iLikeEscape | notILikeEscape | between | notBetween =>
    simp only [TCriteriaConverter.switchToString]
    split
    · rename_i v w hlist
      rw [pairToString_eq_nil]
      simp [hlist]
    · rename_i hlist
      simp only [true_iff]
      intro v w h
      exact absurd h (hlist v w)
  all_goals simp [TCriteriaConverter.switchToString, formatArg, arg, formatHash]

/-- **Which comparisons leave no text.** -/
theorem dataToString_eq_nil {d : TCriteriaData} : conv.dataToString d = [] ↔ Silent conv d := by
  obtain ⟨property, op1, op2, val1, val2⟩ := d
  by_cases hname : conv.propertyName property = ""
  · by_cases hempty : TCriteriaData.isEmpty ⟨property, op1, op2, val1, val2⟩ <;>
      simp [TCriteriaConverter.dataToString, Silent, hempty, hname]
  by_cases h1 : op1 = .invalid
  · simp [TCriteriaConverter.dataToString, Silent, TCriteriaData.isEmpty, h1]
  have hempty : TCriteriaData.isEmpty ⟨property, op1, op2, val1, val2⟩ = false := by
    simp [TCriteriaData.isEmpty, h1, not_lt.mp (nonneg_of_propertyName hname)]
  simp only [TCriteriaConverter.dataToString, Silent, hempty, hname, h1, ne_eq, false_or,
    not_false_eq_true, true_and, Bool.false_eq_true, if_false]
  by_cases h2 : op2 ≠ .invalid ∧ (!val1.isNull) = true
  · rw [if_pos h2, if_pos h2]
    exact quantifiedToString_eq_nil h1 h2.1 (by simpa using h2.2)
  rw [if_neg h2, if_neg h2]
  by_cases h3 : (!val1.isNull) = true ∧ (!val2.isNull) = true
  · rw [if_pos h3, if_pos h3]
    exact pairToString_eq_nil
  · rw [if_neg h3, if_neg h3]
    exact switchToString_eq_nil h1

lemma concat_eq_nil {s t : Text} (op : Junction) :
    concat s op.logicalOperator t = [] ↔ s = [] ∧ t = [] := by
  by_cases ht : t = []
  · have hop : op.logicalOperator ≠ .not := by cases op <;> decide
    simp [ht, concat_nil s hop]
  · cases op with
    | and => simp [show Junction.and.logicalOperator = .and from rfl, concat_and s ht, ht]
    | or => simp [show Junction.or.logicalOperator = .or from rfl, concat_or s ht, ht]

lemma leavesNothing_of_isEmpty (conv : TCriteriaConverter) {b : Build} (h : b.isEmpty = true) :
    LeavesNothing conv b := by
  cases b with
  | empty => trivial
  | data d => simp at h
  | add op b c => simp at h
  | addItself op b => simp at h
  | not b => exact h

lemma cri2_eq_nil {b : Build} (hempty : b.isEmpty = false) (h : conv.toString b.tree = []) :
    conv.criteriaToString b.tree.cri2 = [] := by
  rw [conv.toString_of_not_isEmpty hempty] at h
  cases hop : b.tree.logiOp with
  | none =>
    rw [Build.cri2_of_none hop]
    rfl
  | and =>
    rw [hop, show LogicalOperator.and = Junction.and.logicalOperator from rfl, concat_eq_nil] at h
    exact h.2
  | or =>
    rw [hop, show LogicalOperator.or = Junction.or.logicalOperator from rfl, concat_eq_nil] at h
    exact h.2
  | not =>
    rw [hop, concat_not] at h
    cases h

lemma addItself_eq_nil {op : Junction} {b : Build} :
    conv.toString (Build.tree (.addItself op b)) = [] ↔ conv.toString b.tree = [] := by
  rw [conv.toString_of_not_isEmpty (Build.isEmpty_addItself op b), conv.cri1_addItself]
  cases hempty : b.isEmpty with
  | true =>
    have hnull : b.tree.cri1.isNull = true := hempty
    simp [Build.tree, TCriteria.addItself, hnull]
  | false =>
    have hnull : b.tree.cri1.isNull = false := hempty
    have hop : (Build.tree (.addItself op b)).logiOp = op.logicalOperator := by
      simp [Build.tree, TCriteria.addItself, hnull]
    rw [hop, concat_eq_nil]
    refine ⟨And.left, fun h => ⟨h, ?_⟩⟩
    have hfirst := conv.cri1_addItself op b
    rw [h] at hfirst
    simp only [Build.tree, TCriteria.addItself, hnull, Bool.false_eq_true, if_false,
      TCriteria.fromValue] at hfirst
    simp only [Build.tree, TCriteria.addItself, hnull, Bool.false_eq_true, if_false,
      TCriteria.fromValue, TCriteriaConverter.criteriaToString]
    rw [hfirst, concat_eq_nil op |>.mpr ⟨rfl, cri2_eq_nil hempty h⟩]
    simp

/-- **Which criteria leave no text.** -/
theorem toString_eq_nil (b : Build) : conv.toString b.tree = [] ↔ LeavesNothing conv b := by
  induction b with
  | empty => exact ⟨fun _ => trivial, fun _ => rfl⟩
  | data d => rw [conv.toString_data]; exact dataToString_eq_nil
  | add op b c ihb ihc =>
    rw [conv.toString_add]
    cases hempty : b.isEmpty with
    | true =>
      have hb := leavesNothing_of_isEmpty conv hempty
      simp [ihc, LeavesNothing, hb]
    | false => simp [concat_eq_nil, ihb, ihc, LeavesNothing]
  | addItself op b ih => rw [addItself_eq_nil, ih]; rfl
  | not b ih =>
    cases hempty : b.isEmpty with
    | true =>
      have htext : conv.toString (Build.tree (.not b)) = [] :=
        conv.toString_of_isEmpty (b := .not b) (by simpa using hempty)
      simp [htext, LeavesNothing, hempty]
    | false => simp [conv.toString_not hempty, LeavesNothing, hempty]

/-! ### The statements -/

variable {m : TSqlORMapper}

lemma not_whereClause_name (n : String) : .whereClause ∉ TSqlORMapper.name n := by
  unfold TSqlORMapper.name
  split <;> simp

lemma not_whereClause_literal (v : String) : .whereClause ∉ literal v := by
  unfold literal
  split <;> simp

lemma not_whereClause_stamp (now : QVariant) : .whereClause ∉ m.stamp now := by
  unfold TSqlORMapper.stamp
  dsimp only
  split
  · simp
  · simp [not_whereClause_name, not_whereClause_literal]

lemma not_whereClause_assignments (values : List (ℤ × QVariant)) :
    .whereClause ∉ m.assignments values := by
  induction values with
  | nil => simp [TSqlORMapper.assignments]
  | cons p rest ih =>
    obtain ⟨key, value⟩ := p
    simp only [TSqlORMapper.assignments]
    split <;> simp [not_whereClause_name, not_whereClause_literal, ih]

/-- The statements that `removeAll` and `updateAll` may execute for the criteria. -/
inductive Executes (m : TSqlORMapper) (cri : TCriteria) : Text → Prop where
  | removeAll {statement : Text} (h : m.removeAll cri = some statement) : Executes m cri statement
  | updateAll {statement : Text} (values : List (ℤ × QVariant)) (now : QVariant)
    (h : m.updateAll cri values now = some statement) : Executes m cri statement

lemma whereOf_of_executes (hdel : .whereClause ∉ m.deleteStatement) {cri : TCriteria}
    {statement : Text} (h : Executes m cri statement) :
    whereOf statement =
      if (m.converter.toString cri).isEmpty then none else some (m.converter.toString cri) := by
  have hwhere : ∀ t : Text, whereOf ([.whereClause] ++ t) = some t := fun t => rfl
  have key : ∀ head : Text, .whereClause ∉ head →
      whereOf (if !(m.converter.toString cri).isEmpty then
          head ++ [.whereClause] ++ m.converter.toString cri else head) =
        if (m.converter.toString cri).isEmpty then none else some (m.converter.toString cri) := by
    intro head hhead
    cases hempty : (m.converter.toString cri).isEmpty with
    | true => simpa [whereOf] using whereOf_append (t := []) hhead
    | false => simp [whereOf_append hhead, whereOf]
  cases h with
  | removeAll h =>
    simp only [TSqlORMapper.removeAll] at h
    split at h
    · cases h
    · obtain rfl := Option.some.inj h
      exact key _ hdel
  | updateAll values now h =>
    simp only [TSqlORMapper.updateAll] at h
    split at h
    · cases h
    · obtain rfl := Option.some.inj h
      refine key _ ?_
      simp [not_whereClause_name, not_whereClause_stamp, not_whereClause_assignments]

/-- The statement has a WHERE clause, and the database refuses it or each row on which it is
true satisfies the criteria. -/
def Restricted (conv : TCriteriaConverter) (b : Build) (statement : Text) : Prop :=
  ∃ cond, whereOf statement = some cond ∧
    ∀ (Row : Type) (holds : Predicate → Row → Truth) (selected : Row → Truth),
      (pieces cond).bind (evaluate holds) = some selected →
      ∃ x, denote conv holds b = some x ∧ ∀ row, selected row = .yes → x row = .yes

/-- Every statement executed for the criteria is restricted to its rows. -/
def Guarded (m : TSqlORMapper) (b : Build) : Prop :=
  ∀ statement, Executes m b.tree statement → Restricted m.converter b statement

lemma exists_executes (m : TSqlORMapper) (cri : TCriteria) : ∃ s, Executes m cri s := by
  cases h : m.updateAll cri [(0, .invalid)] .invalid with
  | none => simp [TSqlORMapper.updateAll] at h
  | some s => exact ⟨s, .updateAll _ _ h⟩

lemma leaves_of_guarded (hdel : .whereClause ∉ m.deleteStatement) {b : Build}
    (h : Guarded m b) : ¬ LeavesNothing m.converter b := by
  intro hnothing
  obtain ⟨statement, hexec⟩ := exists_executes m b.tree
  obtain ⟨cond, hcond, -⟩ := h statement hexec
  rw [whereOf_of_executes hdel hexec, (toString_eq_nil b).mpr hnothing] at hcond
  cases hcond

lemma guarded_of_readable (hdel : .whereClause ∉ m.deleteStatement) {b : Build}
    (hreadable : Readable m.converter b) (hsomething : ¬ LeavesNothing m.converter b) :
    Guarded m b := by
  intro statement hexec
  have hne : (m.converter.toString b.tree).isEmpty = false := by
    simpa [toString_eq_nil] using hsomething
  refine ⟨m.converter.toString b.tree, by rw [whereOf_of_executes hdel hexec, hne]; rfl, ?_⟩
  intro Row holds selected hselected
  have hreads := (reads_of_readable holds hreadable).1
  cases hrefused : refused b with
  | true =>
    rw [(hreads.refusal hrefused).evaluate] at hselected
    cases hselected
  | false =>
    have hblank : blank b = false := by
      by_contra hblank
      simp [(hreads.blank (by simpa using hblank)).1] at hne
    obtain ⟨x, hx, ⟨ps, hspell, hterm⟩, -⟩ := hreads.term hblank hrefused
    rw [hspell.pieces, Option.bind_some, hterm.evaluate] at hselected
    obtain rfl := Option.some.inj hselected
    exact ⟨x, hx, fun row h => h⟩

/-- **A bulk write is restricted to the rows of its criteria** only if the criteria leaves a
text, and always if it does and is readable. -/
theorem guarded_leaves (m : TSqlORMapper) (hdel : .whereClause ∉ m.deleteStatement)
    (b : Build) :
    (Guarded m b → ¬ LeavesNothing m.converter b) ∧
      (Readable m.converter b → ¬ LeavesNothing m.converter b → Guarded m b) :=
  ⟨leaves_of_guarded hdel, guarded_of_readable hdel⟩

def peopleMapper : TSqlORMapper where
  metaObject := people.metaObject
  driver := quoting
  tableName := "people"
  deleteStatement := [.keyword "DELETE", .keyword "FROM", .identifier "people"]

/-- `removeAll(TCriteria(Id, 1) && TCriteria(Name, TSql::IsNotEmpty))`. -/
theorem guarded_leaves_people : Guarded peopleMapper (.add .and (idIs "1") nameNotEmpty) :=
  (guarded_leaves peopleMapper (by decide) _).2
    ⟨renders_idIs (by decide +kernel), renders_nameNotEmpty⟩
    fun h => absurd ((toString_eq_nil _).mpr h) (by decide +kernel)

lemma not_guarded_of_row (hdel : .whereClause ∉ m.deleteStatement) {b : Build}
    (truth : Predicate → Truth)
    (htext : ((pieces (m.converter.toString b.tree)).bind
      (evaluate fun p (_ : Unit) => truth p)).map (· ()) = some .yes)
    (hmeaning : (denote m.converter (fun p (_ : Unit) => truth p) b).map (· ()) ≠ some .yes) :
    ¬ Guarded m b := by
  intro hguarded
  obtain ⟨statement, hexec⟩ := exists_executes m b.tree
  obtain ⟨cond, hcond, hrows⟩ := hguarded statement hexec
  rw [whereOf_of_executes hdel hexec] at hcond
  obtain rfl : m.converter.toString b.tree = cond :=
    Option.some.inj (Option.ite_none_left_eq_some.mp hcond).2
  obtain ⟨selected, hselected, hyes⟩ := Option.map_eq_some_iff.mp htext
  obtain ⟨x, hx, hrow⟩ := hrows Unit _ selected hselected
  exact hmeaning (by rw [hx, Option.map_some, hrow () hyes])

/-- Without a WHERE clause every row is deleted: the criteria is a condition over an empty
list, or an empty criteria wrapped in another one. The negation of a disjunction deletes rows
that satisfy its second operand. -/
theorem not_guarded_people :
    (idInNothing.isEmpty = false ∧ ¬ Guarded peopleMapper idInNothing) ∧
      ((Build.add .and .empty .empty).isEmpty = false ∧
        ¬ Guarded peopleMapper (.add .and .empty .empty)) ∧
      ¬ Guarded peopleMapper (.not (.add .or (idIs "1") (nameIs "x"))) := by
  have hnothing : ∀ b : Build, peopleMapper.converter.toString b.tree = [] →
      ¬ Guarded peopleMapper b :=
    fun b h hguarded => leaves_of_guarded (by decide) hguarded ((toString_eq_nil b).mp h)
  let onlyName : Predicate → Truth := fun p =>
    if p = .compare "\"name\"" .eq "'x'" then .yes else .no
  exact ⟨⟨rfl, hnothing _ (by decide +kernel)⟩, ⟨rfl, hnothing _ rfl⟩,
    not_guarded_of_row (by decide) onlyName (by decide +kernel) (by decide +kernel)⟩

end TreeFrog.BulkWrite
