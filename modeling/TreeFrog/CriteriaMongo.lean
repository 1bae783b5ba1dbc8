import TreeFrog.MetaObject
import TreeFrog.MongoQuery

/-!
`TCriteriaMongoConverter`: the query document of a criteria, and what it selects.

The document has no place for a negation, and a criteria of empty ones is a document without
fields, which selects everything.
-/

namespace TreeFrog.CriteriaMongo

open TreeFrog.Criteria TreeFrog.MetaObject TreeFrog.MongoQuery TreeFrog.SortedMap

/-- The class `T` of the converter. -/
structure TCriteriaMongoConverter where
  metaObject : QMetaObject

namespace TCriteriaMongoConverter

variable (conv : TCriteriaMongoConverter)

def propertyName (property : ℤ) : String :=
  (conv.metaObject.property (conv.metaObject.propertyOffset + property)).name

/-- The `switch` over the operators; the numbers are those of `TMongo`. -/
def condition (cri : TCriteriaData) : Option Condition :=
  match cri.op1 with
  | .equal => some (.value cri.val1)
  | .notEqual => some (.operator "$ne" cri.val1)
  | .lessThan => some (.operator "$lt" cri.val1)
  | .greaterThan => some (.operator "$gt" cri.val1)
  | .lessEqual => some (.operator "$lte" cri.val1)
  | .greaterEqual => some (.operator "$gte" cri.val1)
  | .mongo 100 => some (.operator "$exists" (boolean true))
  | .mongo 101 => some (.operator "$exists" (boolean false))
  | .mongo 102 => some (.operator "$all" cri.val1)
  | .mongo 103 => some (.operator "$in" cri.val1)
  | .mongo 104 => some (.operator "$nin" cri.val1)
  | .mongo 105 => some (.operator "$mod" cri.val1)
  | .mongo 106 => some (.operator "$size" cri.val1)
  | .mongo 107 => some (.operator "$type" cri.val1)
  | _ => none

def dataToVariantMap (cri : TCriteriaData) : QVariantMap :=
  if cri.isEmpty || conv.propertyName cri.property = "" then []
  else match condition cri with
    | some c => [(conv.propertyName cri.property, c)]
    | none => []

def join (v1 : QVariantMap) (op : LogicalOperator) (v2 : QVariantMap) : QVariantMap :=
  if op = .none || v2.isEmpty then v1
  else match op with
    | .and => unite v1 v2
    | .or => [("$or", .documents [v1, v2])]
    | _ => []

def criteriaToVariantMap : Operand → QVariantMap
  | .null => []
  | .criteria cri1 cri2 logiOp =>
    if cri1.isNull then []
    else join (criteriaToVariantMap cri1) logiOp (criteriaToVariantMap cri2)
  | .data cri => conv.dataToVariantMap cri

def toVariantMap (criteria : TCriteria) : QVariantMap :=
  conv.criteriaToVariantMap (TCriteria.fromValue criteria)

end TCriteriaMongoConverter

open TCriteriaMongoConverter

/-! ### What a criteria means -/

/-- The documented comparison, with the value that counts for it. -/
def comparison (d : TCriteriaData) : Option (Test × QVariant) :=
  match d.op1 with
  | .equal => some (.equal, d.val1)
  | .notEqual => some (.notEqual, d.val1)
  | .lessThan => some (.lessThan, d.val1)
  | .greaterThan => some (.greaterThan, d.val1)
  | .lessEqual => some (.lessEqual, d.val1)
  | .greaterEqual => some (.greaterEqual, d.val1)
  | .mongo 100 => some (.exists_, .invalid)
  | .mongo 101 => some (.notExists, .invalid)
  | .mongo 102 => some (.all, d.val1)
  | .mongo 103 => some (.isIn, d.val1)
  | .mongo 104 => some (.notIn, d.val1)
  | .mongo 105 => some (.mod, d.val1)
  | .mongo 106 => some (.size, d.val1)
  | .mongo 107 => some (.type, d.val1)
  | _ => none

def Junction.apply (op : Junction) (x y : Bool) : Bool :=
  match op with
  | .and => x && y
  | .or => x || y

variable (conv : TCriteriaMongoConverter)

/-- The boolean expression that the calls describe; an empty criteria counts for nothing. -/
def denote (meaning : Meaning) : Build → Bool
  | .empty => true
  | .data d =>
    match comparison d with
    | some (test, v) => meaning (conv.propertyName d.property) test v
    | none => true
  | .add op b c =>
    if b.neutral then denote meaning c
    else if c.neutral then denote meaning b
    else Junction.apply op (denote meaning b) (denote meaning c)
  | .addItself op b => Junction.apply op (denote meaning b) (denote meaning b)
  | .not b => b.neutral || !denote meaning b

/-- Every comparison is one of MongoDB, of a property. -/
def Comparable : Build → Prop
  | .empty => True
  | .data d => d.isEmpty = false ∧ conv.propertyName d.property ≠ "" ∧ comparison d ≠ none
  | .add _ b c => Comparable b ∧ Comparable c
  | .addItself _ b => Comparable b
  | .not b => Comparable b

/-- Whatever the comparisons mean, the query selects what the criteria says. -/
def Faithful (b : Build) : Prop :=
  ∀ meaning, selects meaning (conv.toVariantMap b.tree) = denote conv meaning b

/-- The criteria that the calls build on the way, this one included. -/
def parts : Build → List Build
  | .empty => [.empty]
  | .data d => [.data d]
  | .add op b c => .add op b c :: (parts b ++ parts c)
  | .addItself op b => .addItself op b :: parts b
  | .not b => .not b :: parts b

/-- The last connective, with its operands. -/
def last : Build → Option (Junction × Build × Build)
  | .add op b c => if b.isEmpty then none else some (op, b, c)
  | .addItself op b => if b.isEmpty then none else some (op, b, b)
  | _ => none

/-- Joining the criteria `f op' s` once more with its second operand by `op` changes nothing: `op`
is its own connective, or its second operand is empty or all that it says. -/
def Absorbs (op op' : Junction) (f s : Build) : Prop :=
  op' = op ∨ s.neutral = true ∨
    ∀ meaning, Junction.apply op' (denote conv meaning f) (denote conv meaning s) =
      denote conv meaning s

/-- No operand is lost and nothing is negated: `operator!` is called on criteria of empty ones only;
no such criteria, but a null one, is the left operand of a disjunction; and adding a criteria to
itself, which copies its second operand, changes nothing. -/
def Sound : Build → Prop
  | .empty | .data _ => True
  | .add op b c =>
    Sound b ∧ Sound c ∧ ¬ (op = .or ∧ b.isEmpty = false ∧ b.neutral = true ∧ c.neutral = false)
  | .addItself op b =>
    Sound b ∧ ∀ op' f s, last b = some (op', f, s) → Absorbs conv op op' f s
  | .not b => Sound b ∧ b.neutral = true

/-! ### The documents of the calls -/

variable {conv} {meaning : Meaning} {b c : Build}

lemma join_nil (v1 : QVariantMap) (op : LogicalOperator) : join v1 op [] = v1 := by
  unfold join
  rw [List.isEmpty_nil, Bool.or_true, if_pos rfl]

lemma join_none (v1 v2 : QVariantMap) : join v1 .none v2 = v1 := by
  unfold join
  rw [decide_eq_true rfl, Bool.true_or, if_pos rfl]

lemma join_of_ne_nil {v2 : QVariantMap} (h : v2 ≠ []) (v1 : QVariantMap) :
    join v1 .and v2 = unite v1 v2 ∧ join v1 .or v2 = [("$or", .documents [v1, v2])] ∧
      join v1 .not v2 = [] := by
  have hne : v2.isEmpty = false := by simpa using h
  unfold join
  rw [hne]
  exact ⟨rfl, rfl, rfl⟩

lemma join_ne_nil {v2 : QVariantMap} (h : v2 ≠ []) (v1 : QVariantMap) (op : Junction) :
    join v1 op.logicalOperator v2 ≠ [] := by
  obtain ⟨hand, hor, -⟩ := join_of_ne_nil h v1
  cases op with
  | and => exact hand ▸ unite_ne_nil h
  | or => exact hor ▸ List.cons_ne_nil _ _

lemma selects_join {v2 : QVariantMap} (h : v2 ≠ []) (v1 : QVariantMap) (op : Junction) :
    selects meaning (join v1 op.logicalOperator v2) =
      Junction.apply op (selects meaning v1) (selects meaning v2) := by
  obtain ⟨hand, hor, -⟩ := join_of_ne_nil h v1
  cases op with
  | and => exact hand ▸ selects_unite v1 v2
  | or => exact hor ▸ selects_or v1 v2

lemma toVariantMap_eq {t : TCriteria} (h : t.isEmpty = false) : conv.toVariantMap t =
    join (conv.criteriaToVariantMap t.cri1) t.logiOp (conv.criteriaToVariantMap t.cri2) := by
  rw [TCriteria.isEmpty] at h
  rw [toVariantMap, TCriteria.fromValue, criteriaToVariantMap, h, if_neg Bool.false_ne_true]

lemma toVariantMap_isEmpty {t : TCriteria} (h : t.isEmpty = true) : conv.toVariantMap t = [] := by
  rw [TCriteria.isEmpty] at h
  rw [toVariantMap, TCriteria.fromValue, criteriaToVariantMap, if_pos h]

variable (conv) in
lemma first_operand {t : TCriteria} (h : t.isEmpty = false) :
    conv.criteriaToVariantMap (if t.logiOp ≠ .none then TCriteria.fromValue t else t.cri1) =
      conv.toVariantMap t := by
  split_ifs with hnone
  · rfl
  · rw [toVariantMap_eq h, not_not.mp hnone, join_none]

variable (conv) in
lemma toVariantMap_add_isEmpty (op : Junction) (h : b.isEmpty = true) :
    conv.toVariantMap (Build.tree (.add op b c)) = conv.toVariantMap c.tree := by
  rw [toVariantMap_eq (Build.isEmpty_add op b c), Build.tree, TCriteria.add]
  rw [Build.isEmpty, TCriteria.isEmpty] at h
  rw [if_pos h, join_none]
  rfl

variable (conv) in
lemma toVariantMap_add (op : Junction) (h : b.isEmpty = false) :
    conv.toVariantMap (Build.tree (.add op b c)) =
      join (conv.toVariantMap b.tree) op.logicalOperator (conv.toVariantMap c.tree) := by
  rw [toVariantMap_eq (Build.isEmpty_add op b c), ← first_operand conv h, Build.tree, TCriteria.add]
  rw [Build.isEmpty, TCriteria.isEmpty] at h
  rw [h, if_neg Bool.false_ne_true]
  rfl

/-- The document of what `addItself` copies into the second operand. -/
def copied (conv : TCriteriaMongoConverter) (op : Junction) (b : Build) : QVariantMap :=
  join (conv.toVariantMap b.tree) op.logicalOperator (conv.criteriaToVariantMap b.tree.cri2)

lemma first_not_null {t : TCriteria} (h : t.isEmpty = false) :
    (if t.logiOp ≠ .none then TCriteria.fromValue t else t.cri1).isNull = false := by
  split_ifs
  · rfl
  · exact h

lemma cri2_addItself (op : Junction) (h : b.isEmpty = false) :
    conv.criteriaToVariantMap (Build.tree (.addItself op b)).cri2 = copied conv op b := by
  have hfirst := first_operand conv h
  have hnull : b.tree.cri1.isNull = false := h
  rw [Build.tree, TCriteria.addItself, hnull, if_neg Bool.false_ne_true, copied, ← hfirst]
  exact toVariantMap_eq (first_not_null h)

variable (conv) in
lemma toVariantMap_addItself (op : Junction) (h : b.isEmpty = false) :
    conv.toVariantMap (Build.tree (.addItself op b)) =
      join (conv.toVariantMap b.tree) op.logicalOperator (copied conv op b) := by
  have hnull : b.tree.cri1.isNull = false := h
  rw [toVariantMap_eq (Build.isEmpty_addItself op b), cri2_addItself op h, ← first_operand conv h,
    Build.tree, TCriteria.addItself, hnull, if_neg Bool.false_ne_true]

lemma toVariantMap_not (h : b.isEmpty = false) : conv.toVariantMap (Build.tree (.not b)) =
    join (conv.criteriaToVariantMap b.tree.cri1) .not (conv.criteriaToVariantMap b.tree.cri2) :=
  toVariantMap_eq (t := b.tree.negation) h

/-! ### What the documents select -/

/-- What is known of a sound criteria. -/
structure Reads (conv : TCriteriaMongoConverter) (b : Build) : Prop where
  blank : conv.toVariantMap b.tree = [] ↔ b.neutral = true
  faithful : Faithful conv b
  single : last b = none → conv.criteriaToVariantMap b.tree.cri2 = []
  second : ∀ op f s, last b = some (op, f, s) →
    (conv.criteriaToVariantMap b.tree.cri2 = [] ↔ s.neutral = true) ∧
      ∀ meaning, selects meaning (conv.criteriaToVariantMap b.tree.cri2) = denote conv meaning s

lemma denote_neutral (h : b.neutral = true) : denote conv meaning b = true := by
  induction b with
  | empty => rfl
  | data d => cases h
  | add op b c _ ihc =>
    rw [Build.neutral, Bool.and_eq_true] at h
    rw [denote, if_pos h.1, ihc h.2]
  | addItself op b ih =>
    rw [denote, ih h]
    cases op <;> rfl
  | not b _ => exact Bool.or_eq_true_iff.mpr (.inl h)

lemma reads_empty : Reads conv .empty where
  blank := ⟨fun _ => rfl, fun _ => rfl⟩
  faithful _ := rfl
  single _ := rfl
  second _ _ _ h := by cases h

lemma reading_condition (meaning : Meaning) {d : TCriteriaData} {test : Test} {v : QVariant}
    (h : comparison d = some (test, v)) :
    ∃ c, condition d = some c ∧ ∀ key, c.holds meaning key = meaning key test v := by
  unfold comparison at h
  unfold condition
  split at h
  case h_15 => cases h
  all_goals
    obtain ⟨rfl, rfl⟩ := Prod.mk.inj (Option.some.inj h)
    exact ⟨_, rfl, fun _ => rfl⟩

lemma condition_of_none {d : TCriteriaData} (h : comparison d = none) : condition d = none := by
  unfold comparison at h
  unfold condition
  split at h
  case h_15 => rfl
  all_goals cases h

lemma reads_data {d : TCriteriaData} (h : Comparable conv (.data d)) : Reads conv (.data d) := by
  obtain ⟨hempty, hname, hcomparison⟩ := h
  obtain ⟨⟨test, v⟩, htest⟩ := Option.ne_none_iff_exists'.mp hcomparison
  have hmap : ∃ c, conv.toVariantMap (Build.data d).tree = [(conv.propertyName d.property, c)] ∧
      ∀ meaning key, c.holds meaning key = meaning key test v := by
    obtain ⟨c, hc, hholds⟩ := reading_condition (fun _ _ _ => true) htest
    refine ⟨c, ?_, fun meaning key => ?_⟩
    · rw [toVariantMap_eq (Build.isEmpty_data d)]
      change join (conv.dataToVariantMap d) .none _ = _
      rw [join_none, dataToVariantMap, hempty, decide_eq_false hname, hc]
      rfl
    · obtain ⟨c', hc', hholds'⟩ := reading_condition meaning htest
      rw [Option.some.inj (hc.symm.trans hc'), hholds']
  obtain ⟨c, hmap, hholds⟩ := hmap
  refine ⟨⟨fun hnil => ?_, fun h => by cases h⟩, fun meaning => ?_, fun _ => rfl, ?_⟩
  · rw [hmap] at hnil
    cases hnil
  · rw [hmap, selects, selects, Bool.and_true, hholds, denote, htest]
  · intro _ _ _ h
    cases h

lemma reads_add {op : Junction} (hb : Reads conv b) (hc : Reads conv c)
    (hor : ¬ (op = .or ∧ b.isEmpty = false ∧ b.neutral = true ∧ c.neutral = false)) :
    Reads conv (.add op b c) := by
  cases hempty : b.isEmpty with
  | true =>
    have hneutral := Build.neutral_of_isEmpty hempty
    have hmap := toVariantMap_add_isEmpty conv (c := c) op hempty
    have hlast : last (.add op b c) = none := if_pos hempty
    refine ⟨?_, fun meaning => ?_, fun _ => ?_, fun _ _ _ h => (by rw [hlast] at h; cases h)⟩
    · rw [hmap, hc.blank, Build.neutral, hneutral, Bool.true_and]
    · rw [hmap, hc.faithful, denote, if_pos hneutral]
    · have hnull : b.tree.cri1.isNull = true := hempty
      rw [Build.tree, TCriteria.add, if_pos hnull]
      rfl
  | false =>
    have hmap := toVariantMap_add conv (c := c) op hempty
    have hnull : b.tree.cri1.isNull = false := hempty
    have hcri2 : conv.criteriaToVariantMap (Build.tree (.add op b c)).cri2 =
        conv.toVariantMap c.tree := by
      rw [Build.tree, TCriteria.add, hnull, if_neg Bool.false_ne_true]
      rfl
    have hlast : last (.add op b c) = some (op, b, c) := by
      rw [last, hempty, if_neg Bool.false_ne_true]
    refine ⟨?_, fun meaning => ?_, fun h => (by rw [hlast] at h; cases h), fun _ _ _ h => ?_⟩
    · rw [hmap, Build.neutral, Bool.and_eq_true, ← hb.blank, ← hc.blank]
      constructor
      · intro hnil
        by_contra hne
        by_cases hcnil : conv.toVariantMap c.tree = []
        · rw [hcnil, join_nil] at hnil
          exact hne ⟨hnil, hcnil⟩
        · exact join_ne_nil hcnil _ op hnil
      · rintro ⟨hbnil, hcnil⟩
        rw [hbnil, hcnil, join_nil]
    · rw [hmap]
      by_cases hcneutral : c.neutral = true
      · rw [hc.blank.mpr hcneutral, join_nil, hb.faithful, denote, if_pos hcneutral]
        split_ifs with hbneutral
        · rw [denote_neutral hbneutral, denote_neutral hcneutral]
        · rfl
      · rw [selects_join (fun hnil => hcneutral (hc.blank.mp hnil)), hb.faithful, hc.faithful,
          denote, if_neg hcneutral]
        rw [Bool.not_eq_true] at hcneutral
        split_ifs with hbneutral
        · -- a criteria of empty ones is no left operand of a disjunction
          cases op with
          | and => rw [denote_neutral hbneutral, Junction.apply, Bool.true_and]
          | or => exact absurd ⟨rfl, hempty, hbneutral, hcneutral⟩ hor
        · rfl
    · obtain ⟨rfl, rfl, rfl⟩ : op = _ ∧ b = _ ∧ c = _ := by
        simpa [hlast] using h
      rw [hcri2]
      exact ⟨hc.blank, hc.faithful⟩

/-! ### A criteria added to itself -/

@[simp] lemma apply_self (op : Junction) (x : Bool) : Junction.apply op x x = x := by
  cases op <;> cases x <;> rfl

lemma apply_apply (op : Junction) (x y : Bool) :
    Junction.apply op x (Junction.apply op x y) = Junction.apply op x y := by
  cases op <;> cases x <;> rfl

variable (conv) in
lemma last_eq {op : Junction} {f s : Build} (h : last b = some (op, f, s)) :
    b.isEmpty = false ∧ b.neutral = (f.neutral && s.neutral) ∧
      ∀ meaning, denote conv meaning b =
        if f.neutral then denote conv meaning s
        else if s.neutral then denote conv meaning f
        else Junction.apply op (denote conv meaning f) (denote conv meaning s) := by
  cases b with
  | add op' b c =>
    rw [last] at h
    split_ifs at h
    obtain ⟨rfl, rfl, rfl⟩ : op' = op ∧ b = f ∧ c = s := by simpa using h
    exact ⟨Build.isEmpty_add _ _ _, rfl, fun _ => rfl⟩
  | addItself op' b =>
    rw [last] at h
    split_ifs at h
    obtain ⟨rfl, rfl, rfl⟩ : op' = op ∧ b = f ∧ b = s := by simpa using h
    refine ⟨Build.isEmpty_addItself _ _, (Bool.and_self _).symm, fun meaning => ?_⟩
    rw [denote, apply_self]
    split_ifs <;> rfl
  | empty | data _ | not _ => cases h

lemma apply_second {op op' : Junction} (h : op' ≠ op) (x y : Bool) :
    Junction.apply op (Junction.apply op' x y) y = y := by
  cases op <;> cases op' <;> first | exact absurd rfl h | (cases x <;> cases y <;> rfl)

lemma apply_of_absorbs {op op' : Junction} {f s : Build} (hlast : last b = some (op', f, s))
    (hs : s.neutral = false) (h : Absorbs conv op op' f s) (meaning : Meaning) :
    Junction.apply op (denote conv meaning b) (denote conv meaning s) = denote conv meaning b := by
  obtain ⟨-, -, hdenote⟩ := last_eq conv hlast
  rw [hdenote, hs, if_neg Bool.false_ne_true]
  split_ifs with hf
  · exact apply_self op _
  · rcases h with rfl | hneutral | h
    · cases op' <;> cases denote conv meaning f <;> cases denote conv meaning s <;> rfl
    · rw [hs] at hneutral
      cases hneutral
    · rw [h, apply_self]

lemma copied_cases (hb : Reads conv b) (op : Junction) :
    conv.criteriaToVariantMap b.tree.cri2 = [] ∨
      ∃ op' f s, last b = some (op', f, s) ∧ s.neutral = false ∧ b.neutral = false ∧
        copied conv op b ≠ [] ∧ ∀ meaning, selects meaning (copied conv op b) =
          Junction.apply op (denote conv meaning b) (denote conv meaning s) := by
  by_cases hnil : conv.criteriaToVariantMap b.tree.cri2 = []
  · exact .inl hnil
  · right
    cases hlast : last b with
    | none => exact absurd (hb.single hlast) hnil
    | some l =>
      obtain ⟨op', f, s⟩ := l
      obtain ⟨hblank, hselects⟩ := hb.second op' f s hlast
      have hs : s.neutral = false := by rw [← Bool.not_eq_true, ← hblank]; exact hnil
      refine ⟨op', f, s, rfl, hs, ?_, join_ne_nil hnil _ op, fun meaning => ?_⟩
      · rw [(last_eq conv hlast).2.1, hs, Bool.and_false]
      · rw [copied, selects_join hnil, hb.faithful, hselects]

lemma reads_addItself {op : Junction} (hb : Reads conv b)
    (habsorbs : ∀ op' f s, last b = some (op', f, s) → Absorbs conv op op' f s) :
    Reads conv (.addItself op b) := by
  cases hempty : b.isEmpty with
  | true =>
    -- an empty criteria stays as it is
    have hneutral := Build.neutral_of_isEmpty hempty
    have hnull : b.tree.cri1.isNull = true := hempty
    have hmap : conv.toVariantMap (Build.tree (.addItself op b)) = [] := by
      rw [toVariantMap_eq (Build.isEmpty_addItself op b), Build.tree, TCriteria.addItself,
        if_pos hnull, join_none]
      exact toVariantMap_isEmpty hempty
    have hlast : last (.addItself op b) = none := if_pos hempty
    refine ⟨?_, fun meaning => ?_, fun _ => ?_, fun _ _ _ h => (by rw [hlast] at h; cases h)⟩
    · exact ⟨fun _ => hneutral, fun _ => hmap⟩
    · rw [hmap, denote, apply_self, denote_neutral hneutral]
      rfl
    · rw [Build.tree, TCriteria.addItself, if_pos hnull]
      rfl
  | false =>
    -- the second operand is the copy, which joins the criteria with its own second operand
    have hcopy : (copied conv op b = [] ↔ b.neutral = true) ∧
        ∀ meaning, selects meaning (copied conv op b) = denote conv meaning b := by
      rcases copied_cases hb op with hnil | ⟨op', f, s, hlast, hs, hneutral, hne, h⟩
      · rw [copied, hnil, join_nil]
        exact ⟨hb.blank, hb.faithful⟩
      · refine ⟨⟨fun hnil => absurd hnil hne, fun h => ?_⟩, fun meaning => ?_⟩
        · rw [hneutral] at h
          cases h
        · rw [h, apply_of_absorbs hlast hs (habsorbs op' f s hlast)]
    have hmap := toVariantMap_addItself conv op hempty
    have hlast : last (.addItself op b) = some (op, b, b) := by
      rw [last, hempty, if_neg Bool.false_ne_true]
    refine ⟨?_, fun meaning => ?_, fun h => (by rw [hlast] at h; cases h), fun _ _ _ h => ?_⟩
    · rw [hmap, Build.neutral]
      constructor
      · intro hnil
        by_contra hneutral
        exact join_ne_nil (fun hnil' => hneutral (hcopy.1.mp hnil')) _ op hnil
      · intro hneutral
        rw [hcopy.1.mpr hneutral, join_nil, hb.blank.mpr hneutral]
    · rw [hmap, denote]
      by_cases hneutral : b.neutral = true
      · rw [hcopy.1.mpr hneutral, join_nil, hb.faithful, apply_self]
      · rw [selects_join (fun hnil => hneutral (hcopy.1.mp hnil)), hcopy.2, hb.faithful]
    · obtain ⟨rfl, rfl, rfl⟩ : op = _ ∧ b = _ ∧ b = _ := by
        simpa [hlast] using h
      rw [cri2_addItself op hempty]
      exact hcopy

lemma cri2_neutral (hb : Reads conv b) (hneutral : b.neutral = true) :
    conv.criteriaToVariantMap b.tree.cri2 = [] := by
  cases hlast : last b with
  | none => exact hb.single hlast
  | some l =>
    obtain ⟨op, f, s⟩ := l
    have := (last_eq conv hlast).2.1
    rw [hneutral, eq_comm, Bool.and_eq_true] at this
    exact (hb.second op f s hlast).1.mpr this.2

lemma reads_not (hb : Reads conv b) (hneutral : b.neutral = true) : Reads conv (.not b) := by
  have hcri2 := cri2_neutral hb hneutral
  have hmap : conv.toVariantMap (Build.tree (.not b)) = [] := by
    cases hempty : b.isEmpty with
    | true => exact toVariantMap_isEmpty (t := b.tree.negation) hempty
    | false =>
      have hblank := hb.blank.mpr hneutral
      rw [toVariantMap_eq hempty, hcri2, join_nil] at hblank
      rw [toVariantMap_not hempty, hcri2, join_nil, hblank]
  refine ⟨⟨fun _ => hneutral, fun _ => hmap⟩, fun meaning => ?_, fun _ => hcri2, fun _ _ _ h => ?_⟩
  · rw [hmap, denote, hneutral, Bool.true_or, selects]
  · cases h

lemma reads_of_sound (hover : Comparable conv b) (h : Sound conv b) : Reads conv b := by
  induction b with
  | empty => exact reads_empty
  | data d => exact reads_data hover
  | add op b c ihb ihc => exact reads_add (ihb hover.1 h.1) (ihc hover.2 h.2.1) h.2.2
  | addItself op b ih => exact reads_addItself (ih hover h.1) h.2
  | not b ih => exact reads_not (ih hover h.1) h.2

/-! ### What the condition leaves out -/

/-- Every comparison holds. -/
def allTrue : Meaning := fun _ _ _ => true

/-- No comparison holds. -/
def allFalse : Meaning := fun _ _ _ => false

lemma selects_allTrue (o : Operand) : selects allTrue (conv.criteriaToVariantMap o) = true := by
  induction o with
  | null => rfl
  | data d =>
    rw [criteriaToVariantMap, dataToVariantMap]
    split_ifs
    · rfl
    · cases hcomparison : comparison d with
      | none => rw [condition_of_none hcomparison, selects]
      | some r =>
        obtain ⟨c, hc, hholds⟩ := reading_condition allTrue hcomparison
        rw [hc, selects, selects, hholds, Bool.and_true]
        rfl
  | criteria cri1 cri2 logiOp ih1 ih2 =>
    rw [criteriaToVariantMap]
    split_ifs
    · rfl
    · by_cases hnil : conv.criteriaToVariantMap cri2 = []
      · rw [hnil, join_nil, ih1]
      · obtain ⟨hand, hor, hnot⟩ := join_of_ne_nil hnil (conv.criteriaToVariantMap cri1)
        cases logiOp with
        | none => rw [join_none, ih1]
        | and => rw [hand, selects_unite, ih1, ih2, Bool.and_self]
        | or => rw [hor, selects_or, ih1, ih2, Bool.or_self]
        | not =>
          rw [hnot]
          rfl

lemma denote_allFalse (hover : Comparable conv b) (h : Sound conv b)
    (hneutral : b.neutral = false) :
    denote conv allFalse b = false := by
  induction b with
  | empty => cases hneutral
  | data d =>
    obtain ⟨-, -, hcomparison⟩ := hover
    obtain ⟨⟨test, v⟩, htest⟩ := Option.ne_none_iff_exists'.mp hcomparison
    rw [denote, htest]
    rfl
  | add op b c ihb ihc =>
    rw [denote]
    cases hb : b.neutral with
    | true =>
      rw [Build.neutral, hb, Bool.true_and] at hneutral
      rw [if_pos rfl, ihc hover.2 h.2.1 hneutral]
    | false =>
      rw [if_neg Bool.false_ne_true, ihb hover.1 h.1 hb]
      cases hc : c.neutral with
      | true => rfl
      | false =>
        rw [if_neg Bool.false_ne_true, ihc hover.2 h.2.1 hc, apply_self]
  | addItself op b ih => rw [denote, apply_self, ih hover h.1 hneutral]
  | not b _ =>
    rw [Build.neutral, h.2] at hneutral
    cases hneutral

lemma neutral_of_faithful_not (hb : Reads conv b) (h : Faithful conv (.not b)) :
    b.neutral = true := by
  by_contra hneutral
  rw [Bool.not_eq_true] at hneutral
  have htrue : selects allTrue (conv.toVariantMap (Build.tree (.not b))) = true :=
    selects_allTrue _
  rw [h, denote, hneutral, Bool.false_or, ← hb.faithful, toVariantMap, selects_allTrue] at htrue
  cases htrue

lemma left_of_faithful_or (hb : Reads conv b) (hc : Reads conv c) (hover : Comparable conv c)
    (hsound : Sound conv c) (h : Faithful conv (.add .or b c)) (hempty : b.isEmpty = false)
    (hneutral : b.neutral = true) : c.neutral = true := by
  by_contra hc'
  have hfalse := h allFalse
  rw [toVariantMap_add conv _ hempty, selects_join (fun hnil => hc' (hc.blank.mp hnil)),
    hb.blank.mpr hneutral, denote, if_pos hneutral] at hfalse
  rw [Bool.not_eq_true] at hc'
  rw [denote_allFalse hover hsound hc'] at hfalse
  cases hfalse

/-- A sound criteria with an operand that is not empty behind its last connective has such an
operand in front of it too, or the connective is a conjunction. -/
lemma first_of_sound {op : Junction} {f s : Build} (hsound : Sound conv b)
    (hlast : last b = some (op, f, s)) (hs : s.neutral = false) :
    f.neutral = false ∨ op = .and := by
  cases b with
  | add op' b c =>
    rw [last] at hlast
    split_ifs at hlast with hempty
    obtain ⟨rfl, rfl, rfl⟩ : op' = op ∧ b = f ∧ c = s := by simpa using hlast
    rw [Bool.not_eq_true] at hempty
    cases op' with
    | and => exact .inr rfl
    | or =>
      left
      by_contra hf
      exact hsound.2.2 ⟨rfl, hempty, Bool.not_eq_false _ ▸ hf, hs⟩
  | addItself op' b =>
    rw [last] at hlast
    split_ifs at hlast
    obtain ⟨rfl, rfl, rfl⟩ : op' = op ∧ b = f ∧ b = s := by simpa using hlast
    exact .inl hs
  | empty | data _ | not _ => cases hlast

lemma absorbs_of_faithful {op op' : Junction} {f s : Build} (hb : Reads conv b)
    (hsound : Sound conv b) (h : Faithful conv (.addItself op b))
    (hlast : last b = some (op', f, s)) : Absorbs conv op op' f s := by
  obtain ⟨hempty, -, hdenote⟩ := last_eq conv hlast
  rcases copied_cases hb op with hnil | ⟨op'', f', s', hlast', hs, -, hne, hselects⟩
  · exact .inr (.inl ((hb.second op' f s hlast).1.mp hnil))
  · obtain ⟨rfl, rfl, rfl⟩ : op' = op'' ∧ f = f' ∧ s = s' := by
      simpa [hlast] using hlast'
    by_cases hop : op' = op
    · exact .inl hop
    · refine .inr (.inr fun meaning => ?_)
      have hvalue := h meaning
      rw [toVariantMap_addItself conv op hempty, selects_join hne, hselects, hb.faithful,
        apply_apply, denote, apply_self, hdenote, hs, if_neg Bool.false_ne_true] at hvalue
      cases hf : f.neutral with
      | true =>
        have hand : op' = .and := (first_of_sound hsound hlast hs).resolve_left (by rw [hf]; decide)
        rw [hand, denote_neutral hf, Junction.apply, Bool.true_and]
      | false =>
        rw [hf, if_neg Bool.false_ne_true, apply_second hop] at hvalue
        exact hvalue.symm

/-! ### Which criteria are compiled faithfully -/

lemma sound_of_parts (hover : Comparable conv b) (h : ∀ p ∈ parts b, Faithful conv p) :
    Sound conv b := by
  induction b with
  | empty => trivial
  | data d => trivial
  | add op b c ihb ihc =>
    have hsb := ihb hover.1 fun p hp => h p (List.mem_cons_of_mem _ (List.mem_append_left _ hp))
    have hsc := ihc hover.2 fun p hp => h p (List.mem_cons_of_mem _ (List.mem_append_right _ hp))
    refine ⟨hsb, hsc, ?_⟩
    rintro ⟨rfl, hempty, hneutral, hc⟩
    have := left_of_faithful_or (reads_of_sound hover.1 hsb) (reads_of_sound hover.2 hsc) hover.2
      hsc (h _ List.mem_cons_self) hempty hneutral
    rw [hc] at this
    cases this
  | addItself op b ih =>
    have hsb : Sound conv b := ih hover fun p hp => h p (List.mem_cons_of_mem _ hp)
    have hb : Reads conv b := reads_of_sound hover hsb
    exact ⟨hsb, fun _ _ _ hlast => absorbs_of_faithful hb hsb (h _ List.mem_cons_self) hlast⟩
  | not b ih =>
    have hsb : Sound conv b := ih hover fun p hp => h p (List.mem_cons_of_mem _ hp)
    have hb : Reads conv b := reads_of_sound hover hsb
    exact ⟨hsb, neutral_of_faithful_not hb (h _ List.mem_cons_self)⟩

lemma parts_of_sound (hover : Comparable conv b) (h : Sound conv b) :
    ∀ p ∈ parts b, Faithful conv p := by
  induction b with
  | empty | data _ =>
    intro p hp
    obtain rfl := List.mem_singleton.mp hp
    exact (reads_of_sound hover h).faithful
  | add op b c ihb ihc =>
    intro p hp
    rcases List.mem_cons.mp hp with rfl | hp
    · exact (reads_of_sound hover h).faithful
    · rcases List.mem_append.mp hp with hp | hp
      · exact ihb hover.1 h.1 p hp
      · exact ihc hover.2 h.2.1 p hp
  | addItself op b ih =>
    intro p hp
    rcases List.mem_cons.mp hp with rfl | hp
    · exact (reads_of_sound hover h).faithful
    · exact ih hover h.1 p hp
  | not b ih =>
    intro p hp
    rcases List.mem_cons.mp hp with rfl | hp
    · exact (reads_of_sound hover h).faithful
    · exact ih hover h.1 p hp

/-- **The query document says what the criteria says**, for this criteria and all those it was built
from, exactly if it is sound. -/
theorem parts_faithful_iff (hover : Comparable conv b) :
    (∀ p ∈ parts b, Faithful conv p) ↔ Sound conv b :=
  ⟨sound_of_parts hover, parts_of_sound hover⟩

/-- A class with a number and a name. -/
def person : TCriteriaMongoConverter where
  metaObject := ⟨[⟨"id", 2⟩, ⟨"name", 10⟩], 0⟩

def idIs (n : String) : Build := .data ⟨0, .equal, .invalid, .value 2 n, .invalid⟩

def nameExists : Build := .data ⟨1, .mongo 100, .invalid, .invalid, .invalid⟩

lemma comparable_person : Comparable person (.add .or (idIs "1") nameExists) :=
  ⟨⟨by decide, by decide, by simp [comparison]⟩, ⟨by decide, by decide, by simp [comparison]⟩⟩

theorem parts_faithful_iff_person :
    (∀ p ∈ parts (.add .or (idIs "1") nameExists), Faithful person p) ↔
      Sound person (.add .or (idIs "1") nameExists) :=
  parts_faithful_iff comparable_person

/-- **A negated comparison** selects what the comparison does; a negated conjunction everything; a
disjunction behind a criteria of empty ones everything as well; and a conjunction added to itself
by OR what its second operand does. -/
theorem not_faithful_person :
    ¬ Faithful person (.not (idIs "1")) ∧
      ¬ Faithful person (.not (.add .and (idIs "1") nameExists)) ∧
      ¬ Faithful person (.add .or (.add .and .empty .empty) (idIs "1")) ∧
      ¬ Faithful person (.addItself .or (.add .and (idIs "1") nameExists)) := by
  refine ⟨fun h => ?_, fun h => ?_, fun h => ?_, fun h => ?_⟩
  · exact absurd (h allTrue) (by decide)
  · exact absurd (h allTrue) (by decide)
  · exact absurd (h allFalse) (by decide)
  · exact absurd (h fun key _ _ => key = "name") (by decide)

end TreeFrog.CriteriaMongo
