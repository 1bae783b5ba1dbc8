import Mathlib.Data.List.Lex
import Mathlib.Order.Fin.Basic
import TreeFrog.Bytes
import TreeFrog.SortedMap

/-!
`TFormValidator`: rules for the keys of a form, and the errors of the last validation.

A validation adds a rule `Required` for every key of the form that has none, and the rules stay. A
custom error is an error and a rule with its message, which is looked up in the rules again.
-/

namespace TreeFrog.FormValidator

open SortedMap

/-- The code units of a text, which `QMap` compares. -/
abbrev QString := List (Fin 65536)

/-- `Tf::ValidationRule`; the last one only counts the others. -/
inductive ValidationRule where
  | required
  | maxLength
  | minLength
  | intMax
  | intMin
  | doubleMax
  | doubleMin
  | emailAddress
  | url
  | date
  | time
  | dateTime
  | pattern
  | custom
  | ruleCount
  deriving DecidableEq, Repr

/-- What a rule is made with: `QVariant` of a `bool`, a `qint64`, a `double` or a `QRegExp`. -/
inductive RuleValue (D X : Type) where
  | bool (enable : Bool)
  | int (v : ℤ)
  | double (v : D)
  | regExp (rx : X)

/-- What Qt does with texts, numbers of type `double` and regular expressions. -/
structure Qt (V D X : Type) where
  toString : V → QString
  toLongLong : QString → Option ℤ
  toDouble : QString → Option D
  ofInt : ℤ → D
  ofDouble : D → ℤ
  isZero : D → Bool
  less : D → D → Bool
  isEmpty : X → Bool
  exactMatch : X → QString → Bool
  /-- The expression for an address of RFC 5321. -/
  addrSpec : X
  isUrl : QString → Bool
  isDate : QString → QString → Bool
  isTime : QString → QString → Bool
  isDateTime : QString → QString → Bool

/-- The validation settings file. -/
structure Settings where
  validationErrorMessage : ValidationRule → QString
  dateFormat : QString
  timeFormat : QString
  dateTimeFormat : QString

structure QVariantMap (V : Type) where
  entries : List (QString × V)
  ascending : Ascending entries

structure RuleEntry (D X : Type) where
  key : QString
  rule : ValidationRule
  value : RuleValue D X
  message : QString

structure TFormValidator (V D X : Type) where
  rules : List (RuleEntry D X) := []
  errors : List (QString × ValidationRule) := []
  dateFmt : QString := []
  timeFmt : QString := []
  dateTimeFmt : QString := []
  values : List (QString × V) := []

variable {V D X : Type}

def QVariantMap.keys (m : QVariantMap V) : List QString := SortedMap.keys m.entries

/-- `map.value(key).toString()`; a key that is not there has no text. -/
def QVariantMap.text (qt : Qt V D X) (m : QVariantMap V) (key : QString) : QString :=
  ((find m.entries key).map qt.toString).getD []

namespace RuleValue

variable (qt : Qt V D X)

def toBool : RuleValue D X → Bool
  | bool enable => enable
  | int v => v ≠ 0
  | double v => !qt.isZero v
  | regExp _ => false

def toLongLong : RuleValue D X → Option ℤ
  | bool enable => some enable.toNat
  | int v => some v
  | double v => some (qt.ofDouble v)
  | regExp _ => none

/-- A number beyond an `int` loses its upper bits. -/
def toInt (v : RuleValue D X) : Option ℤ := (v.toLongLong qt).map Bytes.narrow

def toDouble : RuleValue D X → Option D
  | bool enable => some (qt.ofInt enable.toNat)
  | int v => some (qt.ofInt v)
  | double v => some v
  | regExp _ => none

/-- `toRegExp`, then an exact match; any other value is an empty expression. -/
def exactMatch (v : RuleValue D X) (str : QString) : Bool :=
  match v with
  | regExp rx => !qt.isEmpty rx && qt.exactMatch rx str
  | _ => false

end RuleValue

namespace TFormValidator

variable (qt : Qt V D X) (app : Settings) (s : TFormValidator V D X)

def containsRule (key : QString) (rule : ValidationRule) : Bool :=
  s.rules.any fun r => r.key = key && r.rule = rule

def removeRule (key : QString) (rule : ValidationRule) : TFormValidator V D X :=
  { s with rules := s.rules.filter fun r => !(r.key = key && r.rule = rule) }

/-- The end of every `setRule` method. -/
def putRule (key : QString) (rule : ValidationRule) (value : RuleValue D X)
    (errorMessage : QString) : TFormValidator V D X :=
  let s := s.removeRule key rule
  let message :=
    if errorMessage.isEmpty then app.validationErrorMessage rule else errorMessage
  { s with rules := ⟨key, rule, value, message⟩ :: s.rules }

/-- `setRule` with a `bool`; rules that need a number or an expression are refused. -/
def setRule (key : QString) (rule : ValidationRule) (enable : Bool) (errorMessage : QString) :
    TFormValidator V D X :=
  if rule ∈ [.maxLength, .minLength, .intMax, .intMin, .doubleMax, .doubleMin, .pattern] then s
  else s.putRule app key rule (.bool enable) errorMessage

/-- `setRule` with an `int` or a `qint64`. -/
def setRuleInt (key : QString) (rule : ValidationRule) (val : ℤ) (errorMessage : QString) :
    TFormValidator V D X :=
  if rule ∈ [.required, .emailAddress, .url, .date, .time, .dateTime, .pattern] then s
  else s.putRule app key rule (.int val) errorMessage

/-- `setRule` with a `float` or a `double`. -/
def setRuleDouble (key : QString) (rule : ValidationRule) (val : D) (errorMessage : QString) :
    TFormValidator V D X :=
  if rule ∈ [.required, .maxLength, .minLength, .intMax, .intMin, .emailAddress, .url, .date,
      .time, .dateTime, .pattern] then s
  else s.putRule app key rule (.double val) errorMessage

def setPatternRule (key : QString) (rx : X) (errorMessage : QString) : TFormValidator V D X :=
  s.putRule app key .pattern (.regExp rx) errorMessage

def dateFormat : QString := if s.dateFmt.isEmpty then app.dateFormat else s.dateFmt

def timeFormat : QString := if s.timeFmt.isEmpty then app.timeFormat else s.timeFmt

def dateTimeFormat : QString :=
  if s.dateTimeFmt.isEmpty then app.dateTimeFormat else s.dateTimeFmt

/-- Whether a rule finds an error in the text of its key. -/
def violates (r : RuleEntry D X) (str : QString) : Bool :=
  if str.isEmpty then r.rule = .required && r.value.toBool qt
  else match r.rule with
    | .required => false
    | .maxLength => !(r.value.toInt qt).any fun max => (str.length : ℤ) ≤ max
    | .minLength => !(r.value.toInt qt).any fun min => min ≤ (str.length : ℤ)
    | .intMax => !(qt.toLongLong str).any fun n => (r.value.toLongLong qt).any fun max => n ≤ max
    | .intMin => !(qt.toLongLong str).any fun n => (r.value.toLongLong qt).any fun min => min ≤ n
    | .doubleMax =>
      !(qt.toDouble str).any fun n => (r.value.toDouble qt).any fun max => !qt.less max n
    | .doubleMin =>
      !(qt.toDouble str).any fun n => (r.value.toDouble qt).any fun min => !qt.less n min
    | .emailAddress => r.value.toBool qt && !qt.exactMatch qt.addrSpec str
    | .url => r.value.toBool qt && !qt.isUrl str
    | .date => r.value.toBool qt && !qt.isDate str (s.dateFormat app)
    | .time => r.value.toBool qt && !qt.isTime str (s.timeFormat app)
    | .dateTime => r.value.toBool qt && !qt.isDateTime str (s.dateTimeFormat app)
    | .pattern => !r.value.exactMatch qt str
    -- an internal error is logged
    | .custom => false
    | .ruleCount => false

/-- As default, `Required` is set for all parameters. -/
def addDefault (key : QString) : TFormValidator V D X :=
  if s.containsRule key .required then s
  else { s with
    rules := s.rules ++ [⟨key, .required, .bool true, app.validationErrorMessage .required⟩] }

def addDefaults (keys : List QString) : TFormValidator V D X :=
  keys.foldl (fun s key => s.addDefault app key) s

def validate (map : QVariantMap V) : Bool × TFormValidator V D X :=
  let s := { s with values := map.entries, errors := [] }.addDefaults app map.keys
  let errors := (s.rules.filter fun r => s.violates qt app r (map.text qt r.key)).map
    fun r => (r.key, r.rule)
  (errors.isEmpty, { s with errors := errors })

def isValidationError (key : QString) : Bool := s.errors.any fun err => err.1 = key

def validationErrorKeys : List QString := s.errors.map Prod.fst

def errorRule (key : QString) : ValidationRule :=
  ((s.errors.find? fun err => err.1 = key).map Prod.snd).getD .required

def message (key : QString) (rule : ValidationRule) : QString :=
  ((s.rules.find? fun r => r.key = key && r.rule = rule).map RuleEntry.message).getD []

def errorMessage (key : QString) : QString := s.message key (s.errorRule key)

/-- The messages that are not empty, the last one first. -/
def errorMessages : List QString :=
  s.errors.foldl (fun msgs err =>
    let m := s.message err.1 err.2
    if m.isEmpty then msgs else m :: msgs) []

/-- The value of the rule is never used; `"dummy"` is taken for a `bool`. -/
def setValidationError (key errorMessage : QString) : TFormValidator V D X :=
  { s with
    errors := s.errors ++ [(key, .custom)],
    rules := s.rules ++ [⟨key, .custom, .bool true, errorMessage⟩] }

end TFormValidator

open TFormValidator

/-- The calls that configure a validator. -/
inductive Configuration (D X : Type) where
  | setRule (key : QString) (rule : ValidationRule) (enable : Bool) (errorMessage : QString)
  | setRuleInt (key : QString) (rule : ValidationRule) (val : ℤ) (errorMessage : QString)
  | setRuleDouble (key : QString) (rule : ValidationRule) (val : D) (errorMessage : QString)
  | setPatternRule (key : QString) (rx : X) (errorMessage : QString)
  | setDateFormat (format : QString)
  | setTimeFormat (format : QString)
  | setDateTimeFormat (format : QString)

/-- All calls that change a validator. -/
inductive Call (V D X : Type) where
  | configure (c : Configuration D X)
  | validate (map : QVariantMap V)
  | setValidationError (key errorMessage : QString)

variable (qt : Qt V D X) (app : Settings)

def configure (s : TFormValidator V D X) : Configuration D X → TFormValidator V D X
  | .setRule key rule enable errorMessage => s.setRule app key rule enable errorMessage
  | .setRuleInt key rule val errorMessage => s.setRuleInt app key rule val errorMessage
  | .setRuleDouble key rule val errorMessage => s.setRuleDouble app key rule val errorMessage
  | .setPatternRule key rx errorMessage => s.setPatternRule app key rx errorMessage
  | .setDateFormat format => { s with dateFmt := format }
  | .setTimeFormat format => { s with timeFmt := format }
  | .setDateTimeFormat format => { s with dateTimeFmt := format }

def call (s : TFormValidator V D X) : Call V D X → TFormValidator V D X
  | .configure c => configure app s c
  | .validate map => (s.validate qt app map).2
  | .setValidationError key errorMessage => s.setValidationError key errorMessage

/-- A new validator that is configured only. -/
def configured (calls : List (Configuration D X)) : TFormValidator V D X :=
  calls.foldl (configure app) {}

/-- A new validator after any calls. -/
def used (calls : List (Call V D X)) : TFormValidator V D X := calls.foldl (call qt app) {}

/-! ### What a validation does -/

section Validate

variable (s : TFormValidator V D X) (m : QVariantMap V)

/-- The rule for a key that has none. -/
def defaultRule (key : QString) : RuleEntry D X :=
  ⟨key, .required, .bool true, app.validationErrorMessage .required⟩

/-- The keys that get such a rule. -/
def unruled : List QString := m.keys.filter fun key => !s.containsRule key .required

/-- The errors that these rules find. -/
def found (rules : List (RuleEntry D X)) : List (QString × ValidationRule) :=
  (rules.filter fun r => s.violates qt app r (m.text qt r.key)).map fun r => (r.key, r.rule)

lemma QVariantMap.keys_ascending : m.keys.Pairwise (· < ·) :=
  List.pairwise_map.2 m.ascending

lemma QVariantMap.text_of_notMem {key : QString} (h : key ∉ m.keys) : m.text qt key = [] := by
  have hnone : find m.entries key = none := by
    rw [find, Option.map_eq_none_iff, List.find?_eq_none]
    intro e he hkey
    exact h (List.mem_map.2 ⟨e, he, by simpa using hkey⟩)
  rw [QVariantMap.text, hnone]
  rfl

lemma mem_unruled {key : QString} :
    key ∈ unruled s m ↔ key ∈ m.keys ∧ ¬ s.containsRule key .required := by
  simp [unruled]

lemma unruled_ascending : (unruled s m).Pairwise (· < ·) := (m.keys_ascending).filter _

lemma containsRule_addDefault {s : TFormValidator V D X} {key j : QString} (h : j ≠ key) :
    (s.addDefault app key).containsRule j .required = s.containsRule j .required := by
  rw [addDefault]
  split
  · rfl
  · simp [containsRule, h.symm]

lemma addDefaults_eq {keys : List QString} (h : keys.Nodup) :
    s.addDefaults app keys = { s with
      rules := s.rules ++
        (keys.filter fun key => !s.containsRule key .required).map (defaultRule app) } := by
  induction keys generalizing s with
  | nil => simp [addDefaults]
  | cons key keys ih =>
    obtain ⟨hkey, hkeys⟩ := List.nodup_cons.1 h
    have hrest : (keys.filter fun j => !(s.addDefault app key).containsRule j .required) =
        keys.filter fun j => !s.containsRule j .required := by
      refine List.filter_congr fun j hj => ?_
      rw [containsRule_addDefault app (ne_of_mem_of_not_mem hj hkey)]
    have hstep := ih (s.addDefault app key) hkeys
    rw [hrest] at hstep
    rw [addDefaults, List.foldl_cons]
    refine hstep.trans ?_
    rw [addDefault]
    split_ifs with hrule
    · simp [hrule]
    · simp [hrule, defaultRule]

lemma found_default (keys : List QString) :
    found qt app s m (keys.map (defaultRule app)) =
      (keys.filter fun key => (m.text qt key).isEmpty).map fun key => (key, .required) := by
  rw [found, List.filter_map, List.map_map]
  have hcheck : ∀ key, ((fun r : RuleEntry D X => s.violates qt app r (m.text qt r.key)) ∘
      defaultRule app) key = (m.text qt key).isEmpty := by
    intro key
    simp only [Function.comp_apply, defaultRule, violates, RuleValue.toBool]
    split_ifs with h <;> simp [h]
  rw [funext hcheck]
  rfl

lemma found_append (rs rs' : List (RuleEntry D X)) :
    found qt app s m (rs ++ rs') = found qt app s m rs ++ found qt app s m rs' := by
  simp [found]

lemma validate_eq :
    s.validate qt app m =
      let errors := found qt app s m s.rules ++
        ((unruled s m).filter fun key => (m.text qt key).isEmpty).map fun key => (key, .required)
      (errors.isEmpty, { s with
        values := m.entries,
        rules := s.rules ++ (unruled s m).map (defaultRule app),
        errors := errors }) := by
  have hkeys : m.keys.Nodup := m.keys_ascending.imp fun h => ne_of_lt h
  rw [← found_default, ← found_append, validate, addDefaults_eq app _ hkeys]
  rfl

end Validate

/-! ### Validating again -/

section History

variable (s : TFormValidator V D X) (m₁ m₂ : QVariantMap V)

/-- What is seen of a validation: the return value, the keys of the errors, and the messages. -/
def SameOutcome (v w : Bool × TFormValidator V D X) : Prop :=
  v.1 = w.1 ∧ v.2.validationErrorKeys = w.2.validationErrorKeys ∧
    v.2.errorMessages = w.2.errorMessages ∧ (∀ key, v.2.errorMessage key = w.2.errorMessage key) ∧
    ∀ key rule, v.2.message key rule = w.2.message key rule

/-- The keys that the first form got a default rule for are in the second one as well, and those
of them that are empty there come before the empty ones that are new. -/
structure Stable : Prop where
  again : ∀ k ∈ unruled s m₁, k ∈ m₂.keys
  order : ∀ k ∈ unruled s m₁, ∀ l ∈ unruled s m₂, l ∉ m₁.keys →
    (m₂.text qt k).isEmpty → (m₂.text qt l).isEmpty → k < l

/-- The keys without a rule in the second form that were not in the first. -/
def news : List QString := (unruled s m₂).filter fun key => key ∉ m₁.keys

lemma unruled_validate :
    unruled (s.validate qt app m₁).2 m₂ = news s m₁ m₂ := by
  rw [news, unruled, unruled, List.filter_filter]
  refine List.filter_congr fun key _ => ?_
  have hrule : (s.validate qt app m₁).2.containsRule key .required =
      (s.containsRule key .required || decide (key ∈ unruled s m₁)) := by
    rw [validate_eq, Bool.eq_iff_iff, containsRule]
    simp only [List.any_append, List.any_map, Bool.or_eq_true, decide_eq_true_eq]
    refine or_congr Iff.rfl ?_
    simp only [List.any_eq_true, Function.comp_apply, defaultRule, Bool.and_eq_true,
      decide_eq_true_eq, and_true]
    constructor
    · rintro ⟨k, hk, hkey⟩
      rwa [← of_decide_eq_true hkey]
    · exact fun hmem => ⟨key, hmem, decide_eq_true rfl⟩
  rw [hrule, Bool.eq_iff_iff]
  simp only [Bool.not_or, Bool.and_eq_true, Bool.not_eq_true', decide_eq_false_iff_not,
    mem_unruled, decide_eq_true_eq]
  grind

lemma errors_again : ((s.validate qt app m₁).2.validate qt app m₂).2.errors =
    found qt app s m₂ s.rules ++
      ((unruled s m₁).filter (fun key => (m₂.text qt key).isEmpty) ++
        (news s m₁ m₂).filter fun key => (m₂.text qt key).isEmpty).map fun key =>
          (key, .required) := by
  have hfound : ∀ rs, found qt app (s.validate qt app m₁).2 m₂ rs = found qt app s m₂ rs := by
    intro rs
    rw [validate_eq]
    rfl
  have hrules : (s.validate qt app m₁).2.rules =
      s.rules ++ (unruled s m₁).map (defaultRule app) := by rw [validate_eq]
  rw [validate_eq]
  simp only [unruled_validate]
  rw [hfound, hrules, found_append, found_default, List.map_append, List.append_assoc]

lemma errors_fresh : (s.validate qt app m₂).2.errors =
    found qt app s m₂ s.rules ++
      ((unruled s m₂).filter fun key => (m₂.text qt key).isEmpty).map fun key =>
        (key, .required) := by
  rw [validate_eq]

variable {s m₁ m₂}

lemma empty_keys_eq_iff :
    (unruled s m₁).filter (fun key => (m₂.text qt key).isEmpty) ++
      (news s m₁ m₂).filter (fun key => (m₂.text qt key).isEmpty) =
        (unruled s m₂).filter (fun key => (m₂.text qt key).isEmpty) ↔ Stable qt s m₁ m₂ := by
  have hsorted₂ : ((unruled s m₂).filter fun key => (m₂.text qt key).isEmpty).Pairwise (· < ·) :=
    (unruled_ascending s m₂).filter _
  constructor
  · intro h
    constructor
    · intro k hk
      by_contra hnot
      -- the key is missing in the second form, so that its text is empty
      have hempty : k ∈ (unruled s m₂).filter fun key => (m₂.text qt key).isEmpty := by
        rw [← h]
        exact List.mem_append_left _ (List.mem_filter.2 ⟨hk, by
          rw [QVariantMap.text_of_notMem qt m₂ hnot]
          rfl⟩)
      exact hnot ((mem_unruled s m₂).1 (List.mem_filter.1 hempty).1).1
    · intro k hk l hl hnew hke hle
      rw [← h, List.pairwise_append] at hsorted₂
      exact hsorted₂.2.2 k (List.mem_filter.2 ⟨hk, hke⟩) l
        (List.mem_filter.2 ⟨List.mem_filter.2 ⟨hl, by simpa using hnew⟩, hle⟩)
  · intro h
    have hsorted : ((unruled s m₁).filter (fun key => (m₂.text qt key).isEmpty) ++
        (news s m₁ m₂).filter fun key => (m₂.text qt key).isEmpty).Pairwise (· < ·) := by
      refine List.pairwise_append.2 ⟨(unruled_ascending s m₁).filter _,
        ((unruled_ascending s m₂).filter _).filter _, fun k hk l hl => ?_⟩
      obtain ⟨hk, hke⟩ := List.mem_filter.1 hk
      obtain ⟨hl, hle⟩ := List.mem_filter.1 hl
      obtain ⟨hl, hnew⟩ := List.mem_filter.1 hl
      exact h.order k hk l hl (by simpa using hnew) hke hle
    refine hsorted.eq_of_mem_iff hsorted₂ fun k => ?_
    have hagain := h.again k
    simp only [List.mem_append, List.mem_filter, news, mem_unruled, decide_eq_true_eq] at hagain ⊢
    tauto

lemma find?_defaultRule (keys : List QString) (key : QString) (rule : ValidationRule) :
    ((keys.map (defaultRule (D := D) (X := X) app)).find? fun r => r.key = key && r.rule = rule) =
      if key ∈ keys ∧ rule = .required then some (defaultRule app key) else none := by
  induction keys with
  | nil => simp
  | cons k keys ih =>
    rw [List.map_cons, List.find?_cons, ih]
    by_cases hrule : rule = .required
    · subst hrule
      by_cases hk : k = key
      · subst hk
        simp [defaultRule]
      · simp [defaultRule, hk, Ne.symm hk]
    · simp [defaultRule, hrule, Ne.symm hrule]

lemma message_validate (m : QVariantMap V) (key : QString) (rule : ValidationRule) :
    (s.validate qt app m).2.message key rule =
      (((s.rules.find? fun r => r.key = key && r.rule = rule).or
        (if key ∈ unruled s m ∧ rule = .required then some (defaultRule app key)
          else none)).map RuleEntry.message).getD [] := by
  rw [validate_eq]
  simp only [message, List.find?_append, find?_defaultRule]

lemma message_again (h : ∀ k ∈ unruled s m₁, k ∈ m₂.keys) (key : QString)
    (rule : ValidationRule) :
    ((s.validate qt app m₁).2.validate qt app m₂).2.message key rule =
      (s.validate qt app m₂).2.message key rule := by
  have hrules : (s.validate qt app m₁).2.rules =
      s.rules ++ (unruled s m₁).map (defaultRule app) := by rw [validate_eq]
  have hmem : key ∈ unruled s m₂ ↔ key ∈ unruled s m₁ ∨ key ∈ news s m₁ m₂ := by
    have hagain := h key
    simp only [news, List.mem_filter, mem_unruled, decide_eq_true_eq] at hagain ⊢
    tauto
  rw [message_validate, message_validate, hrules, unruled_validate, List.find?_append,
    find?_defaultRule]
  by_cases hrule : rule = .required
  · subst hrule
    by_cases h₁ : key ∈ unruled s m₁
    · simp [h₁, hmem.2 (.inl h₁)]
    · simp [h₁, hmem]
  · simp [hrule]

lemma sameOutcome_of {v w : TFormValidator V D X} (herrors : v.errors = w.errors)
    (hmessage : ∀ key rule, v.message key rule = w.message key rule) :
    SameOutcome (v.errors.isEmpty, v) (w.errors.isEmpty, w) := by
  refine ⟨by rw [herrors], by simp only [validationErrorKeys, herrors], ?_, fun key => ?_,
    hmessage⟩
  · simp only [errorMessages, herrors, hmessage]
  · simp only [errorMessage, errorRule, herrors, hmessage]

lemma validate_fst (m : QVariantMap V) :
    s.validate qt app m = ((s.validate qt app m).2.errors.isEmpty, (s.validate qt app m).2) := rfl

end History

/-- **A second validation is as if it were the first one** exactly if the form before it left no
default rule that shows: each is for a key of the second form as well, and the empty ones of
these keys come before the empty ones that are new. -/
theorem validate_history_iff (calls : List (Configuration D X)) (m₁ m₂ : QVariantMap V) :
    SameOutcome (((configured app calls).validate qt app m₁).2.validate qt app m₂)
      ((configured app calls).validate qt app m₂) ↔
        Stable qt (configured (V := V) app calls) m₁ m₂ := by
  set s : TFormValidator V D X := configured app calls
  rw [← empty_keys_eq_iff]
  constructor
  · rintro ⟨-, hkeys, -⟩
    rw [validationErrorKeys, validationErrorKeys, errors_again, errors_fresh] at hkeys
    simpa [Function.comp_def, -List.filter_append] using hkeys
  · intro h
    rw [validate_fst, validate_fst (s := s)]
    refine sameOutcome_of ?_ (message_again qt app ((empty_keys_eq_iff qt).1 h).again)
    rw [errors_again, errors_fresh, h]

/-- Texts as the values of a form; none of the other conversions is asked. -/
def formTexts : Qt QString ℤ QString where
  toString := id
  toLongLong := fun _ => none
  toDouble := fun _ => none
  ofInt := id
  ofDouble := id
  isZero := fun n => n = 0
  less := fun m n => m < n
  isEmpty := List.isEmpty
  exactMatch := fun rx str => rx = str
  addrSpec := []
  isUrl := fun _ => false
  isDate := fun _ _ => false
  isTime := fun _ _ => false
  isDateTime := fun _ _ => false

def noSettings : Settings := ⟨fun _ => [], [], [], []⟩

/-- A form with a key `a`, then an empty one: `a` is reported as required in the second. -/
theorem validate_twice :
    ¬ SameOutcome
      (((configured noSettings []).validate formTexts noSettings
        ⟨[([0x61], [0x78])], by decide⟩).2.validate formTexts noSettings ⟨[], by decide⟩)
      ((configured noSettings []).validate formTexts noSettings ⟨[], by decide⟩) :=
  fun h => absurd h.1 (by decide)

/-! ### Custom errors -/

lemma errorRule_setValidationError {s : TFormValidator V D X} {key : QString}
    (h : s.isValidationError key = false) (msg : QString) :
    (s.setValidationError key msg).errorRule key = .custom := by
  have hnone : s.errors.find? (fun err => err.1 = key) = none := by
    rw [List.find?_eq_none]
    intro err herr hkey
    rw [isValidationError, List.any_eq_false] at h
    exact h err herr hkey
  simp [errorRule, setValidationError, List.find?_append, hnone]

/-- The message is that of the first custom rule of the key, which may be an old one. -/
lemma message_setValidationError (s : TFormValidator V D X) (key msg : QString) :
    (s.setValidationError key msg).message key .custom =
      if s.containsRule key .custom then s.message key .custom else msg := by
  rw [message, setValidationError, List.find?_append]
  cases hfind : s.rules.find? fun r => r.key = key && r.rule = .custom with
  | none =>
    have hnot : s.containsRule key .custom = false := by
      rw [containsRule, List.any_eq_false]
      exact List.find?_eq_none.1 hfind
    simp [hnot]
  | some r =>
    have hrule : s.containsRule key .custom = true := by
      rw [containsRule, List.any_eq_true]
      refine ⟨r, List.mem_of_find?_eq_some hfind, ?_⟩
      simpa using List.find?_some hfind
    simp [hrule, message, hfind]

/-- **A custom error has its message** exactly if there is no custom rule for the key already, from
an earlier error or a call of `setRule`, or the first one has the same message. -/
theorem setValidationError_reported_iff (calls : List (Call V D X)) (key msg : QString)
    (h : (used qt app calls).isValidationError key = false) :
    (key ∈ ((used qt app calls).setValidationError key msg).validationErrorKeys ∧
      ((used qt app calls).setValidationError key msg).errorMessage key = msg) ↔
    ((used qt app calls).containsRule key .custom →
      (used qt app calls).message key .custom = msg) := by
  have hkey : key ∈ ((used qt app calls).setValidationError key msg).validationErrorKeys := by
    simp [validationErrorKeys, setValidationError]
  rw [errorMessage, errorRule_setValidationError h, message_setValidationError]
  split_ifs with hrule
  · simp [hkey, hrule]
  · simp [hkey, hrule]

/-- An error `x` for the key `a`, a validation, then the same error again. -/
theorem setValidationError_again :
    let s := used formTexts noSettings
      [.setValidationError [0x61] [0x78], .validate ⟨[], by decide⟩]
    [0x61] ∈ (s.setValidationError [0x61] [0x78]).validationErrorKeys ∧
      (s.setValidationError [0x61] [0x78]).errorMessage [0x61] = [0x78] :=
  (setValidationError_reported_iff formTexts noSettings _ [0x61] [0x78] (by decide)).mpr
    fun _ => by decide

/-- An error `x` for the key `a`, a validation, then an error `y`: the message is still `x`. -/
theorem setValidationError_stale :
    let s := used formTexts noSettings
      [.setValidationError [0x61] [0x78], .validate ⟨[], by decide⟩]
    s.isValidationError [0x61] = false ∧
      (s.setValidationError [0x61] [0x79]).errorMessage [0x61] = [0x78] := by
  decide

end TreeFrog.FormValidator
