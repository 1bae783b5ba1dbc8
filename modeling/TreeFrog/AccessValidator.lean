import Mathlib.Data.List.Basic
import Mathlib.Algebra.Order.Ring.Int

/-!
`TAccessValidator`: the rules for users, for groups and for unauthenticated users are in one list,
and the first one that fits the user and the action decides.

A rule for a group is told from a rule for a user by its type. `validate` looks at the type for the
identity of the user, not for the group.
-/

namespace TreeFrog.AccessValidator

abbrev QString := String

/-- `AccessRule::Type`. -/
inductive RuleType where
  | group
  | user
  | unauthenticatedUser
  deriving DecidableEq, Repr

structure AccessRule where
  type : RuleType
  key : QString
  action : QString
  allow : Bool
  deriving DecidableEq, Repr

structure TAbstractUser where
  identityKey : QString
  groupKey : QString

structure TAccessValidator where
  allowDefault : Bool
  accessRules : List AccessRule

/-! ### The calls -/

namespace TAccessValidator

/-- `TAccessValidator::TAccessValidator()`. -/
def new : TAccessValidator := ⟨true, []⟩

def addRules (v : TAccessValidator) (type : RuleType) (key : QString) (actions : List QString)
    (allow : Bool) : TAccessValidator :=
  { v with accessRules := v.accessRules ++ actions.map fun act => ⟨type, key, act, allow⟩ }

/-- The overloads for one action append one rule. -/
def addRule (v : TAccessValidator) (type : RuleType) (key action : QString) (allow : Bool) :
    TAccessValidator :=
  { v with accessRules := v.accessRules ++ [⟨type, key, action, allow⟩] }

def setAllowDefault (v : TAccessValidator) (allow : Bool) : TAccessValidator :=
  { v with allowDefault := allow }

def setDenyDefault (v : TAccessValidator) (deny : Bool) : TAccessValidator :=
  { v with allowDefault := !deny }

def setAllowGroup (v : TAccessValidator) (groupKey action : QString) : TAccessValidator :=
  v.addRule .group groupKey action true

def setAllowGroupList (v : TAccessValidator) (groupKey : QString) (actions : List QString) :
    TAccessValidator :=
  v.addRules .group groupKey actions true

def setDenyGroup (v : TAccessValidator) (groupKey action : QString) : TAccessValidator :=
  v.addRule .group groupKey action false

def setDenyGroupList (v : TAccessValidator) (groupKey : QString) (actions : List QString) :
    TAccessValidator :=
  v.addRules .group groupKey actions false

def setAllowUser (v : TAccessValidator) (identityKey action : QString) : TAccessValidator :=
  v.addRule .user identityKey action true

def setAllowUserList (v : TAccessValidator) (identityKey : QString) (actions : List QString) :
    TAccessValidator :=
  v.addRules .user identityKey actions true

def setDenyUser (v : TAccessValidator) (identityKey action : QString) : TAccessValidator :=
  v.addRule .user identityKey action false

def setDenyUserList (v : TAccessValidator) (identityKey : QString) (actions : List QString) :
    TAccessValidator :=
  v.addRules .user identityKey actions false

def setAllowUnauthenticatedUser (v : TAccessValidator) (action : QString) : TAccessValidator :=
  v.addRule .unauthenticatedUser "" action true

def setAllowUnauthenticatedUserList (v : TAccessValidator) (actions : List QString) :
    TAccessValidator :=
  v.addRules .unauthenticatedUser "" actions true

def setDenyUnauthenticatedUser (v : TAccessValidator) (action : QString) : TAccessValidator :=
  v.addRule .unauthenticatedUser "" action false

def setDenyUnauthenticatedUserList (v : TAccessValidator) (actions : List QString) :
    TAccessValidator :=
  v.addRules .unauthenticatedUser "" actions false

def clear (_ : TAccessValidator) : TAccessValidator := ⟨true, []⟩

end TAccessValidator

inductive Call where
  | setAllowDefault (allow : Bool)
  | setDenyDefault (deny : Bool)
  | setAllowGroup (groupKey action : QString)
  | setAllowGroupList (groupKey : QString) (actions : List QString)
  | setDenyGroup (groupKey action : QString)
  | setDenyGroupList (groupKey : QString) (actions : List QString)
  | setAllowUser (identityKey action : QString)
  | setAllowUserList (identityKey : QString) (actions : List QString)
  | setDenyUser (identityKey action : QString)
  | setDenyUserList (identityKey : QString) (actions : List QString)
  | setAllowUnauthenticatedUser (action : QString)
  | setAllowUnauthenticatedUserList (actions : List QString)
  | setDenyUnauthenticatedUser (action : QString)
  | setDenyUnauthenticatedUserList (actions : List QString)
  | clear

def TAccessValidator.call (v : TAccessValidator) : Call → TAccessValidator
  | .setAllowDefault allow => v.setAllowDefault allow
  | .setDenyDefault deny => v.setDenyDefault deny
  | .setAllowGroup groupKey action => v.setAllowGroup groupKey action
  | .setAllowGroupList groupKey actions => v.setAllowGroupList groupKey actions
  | .setDenyGroup groupKey action => v.setDenyGroup groupKey action
  | .setDenyGroupList groupKey actions => v.setDenyGroupList groupKey actions
  | .setAllowUser identityKey action => v.setAllowUser identityKey action
  | .setAllowUserList identityKey actions => v.setAllowUserList identityKey actions
  | .setDenyUser identityKey action => v.setDenyUser identityKey action
  | .setDenyUserList identityKey actions => v.setDenyUserList identityKey actions
  | .setAllowUnauthenticatedUser action => v.setAllowUnauthenticatedUser action
  | .setAllowUnauthenticatedUserList actions => v.setAllowUnauthenticatedUserList actions
  | .setDenyUnauthenticatedUser action => v.setDenyUnauthenticatedUser action
  | .setDenyUnauthenticatedUserList actions => v.setDenyUnauthenticatedUserList actions
  | .clear => v.clear

/-- The validator after these calls. -/
def built (calls : List Call) : TAccessValidator := calls.foldl TAccessValidator.call .new

/-! ### Validation -/

/-- The loops of `validate`: the first rule that fits sets the result. -/
def search (fits : AccessRule → Bool) (ret : Bool) : List AccessRule → Bool
  | [] => ret
  | rule :: rules => if fits rule then rule.allow else search fits ret rules

def fitsUnauthenticated (activeAction : QString) (rule : AccessRule) : Bool :=
  rule.type = .unauthenticatedUser && rule.action = activeAction

def fits (activeAction : QString) (user : TAbstractUser) (rule : AccessRule) : Bool :=
  rule.action = activeAction &&
    ((rule.type = .user && rule.key = user.identityKey) ||
      (!user.groupKey.isEmpty && rule.key = user.groupKey))

/-- `validate` while a controller runs `activeAction`; without a user for the null pointer. -/
def TAccessValidator.validate (v : TAccessValidator) (activeAction : QString)
    (user : Option TAbstractUser) : Bool :=
  if v.accessRules.isEmpty then v.allowDefault
  else
    match user with
    | none => search (fitsUnauthenticated activeAction) v.allowDefault v.accessRules
    | some user =>
      if user.identityKey.isEmpty then
        search (fitsUnauthenticated activeAction) v.allowDefault v.accessRules
      else search (fits activeAction user) v.allowDefault v.accessRules

/-! ### What should decide -/

/-- A user rule with the identity of the user, or a group rule with the group. -/
def Counts (action : QString) (user : TAbstractUser) (rule : AccessRule) : Prop :=
  rule.action = action ∧
    (rule.type = .user ∧ rule.key = user.identityKey ∨
      rule.type = .group ∧ rule.key = user.groupKey ∧ user.groupKey ≠ "")

instance (action : QString) (user : TAbstractUser) (rule : AccessRule) :
    Decidable (Counts action user rule) :=
  inferInstanceAs (Decidable (_ ∧ _))

/-- The decision of the first rule that counts, and the default otherwise. -/
def decision (action : QString) (user : TAbstractUser) (default : Bool)
    (rules : List AccessRule) : Bool :=
  ((rules.find? (Counts action user ·)).map AccessRule.allow).getD default

/-- A rule for another user, whose identity is the name of the group of this one. -/
def Misread (action : QString) (user : TAbstractUser) (rule : AccessRule) : Prop :=
  rule.action = action ∧ rule.type = .user ∧ rule.key = user.groupKey ∧ user.groupKey ≠ "" ∧
    user.groupKey ≠ user.identityKey

/-- If a rule for a user whose identity is the name of the group comes before all rules that count,
the first such rule decides what the rules behind it do. -/
def Undisturbed (action : QString) (user : TAbstractUser) (default : Bool)
    (rules : List AccessRule) : Prop :=
  ∀ before rule behind, rules = before ++ rule :: behind → Misread action user rule →
    (∀ r ∈ before, ¬ Counts action user r ∧ ¬ Misread action user r) →
    rule.allow = decision action user default behind

/-- A rule that is not for another user or for another group. -/
def own (user : TAbstractUser) (rule : AccessRule) : Bool :=
  !((rule.type = .user && rule.key ≠ user.identityKey) ||
    (rule.type = .group && rule.key ≠ user.groupKey))

/-- The lists differ only in rules for other users and for other groups. -/
def Agree (user : TAbstractUser) (v w : TAccessValidator) : Prop :=
  v.allowDefault = w.allowDefault ∧
    v.accessRules.filter (own user) = w.accessRules.filter (own user)

variable {action : QString} {user : TAbstractUser} {default : Bool} {rule : AccessRule}
  {rules : List AccessRule}

/-! ### The rules of a validator -/

/-- Rules for unauthenticated users have no key. -/
def Keyless (rule : AccessRule) : Prop := rule.type = .unauthenticatedUser → rule.key = ""

lemma keyless_addRule {v : TAccessValidator} (hv : ∀ r ∈ v.accessRules, Keyless r)
    {type : RuleType} {key : QString} (h : type = .unauthenticatedUser → key = "")
    (action : QString) (allow : Bool) :
    ∀ r ∈ (v.addRule type key action allow).accessRules, Keyless r := by
  intro r hr
  rcases List.mem_append.mp hr with hr | hr
  · exact hv r hr
  · rw [List.mem_singleton.mp hr]
    exact h

lemma keyless_addRules {v : TAccessValidator} (hv : ∀ r ∈ v.accessRules, Keyless r)
    {type : RuleType} {key : QString} (h : type = .unauthenticatedUser → key = "")
    (actions : List QString) (allow : Bool) :
    ∀ r ∈ (v.addRules type key actions allow).accessRules, Keyless r := by
  intro r hr
  rcases List.mem_append.mp hr with hr | hr
  · exact hv r hr
  · obtain ⟨act, -, rfl⟩ := List.mem_map.mp hr
    exact h

lemma keyless_call {v : TAccessValidator} (hv : ∀ r ∈ v.accessRules, Keyless r) (call : Call) :
    ∀ r ∈ (v.call call).accessRules, Keyless r := by
  cases call with
  | setAllowDefault allow => exact hv
  | setDenyDefault deny => exact hv
  | setAllowGroup groupKey action => exact keyless_addRule hv (by simp) action true
  | setAllowGroupList groupKey actions => exact keyless_addRules hv (by simp) actions true
  | setDenyGroup groupKey action => exact keyless_addRule hv (by simp) action false
  | setDenyGroupList groupKey actions => exact keyless_addRules hv (by simp) actions false
  | setAllowUser identityKey action => exact keyless_addRule hv (by simp) action true
  | setAllowUserList identityKey actions => exact keyless_addRules hv (by simp) actions true
  | setDenyUser identityKey action => exact keyless_addRule hv (by simp) action false
  | setDenyUserList identityKey actions => exact keyless_addRules hv (by simp) actions false
  | setAllowUnauthenticatedUser action => exact keyless_addRule hv (fun _ => rfl) action true
  | setAllowUnauthenticatedUserList actions => exact keyless_addRules hv (fun _ => rfl) actions true
  | setDenyUnauthenticatedUser action => exact keyless_addRule hv (fun _ => rfl) action false
  | setDenyUnauthenticatedUserList actions => exact keyless_addRules hv (fun _ => rfl) actions false
  | clear =>
    intro r hr
    cases hr

lemma keyless_built (calls : List Call) : ∀ r ∈ (built calls).accessRules, Keyless r := by
  suffices h : ∀ v : TAccessValidator, (∀ r ∈ v.accessRules, Keyless r) →
      ∀ r ∈ (calls.foldl TAccessValidator.call v).accessRules, Keyless r from
    h .new fun r hr => by cases hr
  induction calls with
  | nil => exact fun v hv => hv
  | cons call calls ih => exact fun v hv => ih _ (keyless_call hv call)

/-! ### The first rule that fits -/

lemma fits_iff (h : Keyless rule) :
    fits action user rule = true ↔ Counts action user rule ∨ Misread action user rule := by
  obtain ⟨type, key, act, allow⟩ := rule
  have hempty : user.groupKey.isEmpty = false ↔ user.groupKey ≠ "" := by
    rw [← Bool.not_eq_true, String.isEmpty_iff]
  cases type with
  | group =>
    simp only [fits, Counts, Misread, Bool.and_eq_true, Bool.or_eq_true, decide_eq_true_eq,
      Bool.not_eq_true', hempty]
    tauto
  | user =>
    simp only [fits, Counts, Misread, Bool.and_eq_true, Bool.or_eq_true, decide_eq_true_eq,
      Bool.not_eq_true', hempty]
    by_cases hu : user.groupKey = user.identityKey
    · rw [hu]
      tauto
    · tauto
  | unauthenticatedUser =>
    obtain rfl : key = "" := h rfl
    simp only [fits, Counts, Misread, Bool.and_eq_true, Bool.or_eq_true, decide_eq_true_eq,
      Bool.not_eq_true', hempty]
    constructor
    · rintro ⟨-, ⟨htype, -⟩ | ⟨hne, hkey⟩⟩
      · cases htype
      · exact absurd hkey.symm hne
    · rintro (⟨-, ⟨htype, -⟩ | ⟨htype, -, -⟩⟩ | ⟨-, htype, -, -⟩)
      · cases htype
      · cases htype
      · cases htype

lemma not_counts_of_misread (h : Misread action user rule) : ¬ Counts action user rule := by
  obtain ⟨-, htype, hkey, -, hne⟩ := h
  rintro ⟨-, ⟨-, hu⟩ | ⟨hgroup, -⟩⟩
  · exact hne (hkey.symm.trans hu)
  · rw [htype] at hgroup
    cases hgroup

lemma decision_cons_counts (h : Counts action user rule) :
    decision action user default (rule :: rules) = rule.allow := by
  rw [decision, List.find?_cons_of_pos (by simpa using h)]
  rfl

lemma decision_cons (h : ¬ Counts action user rule) :
    decision action user default (rule :: rules) = decision action user default rules := by
  rw [decision, List.find?_cons_of_neg (by simpa using h), decision]

lemma undisturbed_cons :
    Undisturbed action user default (rule :: rules) ↔
      (Misread action user rule → rule.allow = decision action user default rules) ∧
        (¬ Counts action user rule → ¬ Misread action user rule →
          Undisturbed action user default rules) := by
  constructor
  · intro h
    refine ⟨fun hmis => h [] rule rules rfl hmis fun r hr => (by cases hr), ?_⟩
    intro hcounts hmis before r behind hsplit hr hbefore
    refine h (rule :: before) r behind (by rw [hsplit]; rfl) hr fun x hx => ?_
    rcases List.mem_cons.mp hx with rfl | hx
    · exact ⟨hcounts, hmis⟩
    · exact hbefore x hx
  · rintro ⟨hfirst, hrest⟩ before r behind hsplit hr hbefore
    cases before with
    | nil =>
      obtain ⟨rfl, rfl⟩ := List.cons.inj hsplit
      exact hfirst hr
    | cons x before =>
      obtain ⟨rfl, htail⟩ := List.cons.inj hsplit
      obtain ⟨hx, hbefore⟩ := List.forall_mem_cons.mp hbefore
      exact hrest hx.1 hx.2 before r behind htail hr hbefore

/-- **The loop of `validate`** decides as the first rule that counts does exactly when it is not
disturbed. -/
lemma search_iff (h : ∀ r ∈ rules, Keyless r) :
    search (fits action user) default rules = decision action user default rules ↔
      Undisturbed action user default rules := by
  induction rules with
  | nil =>
    refine iff_of_true rfl fun before rule behind hsplit => ?_
    exact absurd hsplit.symm (List.append_ne_nil_of_right_ne_nil _ (List.cons_ne_nil _ _))
  | cons rule rules ih =>
    obtain ⟨hrule, hrules⟩ := List.forall_mem_cons.mp h
    rw [undisturbed_cons, search]
    by_cases hcounts : Counts action user rule
    · rw [if_pos ((fits_iff hrule).mpr (.inl hcounts)), decision_cons_counts hcounts]
      exact iff_of_true rfl
        ⟨fun hmis => absurd hcounts (not_counts_of_misread hmis), fun hnot => absurd hcounts hnot⟩
    · rw [decision_cons hcounts]
      by_cases hmis : Misread action user rule
      · rw [if_pos ((fits_iff hrule).mpr (.inr hmis))]
        exact ⟨fun heq => ⟨fun _ => heq, fun _ hnot => absurd hmis hnot⟩, fun h => h.1 hmis⟩
      · have hnot : ¬ fits action user rule = true := fun hfits =>
          ((fits_iff hrule).mp hfits).elim hcounts hmis
        rw [if_neg hnot, ih hrules]
        exact ⟨fun hrest => ⟨fun h => absurd h hmis, fun _ _ => hrest⟩, fun h => h.2 hcounts hmis⟩

lemma validate_some (v : TAccessValidator) (hauth : user.identityKey ≠ "") :
    v.validate action (some user) = search (fits action user) v.allowDefault v.accessRules := by
  have hne : user.identityKey.isEmpty = false := by
    rw [← Bool.not_eq_true, String.isEmpty_iff]
    exact hauth
  unfold TAccessValidator.validate
  split
  · next hempty =>
    rw [List.isEmpty_iff.mp hempty]
    rfl
  · simp [hne]

/-! ### Rules for others -/

lemma own_of_counts (h : Counts action user rule) : own user rule = true := by
  obtain ⟨-, ⟨htype, hkey⟩ | ⟨htype, hkey, -⟩⟩ := h <;> simp [own, htype, hkey]

lemma decision_filter_own :
    decision action user default (rules.filter (own user)) =
      decision action user default rules := by
  induction rules with
  | nil => rfl
  | cons rule rules ih =>
    by_cases hcounts : Counts action user rule
    · rw [List.filter_cons_of_pos (own_of_counts hcounts), decision_cons_counts hcounts,
        decision_cons_counts hcounts]
    · rw [decision_cons hcounts, ← ih]
      by_cases hown : own user rule = true
      · rw [List.filter_cons_of_pos hown, decision_cons hcounts]
      · rw [List.filter_cons_of_neg hown]

lemma Agree.decision_eq {v w : TAccessValidator} (h : Agree user v w) :
    decision action user v.allowDefault v.accessRules =
      decision action user w.allowDefault w.accessRules := by
  rw [← decision_filter_own, h.2, h.1, decision_filter_own]

/-- **The right rule decides** for an authenticated user exactly when no rule for a user with the
name of his group comes before it and decides otherwise. Rules for others then make no
difference. -/
theorem validate_iff (calls : List Call) (action : QString) (user : TAbstractUser)
    (hauth : user.identityKey ≠ "") :
    ((built calls).validate action (some user) =
        decision action user (built calls).allowDefault (built calls).accessRules ↔
      Undisturbed action user (built calls).allowDefault (built calls).accessRules) ∧
    ∀ calls', Agree user (built calls) (built calls') →
      Undisturbed action user (built calls).allowDefault (built calls).accessRules →
      Undisturbed action user (built calls').allowDefault (built calls').accessRules →
      (built calls).validate action (some user) = (built calls').validate action (some user) := by
  simp only [validate_some _ hauth]
  refine ⟨search_iff (keyless_built calls), fun calls' hagree h h' => ?_⟩
  rw [(search_iff (keyless_built calls)).mpr h, (search_iff (keyless_built calls')).mpr h',
    hagree.decision_eq]

def teamLead : TAbstractUser := ⟨"ann", "lead"⟩

/-- The rule for the group comes first. -/
theorem validate_iff_teamLead :
    (built [.setAllowGroup "lead" "index", .setDenyUserList "lead" ["index"]]).validate "index"
      (some teamLead) = true := by
  obtain ⟨h, -⟩ := validate_iff [.setAllowGroup "lead" "index", .setDenyUserList "lead" ["index"]]
    "index" teamLead (by decide)
  have hright := h.mpr <| undisturbed_cons.mpr
    ⟨fun hmis => (by cases hmis.2.1), fun hnot => absurd (by decide) hnot⟩
  exact hright

/-- Denying a page to the user "lead" denies it to the members of the group of that name. -/
theorem not_validate_teamLead :
    ¬ ∀ (calls : List Call) (action : QString) (user : TAbstractUser), user.identityKey ≠ "" →
      (built calls).validate action (some user) =
        decision action user (built calls).allowDefault (built calls).accessRules := by
  intro h
  have hdecides := h [.setDenyUser "lead" "index", .setAllowGroup "lead" "index"] "index" teamLead
    (by decide)
  exact absurd hdecides (by decide +kernel)

end TreeFrog.AccessValidator
