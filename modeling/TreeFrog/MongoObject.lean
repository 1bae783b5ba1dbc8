import Mathlib.Data.String.Basic
import TreeFrog.SortedMap
import TreeFrog.SqlUpdate

/-!
`TMongoObject`: an object with the properties of its class and the document they came from.
`update` writes the properties over the document of the same id and revision, `remove` removes
it. Both rebuild or clear the document of the object whatever comes of the write.
-/

namespace TreeFrog.MongoObject

open MetaObject SqlRecord
open SqlObject (Outcome setProperty)
open SqlUpdate (revisionOf)

abbrev QVariantMap (V : Type) := List (String × V)

/-- What a subclass fixes. -/
structure MongoClass where
  metaObject : QMetaObject
  collectionName : String

def MongoClass.ownProperties (cls : MongoClass) : List QMetaProperty :=
  cls.metaObject.properties.drop cls.metaObject.propertyOffset

structure TMongoObject (V : Type) where
  property : String → V
  document : QVariantMap V
  objectId : String

/-- A value of the criteria of a write. -/
inductive Key where
  | int (n : ℤ)
  | text (s : String)
  deriving DecidableEq

abbrev Criteria := List (String × Key)

/-- The loop of `fieldNameToVariableName`, at its start or behind it. -/
def variableLoop (existsUnders : Bool) : Bool → Bool → List Char → List Char
  | _, _, [] => []
  | first, existsLower, c :: cs =>
    if c = '_' then
      if first then variableLoop existsUnders false existsLower cs
      else
        match cs with
        | [] => []
        | d :: cs => d.toUpper :: variableLoop existsUnders false existsLower cs
    else
      let existsLower := existsLower || c.isLower
      (if existsLower && !existsUnders then c else c.toLower) ::
        variableLoop existsUnders false existsLower cs

/-- `TAbstractModel::fieldNameToVariableName`. -/
def fieldNameToVariableName (name : String) : String :=
  String.ofList (variableLoop (name.toList.contains '_') true false name.toList)

example : fieldNameToVariableName "lock_revision" = "lockRevision" := by decide +kernel

def isUpdated (prop : String) : Bool := prop = "updatedAt" || prop = "modifiedAt"

def isLock (prop : String) : Bool := prop = "lockRevision"

/-- The property that is taken for the revision. -/
def lockProperty (qs : List QMetaProperty) : Option QMetaProperty :=
  qs.find? fun q => isLock (fieldNameToVariableName q.name)

variable {V : Type} [Variant V]

/-- The loop of `update`: one time stamp, and the revision, of which the loop returns the name
and the old value. An error leaves the properties set so far. -/
def stampLoop (now : V) : List QMetaProperty → Bool → (String → V) → Option (String × ℤ) →
    Except (String → V) ((String → V) × Option (String × ℤ))
  | [], _, p, revision => .ok (p, revision)
  | q :: qs, updflag, p, revision =>
    let prop := fieldNameToVariableName q.name
    if !updflag && isUpdated prop then stampLoop now qs true (setProperty p q.name now) revision
    else if revision.isNone && isLock prop then
      match Variant.toInt (p q.name) with
      | none => .error p
      | some oldRevision =>
        if oldRevision ≤ 0 then .error p
        else
          stampLoop now qs updflag (setProperty p q.name (Variant.ofInt (oldRevision + 1)))
            (some (q.name, oldRevision))
    else stampLoop now qs updflag p revision

/-- The document `syncToVariantMap` makes of the properties. -/
def documentOf (cls : MongoClass) (p : String → V) : QVariantMap V :=
  SortedMap.ofList (cls.ownProperties.map fun q => (q.name, p q.name))

def syncToVariantMap (cls : MongoClass) (o : TMongoObject V) : TMongoObject V :=
  { o with document := documentOf cls o.property }

def isNull (o : TMongoObject V) : Bool := o.objectId = ""

def criteria (revision : Option (String × ℤ)) (objectId : String) : Criteria :=
  let cri : Criteria := revision.toList.map fun r => (r.1, Key.int r.2)
  SortedMap.insert "_id" (.text objectId) cri

/-- `update`, at the time `now`. `write` is the result of the write and the number of documents
affected. -/
def update (cls : MongoClass) (now : V) (write : Criteria → QVariantMap V → Bool × ℤ)
    (o : TMongoObject V) : Outcome × TMongoObject V :=
  if isNull o then (.returned false, o)
  else
    match stampLoop now cls.ownProperties false o.property none with
    | .error p => (.returned false, { o with property := p })
    | .ok (p, revision) =>
      let o := syncToVariantMap cls { o with property := p }
      let result := write (criteria revision o.objectId) o.document
      if revision.isSome ∧ result.2 ≠ 1 then
        (.thrown ("Doc was updated or deleted from table " ++ cls.collectionName), o)
      else (.returned result.1, o)

/-- `remove`. -/
def remove (cls : MongoClass) (write : Criteria → Bool × ℤ) (o : TMongoObject V) :
    Outcome × TMongoObject V :=
  if isNull o then (.returned false, o)
  else
    let lock := lockProperty cls.ownProperties
    let revision := lock.bind fun q => Variant.toInt (o.property q.name)
    if lock.isSome ∧ revision.all (· ≤ 0) then (.returned false, o)
    else
      let locks := lock.map fun q => (q.name, revision.getD 0)
      let result := write (criteria locks o.objectId)
      let o := { o with document := [] }
      if result.2 ≠ 1 ∧ lock.isSome then
        (.thrown ("Doc was updated or deleted from collection " ++ cls.collectionName), o)
      else (.returned result.1, o)

/-! ### The loop -/

/-- The property that is stamped with the time. -/
def updatedProperty (qs : List QMetaProperty) : Option QMetaProperty :=
  qs.find? fun q => isUpdated (fieldNameToVariableName q.name)

lemma isUpdated_of_isLock {prop : String} (h : isLock prop = true) : isUpdated prop = false := by
  obtain rfl : prop = "lockRevision" := by simpa [isLock] using h
  decide

lemma isLock_lockProperty {qs : List QMetaProperty} {q : QMetaProperty}
    (h : lockProperty qs = some q) : isLock (fieldNameToVariableName q.name) = true := by
  have hlock := List.find?_some h
  exact hlock

/-- The properties with the time stamped on the first for it, unless that is done. -/
def stampTime (now : V) (qs : List QMetaProperty) (updflag : Bool) (p : String → V) : String → V :=
  if updflag then p else ((updatedProperty qs).map fun q => setProperty p q.name now).getD p

section
variable {now : V} {q : QMetaProperty} {qs : List QMetaProperty} {updflag : Bool} {p : String → V}
  {r : Option (String × ℤ)}

omit [Variant V] in
lemma stampTime_of_not {n : String} (h : isUpdated (fieldNameToVariableName n) = false) :
    stampTime now qs updflag p n = p n := by
  cases hfind : updatedProperty qs with
  | none => cases updflag <;> simp [stampTime, hfind]
  | some q =>
    have hq : isUpdated (fieldNameToVariableName q.name) = true := by
      have hupdated := List.find?_some hfind
      exact hupdated
    have hne : n ≠ q.name := by
      rintro rfl
      rw [hq] at h
      cases h
    cases updflag <;> simp [stampTime, hfind, setProperty, hne]

omit [Variant V] in
lemma stampTime_setProperty {name : String}
    (h : isUpdated (fieldNameToVariableName name) = false) (v : V) :
    stampTime now qs updflag (setProperty p name v) =
      setProperty (stampTime now qs updflag p) name v := by
  funext n
  by_cases hn : n = name
  · subst hn
    rw [stampTime_of_not h]
    simp [setProperty]
  · cases hfind : updatedProperty qs <;> cases updflag <;>
      simp [stampTime, hfind, setProperty, hn, Function.update_apply]

omit [Variant V] in
lemma stampTime_append (rs : List QMetaProperty) :
    stampTime now (qs ++ rs) updflag p =
      stampTime now rs (updflag || (updatedProperty qs).isSome) (stampTime now qs updflag p) := by
  cases updflag with
  | true => rfl
  | false =>
    cases hfind : updatedProperty qs with
    | none =>
      have hrest : updatedProperty (qs ++ rs) = updatedProperty rs := by
        rw [updatedProperty, List.find?_append, ← updatedProperty, hfind]
        rfl
      simp [stampTime, hfind, hrest]
    | some q =>
      have hfirst : updatedProperty (qs ++ rs) = some q := by
        rw [updatedProperty, List.find?_append, ← updatedProperty, hfind]
        rfl
      simp [stampTime, hfind, hfirst]

lemma stampLoop_cons_other
    (h : (r.isNone && isLock (fieldNameToVariableName q.name)) = false) :
    stampLoop now (q :: qs) updflag p r =
      stampLoop now qs (updflag || (updatedProperty [q]).isSome) (stampTime now [q] updflag p)
        r := by
  cases updflag with
  | true => simp [stampLoop, h, stampTime]
  | false =>
    cases hq : isUpdated (fieldNameToVariableName q.name) <;>
      simp [stampLoop, h, hq, stampTime, updatedProperty]

lemma stampLoop_append
    (h : r.isNone = true → ∀ q ∈ qs, isLock (fieldNameToVariableName q.name) = false)
    (rs : List QMetaProperty) :
    stampLoop now (qs ++ rs) updflag p r =
      stampLoop now rs (updflag || (updatedProperty qs).isSome) (stampTime now qs updflag p) r := by
  induction qs generalizing updflag p with
  | nil => cases updflag <;> rfl
  | cons q qs ih =>
    have hlock : (r.isNone && isLock (fieldNameToVariableName q.name)) = false := by
      cases hr : r.isNone with
      | true => simp [h hr q (by simp)]
      | false => rfl
    have hflag : (updatedProperty (q :: qs)).isSome =
        ((updatedProperty [q]).isSome || (updatedProperty qs).isSome) := by
      cases hq : isUpdated (fieldNameToVariableName q.name) <;>
        simp [updatedProperty, hq]
    rw [List.cons_append, stampLoop_cons_other hlock,
      ih fun hr s hs => h hr s (List.mem_cons_of_mem _ hs), ← stampTime_append,
      List.singleton_append, hflag, Bool.or_assoc]

lemma stampLoop_no_lock
    (h : r.isNone = true → ∀ q ∈ qs, isLock (fieldNameToVariableName q.name) = false) :
    stampLoop now qs updflag p r = .ok (stampTime now qs updflag p, r) := by
  have hrun : stampLoop now (qs ++ []) updflag p r =
      .ok (stampTime now qs updflag p, r) := stampLoop_append h []
  rwa [List.append_nil] at hrun

/-- What the loop does when it comes to the revision `v`. -/
def stampRevision (now : V) (lock : String) (v : V) (updflag : Bool) (p : String → V)
    (rest : List QMetaProperty) : Except (String → V) ((String → V) × Option (String × ℤ)) :=
  match Variant.toInt v with
  | none => .error p
  | some oldRevision =>
    if oldRevision ≤ 0 then .error p
    else
      stampLoop now rest updflag (setProperty p lock (Variant.ofInt (oldRevision + 1)))
        (some (lock, oldRevision))

lemma stampLoop_cons_lock (h : isLock (fieldNameToVariableName q.name) = true) :
    stampLoop now (q :: qs) updflag p none =
      stampRevision now q.name (p q.name) updflag p qs := by
  simp only [stampLoop, isUpdated_of_isLock h, h, Bool.and_false, Bool.false_eq_true, if_false,
    Option.isNone_none, Bool.and_self, if_true]
  rfl

lemma stampLoop_eq_stampRevision (now : V) (updflag : Bool) (p : String → V)
    {lock : QMetaProperty} (h : lockProperty qs = some lock) :
    ∃ before rest, qs = before ++ lock :: rest ∧
      stampLoop now qs updflag p none =
        stampRevision now lock.name (p lock.name) (updflag || (updatedProperty before).isSome)
          (stampTime now before updflag p) rest := by
  have hlock := isLock_lockProperty h
  obtain ⟨-, before, rest, rfl, hbefore⟩ := List.find?_eq_some_iff_append.mp h
  refine ⟨before, rest, rfl, ?_⟩
  rw [stampLoop_append (fun _ => by simpa using hbefore), stampLoop_cons_lock hlock,
    stampTime_of_not (isUpdated_of_isLock hlock)]

lemma stampLoop_refused (now : V) (updflag : Bool) {lock : QMetaProperty}
    (h : lockProperty qs = some lock) (hnone : revisionOf (p lock.name) = none) :
    ∃ p', stampLoop now qs updflag p none = .error p' ∧
      ∀ n, isUpdated (fieldNameToVariableName n) = false → p' n = p n := by
  obtain ⟨before, rest, -, hrun⟩ := stampLoop_eq_stampRevision now updflag p h
  refine ⟨stampTime now before updflag p, ?_, fun n hn => stampTime_of_not hn⟩
  rw [hrun]
  cases hold : Variant.toInt (p lock.name) with
  | none => rw [stampRevision, hold]
  | some old =>
    have hpos : old ≤ 0 := by simpa [revisionOf, hold] using hnone
    simp only [stampRevision, hold, if_pos hpos]

lemma stampLoop_counted (now : V) (updflag : Bool) {lock : QMetaProperty} {old : ℤ}
    (h : lockProperty qs = some lock) (hold : revisionOf (p lock.name) = some old) :
    stampLoop now qs updflag p none =
      .ok (setProperty (stampTime now qs updflag p) lock.name (Variant.ofInt (old + 1)),
        some (lock.name, old)) := by
  have hlock := isUpdated_of_isLock (isLock_lockProperty h)
  obtain ⟨before, rest, rfl, hrun⟩ := stampLoop_eq_stampRevision now updflag p h
  obtain ⟨hint, hpos⟩ : Variant.toInt (p lock.name) = some old ∧ 0 < old := by
    simpa [revisionOf] using hold
  have hnone : updatedProperty [lock] = none := by simp [updatedProperty, hlock]
  have hkeep : ∀ (flag : Bool) (p : String → V), stampTime now [lock] flag p = p := by
    intro flag p
    cases flag <;> simp [stampTime, hnone]
  have hsplit : stampTime now (before ++ lock :: rest) updflag p =
      stampTime now rest (updflag || (updatedProperty before).isSome)
        (stampTime now before updflag p) := by
    rw [stampTime_append, ← List.singleton_append, stampTime_append, hkeep, hnone]
    simp
  rw [hrun]
  simp only [stampRevision, hint, if_neg (not_le.mpr hpos)]
  rw [stampLoop_no_lock (by simp), stampTime_setProperty hlock, hsplit]

end

/-! ### Calls that fail -/

/-- The document and the properties for a revision are the same. -/
structure Unchanged (cls : MongoClass) (o after : TMongoObject V) : Prop where
  document : after.document = o.document
  revision : ∀ q ∈ cls.ownProperties, isLock (fieldNameToVariableName q.name) = true →
    after.property q.name = o.property q.name

/-- The revision, if there is a property for it, is one. -/
def Revised (cls : MongoClass) (o : TMongoObject V) : Prop :=
  ∀ lock, lockProperty cls.ownProperties = some lock →
    (revisionOf (o.property lock.name)).isSome = true

/-- Nothing is to be written: the document has the properties already, with the time `now`, and
there is no revision to count up. -/
structure Idle (cls : MongoClass) (now : V) (o : TMongoObject V) : Prop where
  revision : ∀ lock old, lockProperty cls.ownProperties = some lock →
    revisionOf (o.property lock.name) = some old →
    (Variant.ofInt (old + 1) : V) = o.property lock.name
  document : o.document = documentOf cls (stampTime now cls.ownProperties false o.property)

section
variable {cls : MongoClass} {now : V} {o : TMongoObject V}

lemma update_of_not_revised (now : V) (h : ¬ Revised cls o)
    (write : Criteria → QVariantMap V → Bool × ℤ) :
    Unchanged cls o (update cls now write o).2 := by
  cases hnull : isNull o with
  | true =>
    rw [update, if_pos hnull]
    exact ⟨rfl, fun q _ _ => rfl⟩
  | false =>
    have hlocked : ∃ lock, lockProperty cls.ownProperties = some lock ∧
        revisionOf (o.property lock.name) = none := by
      simpa [Revised] using h
    obtain ⟨lock, hlock, hnone⟩ := hlocked
    obtain ⟨p', hrun, hkeep⟩ := stampLoop_refused now false hlock hnone
    rw [update, hnull, hrun]
    exact ⟨rfl, fun q _ hq => hkeep q.name (isUpdated_of_isLock hq)⟩

lemma update_of_revised (now : V) (hnull : isNull o = false) (h : Revised cls o)
    (write : Criteria → QVariantMap V → Bool × ℤ) :
    ∃ p', (update cls now write o).2 = { o with property := p', document := documentOf cls p' } ∧
      (lockProperty cls.ownProperties = none →
        p' = stampTime now cls.ownProperties false o.property) ∧
      ∀ lock old, lockProperty cls.ownProperties = some lock →
        revisionOf (o.property lock.name) = some old →
        p' = setProperty (stampTime now cls.ownProperties false o.property) lock.name
          (Variant.ofInt (old + 1)) := by
  have hwritten : ∀ (p' : String → V) (r : Option (String × ℤ)),
      stampLoop now cls.ownProperties false o.property none = .ok (p', r) →
      (update cls now write o).2 = { o with property := p', document := documentOf cls p' } := by
    intro p' r hrun
    rw [update, hnull, hrun]
    simp only [Bool.false_eq_true, if_false]
    split <;> rfl
  cases hlock : lockProperty cls.ownProperties with
  | none =>
    have hnone : ∀ q ∈ cls.ownProperties, isLock (fieldNameToVariableName q.name) = false := by
      simpa [lockProperty] using hlock
    exact ⟨_, hwritten _ _ (stampLoop_no_lock fun _ => hnone), fun _ => rfl, nofun⟩
  | some lock =>
    obtain ⟨old, hold⟩ := Option.isSome_iff_exists.mp (h lock hlock)
    refine ⟨_, hwritten _ _ (stampLoop_counted now false hlock hold), nofun, ?_⟩
    rintro _ k ⟨⟩ hk
    rw [hold] at hk
    rw [Option.some.inj hk]

/-- **An update that comes to the write** leaves the object as it was if there is nothing to
write. -/
lemma unchanged_update_iff (hnull : isNull o = false) (h : Revised cls o)
    (write : Criteria → QVariantMap V → Bool × ℤ) :
    Unchanged cls o (update cls now write o).2 ↔ Idle cls now o := by
  obtain ⟨p', hafter, hnone, hsome⟩ := update_of_revised now hnull h write
  rw [hafter]
  have hlocked : ∀ lock old, lockProperty cls.ownProperties = some lock →
      revisionOf (o.property lock.name) = some old →
      p' lock.name = Variant.ofInt (old + 1) := by
    intro lock old hlock hold
    rw [hsome lock old hlock hold]
    simp [setProperty]
  -- what is stamped is all that changes, where the revision is what it was
  have hidle : (∀ lock old, lockProperty cls.ownProperties = some lock →
      revisionOf (o.property lock.name) = some old →
      (Variant.ofInt (old + 1) : V) = o.property lock.name) →
      p' = stampTime now cls.ownProperties false o.property := by
    intro hsame
    cases hlock : lockProperty cls.ownProperties with
    | none => exact hnone hlock
    | some lock =>
      obtain ⟨old, hold⟩ := Option.isSome_iff_exists.mp (h lock hlock)
      have hkeep : stampTime now cls.ownProperties false o.property lock.name =
          o.property lock.name :=
        stampTime_of_not (isUpdated_of_isLock (isLock_lockProperty hlock))
      rw [hsome lock old hlock hold, hsame lock old hlock hold, setProperty, ← hkeep,
        Function.update_eq_self]
  constructor
  · intro hu
    have hsame : ∀ lock old, lockProperty cls.ownProperties = some lock →
        revisionOf (o.property lock.name) = some old →
        (Variant.ofInt (old + 1) : V) = o.property lock.name := by
      intro lock old hlock hold
      rw [← hlocked lock old hlock hold]
      exact hu.revision lock (List.mem_of_find?_eq_some hlock) (isLock_lockProperty hlock)
    refine ⟨hsame, ?_⟩
    rw [← hidle hsame]
    exact hu.document.symm
  · intro hi
    have hp := hidle hi.revision
    refine ⟨?_, fun q _ hq => ?_⟩
    · rw [hi.document, ← hp]
    · simp only [hp]
      exact stampTime_of_not (isUpdated_of_isLock hq)

lemma remove_cases (hnull : isNull o = false) (write : Criteria → Bool × ℤ) :
    (¬ Revised cls o → (remove cls write o).2 = o) ∧
      (Revised cls o → (remove cls write o).2 = { o with document := [] }) := by
  have hrevised : Revised cls o ↔ ¬ ((lockProperty cls.ownProperties).isSome ∧
      ((lockProperty cls.ownProperties).bind fun q => Variant.toInt (o.property q.name)).all
        (· ≤ 0) = true) := by
    cases hlock : lockProperty cls.ownProperties with
    | none => simp [Revised, hlock]
    | some lock => cases hold : Variant.toInt (o.property lock.name) <;>
        simp [Revised, hlock, revisionOf, hold]
  constructor
  · intro h
    rw [hrevised, not_not] at h
    rw [remove, hnull]
    simp only [Bool.false_eq_true, if_false]
    rw [if_pos h]
  · intro h
    rw [hrevised] at h
    rw [remove, hnull]
    simp only [Bool.false_eq_true, if_false]
    rw [if_neg h]
    split <;> rfl

/-- **A call that fails** leaves the object as it was exactly if it is refused before the write,
or has nothing to write or to clear. -/
theorem unchanged_of_failed_iff (cls : MongoClass) (now : V) (o : TMongoObject V) :
    (∀ write, (update cls now write o).1 ≠ .returned true →
      (Unchanged cls o (update cls now write o).2 ↔
        isNull o = true ∨ ¬ Revised cls o ∨ Idle cls now o)) ∧
    ∀ write, (remove cls write o).1 ≠ .returned true →
      (Unchanged cls o (remove cls write o).2 ↔
        isNull o = true ∨ ¬ Revised cls o ∨ o.document = []) := by
  have hsame : Unchanged cls o o := ⟨rfl, fun q _ _ => rfl⟩
  cases hnull : isNull o with
  | true =>
    refine ⟨fun write _ => ?_, fun write _ => ?_⟩
    · rw [update, if_pos hnull]
      simpa using hsame
    · rw [remove, if_pos hnull]
      simpa using hsame
  | false =>
    by_cases h : Revised cls o
    · refine ⟨fun write _ => ?_, fun write _ => ?_⟩
      · simpa [h] using unchanged_update_iff hnull h write
      · rw [(remove_cases hnull write).2 h]
        have hcleared : Unchanged cls o { o with document := [] } ↔ o.document = [] :=
          ⟨fun hu => hu.document.symm, fun hd => ⟨hd.symm, fun q _ _ => rfl⟩⟩
        simpa [h] using hcleared
    · refine ⟨fun write _ => ?_, fun write _ => ?_⟩
      · simpa [h] using update_of_not_revised now h write
      · rw [(remove_cases hnull write).1 h]
        simpa [h] using hsame

end

/-! ### A collection of pages -/

instance : Variant (Option ℤ) where
  null := none
  toInt := id
  ofInt := some
  toInt_ofInt _ _ _ := rfl

def page : MongoClass where
  metaObject := ⟨[⟨"objectName", 10⟩, ⟨"_id", 10⟩, ⟨"visits", 2⟩, ⟨"lockRevision", 2⟩], 1⟩
  collectionName := "page"

/-- A page of the revision 3. -/
def visited : TMongoObject (Option ℤ) where
  property n := if n = "lockRevision" then some 3 else some 0
  document := [("_id", some 0), ("lockRevision", some 3), ("visits", some 0)]
  objectId := "5f2a"

theorem unchanged_of_failed_iff_page :
    (Unchanged page visited (update page none (fun _ _ => (true, 0)) visited).2 ↔
      isNull visited = true ∨ ¬ Revised page visited ∨ Idle page none visited) ∧
    (Unchanged page visited (remove page (fun _ => (false, 0)) visited).2 ↔
      isNull visited = true ∨ ¬ Revised page visited ∨ visited.document = []) :=
  ⟨(unchanged_of_failed_iff page none visited).1 _ (by decide +kernel),
    (unchanged_of_failed_iff page none visited).2 _ (by decide +kernel)⟩

/-- A conflict leaves the next revision in the object, and an error of `remove` no document. -/
theorem not_unchanged_page :
    ¬ (∀ (cls : MongoClass) (now : Option ℤ) (o : TMongoObject (Option ℤ)) write,
        (update cls now write o).1 ≠ .returned true → Unchanged cls o (update cls now write o).2) ∧
    ¬ ∀ (cls : MongoClass) (o : TMongoObject (Option ℤ)) write,
        (remove cls write o).1 ≠ .returned true → Unchanged cls o (remove cls write o).2 := by
  constructor
  · intro h
    have hunchanged := h page none visited (fun _ _ => (true, 0)) (by decide +kernel)
    have hrevision := hunchanged.revision ⟨"lockRevision", 2⟩
      (by simp [MongoClass.ownProperties, page]) (by decide +kernel)
    revert hrevision
    decide +kernel
  · intro h
    have hunchanged := h page visited (fun _ => (false, 0)) (by decide +kernel)
    have hdocument := hunchanged.document
    revert hdocument
    decide +kernel

end TreeFrog.MongoObject
