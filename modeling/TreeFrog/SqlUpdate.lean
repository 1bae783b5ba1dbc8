import TreeFrog.SqlObject

/-!
What `update` does with an object whose revision property is the one of its record: the
statement it executes, the row after it, and the object that is left, whatever comes of the
statement.
-/

namespace TreeFrog.SqlUpdate

open MetaObject SqlRecord SqlObject

variable {V : Type} [Variant V] {cls : SqlClass}

def names (cls : SqlClass) : List String := cls.ownProperties.map QMetaProperty.name

def IsKey (cls : SqlClass) (n : String) : Prop :=
  ∃ idx ∈ cls.primaryKeyIndexList, (cls.keyProperty idx).name = n

/-- The class has the property `lock` for the revision of its table, no two properties are one
column, and a property is spelled as its column is. -/
structure Mapped (cls : SqlClass) (lock : String) : Prop where
  same : ∀ m ∈ names cls, ∀ n ∈ names cls, Same m n → m = n
  column : ∀ n ∈ names cls, ∀ c ∈ cls.columns, Same c n → c = n
  lock_mem : lock ∈ names cls
  lock_name : isLock lock.toLower = true
  lock_column : lock ∈ cls.columns
  lock_not_key : ¬ IsKey cls lock

/-- A property whose position in the meta object is in the list of keys is a key. -/
def KeysAligned (cls : SqlClass) : Prop :=
  ∀ i : ℕ, cls.metaObject.propertyOffset ≤ i → (i : ℤ) ∈ cls.primaryKeyIndexList →
    (i : ℤ) - cls.metaObject.propertyOffset ∈ cls.primaryKeyIndexList

def isStamped (n : String) : Bool := isTime n.toLower || isUser n.toLower || isLock n.toLower

/-! ### The loops -/

lemma not_isTime_of_isLock {s : String} (h : isLock s = true) :
    isTime s = false ∧ isUser s = false := by
  obtain rfl : s = "lock_revision" := by simpa [isLock] using h
  decide

/-- The properties that `update` stamps with the time or the user. -/
def Stamps (qs : List QMetaProperty) (n : String) : Prop :=
  n ∈ qs.map QMetaProperty.name ∧ (isTime n.toLower || isUser n.toLower) = true

instance (qs : List QMetaProperty) (n : String) : Decidable (Stamps qs n) :=
  inferInstanceAs (Decidable (_ ∧ _))

/-- The properties with the time and the user stamped on those of `qs`. -/
def stampAll (now user : V) (qs : List QMetaProperty) (p : String → V) (n : String) : V :=
  if Stamps qs n then (if isTime n.toLower then now else user) else p n

lemma not_stamps_of_isStamped {n : String} (h : isStamped n = false) (qs : List QMetaProperty) :
    ¬ Stamps qs n := by
  simp only [isStamped, Bool.or_eq_false_iff] at h
  simp [Stamps, h.1.1, h.1.2]

lemma not_stamps_of_isLock {n : String} (h : isLock n.toLower = true) (qs : List QMetaProperty) :
    ¬ Stamps qs n := by
  simp [Stamps, not_isTime_of_isLock h]

lemma stamps_append {qs rs : List QMetaProperty} {n : String} :
    Stamps (qs ++ rs) n ↔ Stamps qs n ∨ Stamps rs n := by
  simp only [Stamps, List.map_append, List.mem_append, or_and_right]

section
variable {now user : V} {q : QMetaProperty} {qs : List QMetaProperty} {p : String → V}

omit [Variant V] in
lemma stampAll_of_not {n : String} (h : ¬ Stamps qs n) : stampAll now user qs p n = p n :=
  if_neg h

omit [Variant V] in
lemma stampAll_append (rs : List QMetaProperty) :
    stampAll now user (qs ++ rs) p = stampAll now user rs (stampAll now user qs p) := by
  funext n
  simp only [stampAll, stamps_append]
  by_cases hr : Stamps rs n <;> simp [hr]

omit [Variant V] in
lemma stampAll_setProperty {name : String} (h : ¬ Stamps qs name) (v : V) :
    stampAll now user qs (setProperty p name v) =
      setProperty (stampAll now user qs p) name v := by
  funext n
  by_cases hn : n = name
  · subst hn
    rw [stampAll_of_not h]
    simp [setProperty]
  · simp [stampAll, setProperty, hn]

lemma stampLoop_cons_other {r : Option (String × ℤ)}
    (hlock : (r.isNone && isLock q.name.toLower) = false) :
    stampLoop now user (q :: qs) p r = stampLoop now user qs (stampAll now user [q] p) r := by
  have hset : ∀ v, (isTime q.name.toLower || isUser q.name.toLower) = true →
      v = (if isTime q.name.toLower then now else user) →
        setProperty p q.name v = stampAll now user [q] p := by
    intro v hstamped hv
    funext n
    by_cases hn : n = q.name
    · subst hn
      simp [setProperty, stampAll, Stamps, hstamped, hv]
    · simp [setProperty, stampAll, Stamps, hn]
  cases htime : isTime q.name.toLower with
  | true => simp [stampLoop, htime, hset now]
  | false =>
    cases huser : isUser q.name.toLower with
    | true => simp [stampLoop, htime, huser, hset user]
    | false =>
      have hkeep : stampAll now user [q] p = p := by
        funext n
        refine stampAll_of_not fun hs => ?_
        obtain rfl : n = q.name := by simpa [Stamps] using hs.1
        simp [Stamps, htime, huser] at hs
      simp only [stampLoop, htime, huser, hlock, Bool.false_eq_true, if_false, hkeep]

lemma stampLoop_append {r : Option (String × ℤ)}
    (h : r.isNone = true → ∀ q ∈ qs, isLock q.name.toLower = false) (rs : List QMetaProperty) :
    stampLoop now user (qs ++ rs) p r = stampLoop now user rs (stampAll now user qs p) r := by
  induction qs generalizing p with
  | nil =>
    have hnil : stampAll now user [] p = p := funext fun n => stampAll_of_not (by simp [Stamps])
    rw [hnil, List.nil_append]
  | cons q qs ih =>
    have hlock : (r.isNone && isLock q.name.toLower) = false := by
      cases hr : r.isNone with
      | true => simp [h hr q (by simp)]
      | false => rfl
    rw [List.cons_append, stampLoop_cons_other hlock,
      ih fun hr s hs => h hr s (List.mem_cons_of_mem _ hs), ← stampAll_append,
      List.singleton_append]

lemma stampLoop_no_lock {r : Option (String × ℤ)}
    (h : r.isNone = true → ∀ q ∈ qs, isLock q.name.toLower = false) :
    stampLoop now user qs p r = .ok (stampAll now user qs p, r) := by
  have hrun : stampLoop now user (qs ++ []) p r =
      stampLoop now user [] (stampAll now user qs p) r := stampLoop_append h []
  rwa [List.append_nil] at hrun

end

/-- What the first loop does when it comes to the revision `v`. -/
def stampRevision (now user : V) (lock : String) (v : V) (p : String → V)
    (rest : List QMetaProperty) : Except (String → V) ((String → V) × Option (String × ℤ)) :=
  match Variant.toInt v with
  | none => .error p
  | some oldRevision =>
    if oldRevision ≤ 0 then .error p
    else
      stampLoop now user rest (setProperty p lock (Variant.ofInt (oldRevision + 1)))
        (some (lock, oldRevision))

lemma stampLoop_cons_lock {now user : V} {q : QMetaProperty} (h : isLock q.name.toLower = true)
    (qs : List QMetaProperty) (p : String → V) :
    stampLoop now user (q :: qs) p none = stampRevision now user q.name (p q.name) p qs := by
  obtain ⟨htime, huser⟩ := not_isTime_of_isLock h
  simp only [stampLoop, htime, huser, h, Bool.false_eq_true, if_false, Option.isNone_none,
    Bool.and_self, if_true]
  rfl

/-- The property the first loop takes for the revision. -/
def lockProperty (qs : List QMetaProperty) : Option QMetaProperty :=
  qs.find? fun q => isLock q.name.toLower

lemma isLock_lockProperty {qs : List QMetaProperty} {q : QMetaProperty}
    (h : lockProperty qs = some q) : isLock q.name.toLower = true := by
  have hlock := List.find?_some h
  exact hlock

/-- A revision the first loop takes. -/
def revisionOf (v : V) : Option ℤ := (Variant.toInt v).filter (0 < ·)

lemma stampLoop_of_none {now user : V} {qs : List QMetaProperty} (h : lockProperty qs = none)
    (p : String → V) : stampLoop now user qs p none = .ok (stampAll now user qs p, none) := by
  have hnone : ∀ q ∈ qs, isLock q.name.toLower = false := by simpa [lockProperty] using h
  exact stampLoop_no_lock fun _ => hnone

section
variable {qs : List QMetaProperty} {lock : QMetaProperty} {p : String → V}

lemma stampLoop_eq_stampRevision (now user : V) (p : String → V)
    (h : lockProperty qs = some lock) :
    ∃ before rest, qs = before ++ lock :: rest ∧
      stampLoop now user qs p none =
        stampRevision now user lock.name (p lock.name) (stampAll now user before p) rest := by
  have hlock := isLock_lockProperty h
  obtain ⟨-, before, rest, rfl, hbefore⟩ := List.find?_eq_some_iff_append.mp h
  refine ⟨before, rest, rfl, ?_⟩
  rw [stampLoop_append (fun _ => by simpa using hbefore), stampLoop_cons_lock hlock,
    stampAll_of_not (not_stamps_of_isLock hlock before)]

lemma stampLoop_refused (now user : V) (h : lockProperty qs = some lock)
    (hnone : revisionOf (p lock.name) = none) :
    ∃ before, (∀ n, Stamps before n → Stamps qs n) ∧
      stampLoop now user qs p none = .error (stampAll now user before p) := by
  obtain ⟨before, rest, rfl, hrun⟩ := stampLoop_eq_stampRevision now user p h
  refine ⟨before, fun n hn => stamps_append.mpr (.inl hn), ?_⟩
  rw [hrun]
  cases hold : Variant.toInt (p lock.name) with
  | none => rw [stampRevision, hold]
  | some old =>
    have hpos : old ≤ 0 := by simpa [revisionOf, hold] using hnone
    simp only [stampRevision, hold, if_pos hpos]

lemma stampLoop_counted (now user : V) {old : ℤ} (h : lockProperty qs = some lock)
    (hold : revisionOf (p lock.name) = some old) :
    stampLoop now user qs p none =
      .ok (setProperty (stampAll now user qs p) lock.name (Variant.ofInt (old + 1)),
        some (lock.name, old)) := by
  have hlock := isLock_lockProperty h
  obtain ⟨before, rest, rfl, hrun⟩ := stampLoop_eq_stampRevision now user p h
  obtain ⟨hint, hpos⟩ : Variant.toInt (p lock.name) = some old ∧ 0 < old := by
    simpa [revisionOf] using hold
  have hkeep : ∀ p : String → V, stampAll now user [lock] p = p := by
    refine fun p => funext fun n => stampAll_of_not fun hs => ?_
    obtain rfl : n = lock.name := by simpa [Stamps] using hs.1
    exact not_stamps_of_isLock hlock _ hs
  have hsplit : stampAll now user (before ++ lock :: rest) p =
      stampAll now user rest (stampAll now user before p) := by
    rw [stampAll_append, ← List.singleton_append, stampAll_append, hkeep]
  rw [hrun]
  simp only [stampRevision, hint, if_neg (not_le.mpr hpos)]
  rw [stampLoop_no_lock (by simp), hsplit,
    stampAll_setProperty (not_stamps_of_isLock hlock rest)]

end

lemma eq_lock_of_isLock {lock : String} (hm : Mapped cls lock) :
    ∀ q ∈ cls.ownProperties, isLock q.name.toLower = true → q.name = lock := by
  intro q hq hlock
  refine hm.same _ (List.mem_map.mpr ⟨q, hq, rfl⟩) _ hm.lock_mem ?_
  have h1 : q.name.toLower = "lock_revision" := by simpa [isLock] using hlock
  have h2 : lock.toLower = "lock_revision" := by simpa [isLock] using hm.lock_name
  rw [Same, h1, h2]

lemma lockProperty_of_mapped {lock : String} (hm : Mapped cls lock) :
    ∃ q, lockProperty cls.ownProperties = some q ∧ q.name = lock := by
  obtain ⟨q₀, hq₀, hname⟩ := List.mem_map.mp hm.lock_mem
  cases hfind : lockProperty cls.ownProperties with
  | none =>
    have hnone : ∀ q ∈ cls.ownProperties, isLock q.name.toLower = false := by
      simpa [lockProperty] using hfind
    have hlock := hnone q₀ hq₀
    rw [hname, hm.lock_name] at hlock
    cases hlock
  | some q =>
    exact ⟨q, rfl, eq_lock_of_isLock hm q (List.mem_of_find?_eq_some hfind)
      (isLock_lockProperty hfind)⟩

/-- **The first loop** either refuses the revision or counts it up by one; the properties it does
not stamp stay as they were. -/
lemma stampLoop_cases {lock : String} (hm : Mapped cls lock) (now user : V) (p : String → V) :
    (∃ p', stampLoop now user cls.ownProperties p none = .error p') ∨
      ∃ old p', stampLoop now user cls.ownProperties p none = .ok (p', some (lock, old)) ∧
        Variant.toInt (p lock) = some old ∧ 0 < old ∧ p' lock = Variant.ofInt (old + 1) ∧
        ∀ n : String, isStamped n = false → p' n = p n := by
  obtain ⟨q, hfind, rfl⟩ := lockProperty_of_mapped hm
  cases hold : revisionOf (p q.name) with
  | none =>
    obtain ⟨before, -, hrun⟩ := stampLoop_refused now user hfind hold
    exact .inl ⟨_, hrun⟩
  | some old =>
    have hrun := stampLoop_counted now user hfind hold
    obtain ⟨hint, hpos⟩ : Variant.toInt (p q.name) = some old ∧ 0 < old := by
      simpa [revisionOf] using hold
    refine .inr ⟨old, _, hrun, hint, hpos, by simp [setProperty], fun n hn => ?_⟩
    have hne : n ≠ q.name := by
      rintro rfl
      simp [isStamped, hm.lock_name] at hn
    rw [setProperty, Function.update_of_ne hne, stampAll_of_not (not_stamps_of_isStamped hn _)]

/-- A key that stands for a property. -/
def ValidKey (cls : SqlClass) (idx : ℤ) : Prop := 0 ≤ idx ∧ (cls.keyProperty idx).name ≠ ""

instance (cls : SqlClass) (idx : ℤ) : Decidable (ValidKey cls idx) :=
  inferInstanceAs (Decidable (_ ∧ _))

/-- The condition on a key: it has the value of the record. -/
def keyCondition (cls : SqlClass) (record : QSqlRecord V) (idx : ℤ) : String × Literal V :=
  let metaProp := cls.keyProperty idx
  (metaProp.name, .value ((record.value metaProp.name).getD Variant.null) metaProp.type)

/-- The properties with the keys of `idxs` restored. -/
def restoreKeys (cls : SqlClass) (record : QSqlRecord V) (idxs : List ℤ) (p : String → V)
    (n : String) : V :=
  if ∃ idx ∈ idxs, (cls.keyProperty idx).name = n then (record.value n).getD Variant.null else p n

@[simp] lemma restoreKeys_nil (record : QSqlRecord V) (p : String → V) :
    restoreKeys cls record [] p = p := by
  funext n
  simp [restoreKeys]

lemma restoreKeys_cons (record : QSqlRecord V) (idx : ℤ) (idxs : List ℤ) (p : String → V) :
    restoreKeys cls record idxs (setProperty p (cls.keyProperty idx).name
      ((record.value (cls.keyProperty idx).name).getD Variant.null)) =
        restoreKeys cls record (idx :: idxs) p := by
  funext n
  by_cases hlater : ∃ i ∈ idxs, (cls.keyProperty i).name = n
  · obtain ⟨i, hi, hname⟩ := hlater
    rw [restoreKeys, restoreKeys, if_pos ⟨i, hi, hname⟩,
      if_pos ⟨i, List.mem_cons_of_mem _ hi, hname⟩]
  · rw [restoreKeys, if_neg hlater]
    by_cases hfirst : (cls.keyProperty idx).name = n
    · rw [restoreKeys, if_pos ⟨idx, by simp, hfirst⟩, hfirst, setProperty, Function.update_self]
    · have hnone : ¬ ∃ i ∈ idx :: idxs, (cls.keyProperty i).name = n := by
        simpa [hfirst] using hlater
      rw [restoreKeys, if_neg hnone, setProperty, Function.update_of_ne (Ne.symm hfirst)]

/-- **The loop over the keys** restores them up to the first that stands for no property. -/
lemma keyLoop_eq (cls : SqlClass) (record : QSqlRecord V) (idxs : List ℤ) (p : String → V) :
    keyLoop cls record idxs p =
      if ∀ idx ∈ idxs, ValidKey cls idx then
        .ok (restoreKeys cls record idxs p, idxs.map (keyCondition cls record))
      else
        .error (restoreKeys cls record (idxs.takeWhile fun idx => ValidKey cls idx) p) := by
  induction idxs generalizing p with
  | nil => simp [keyLoop]
  | cons idx idxs ih =>
    by_cases hidx : ValidKey cls idx
    · have hnot : ¬ (idx < 0 ∨ (cls.keyProperty idx).name = "") := by
        rintro (hneg | hname)
        · exact absurd hidx.1 (not_le.mpr hneg)
        · exact hidx.2 hname
      simp only [keyLoop, if_neg hnot, ih, restoreKeys_cons]
      by_cases hall : ∀ i ∈ idxs, ValidKey cls i
      · rw [if_pos hall, if_pos (by simpa [hidx] using hall)]
        rfl
      · rw [if_neg hall, if_neg (by simpa [hidx] using hall), List.takeWhile_cons,
          if_pos (by simpa using hidx)]
    · have hbad : idx < 0 ∨ (cls.keyProperty idx).name = "" := by
        by_contra hnot
        push Not at hnot
        exact hidx hnot
      have hfirst : ¬ ∀ i ∈ idx :: idxs, ValidKey cls i := fun h => hidx (h idx (by simp))
      rw [keyLoop, if_pos hbad, if_neg hfirst, List.takeWhile_cons, if_neg (by simpa using hidx),
        restoreKeys_nil]

lemma keyLoop_ok {record : QSqlRecord V} {idxs : List ℤ} {p p' : String → V}
    {keys : List (String × Literal V)} (h : keyLoop cls record idxs p = .ok (p', keys))
    (n : String) :
    p' n = if ∃ idx ∈ idxs, (cls.keyProperty idx).name = n then
      (record.value n).getD Variant.null else p n := by
  rw [keyLoop_eq] at h
  split at h
  · obtain ⟨rfl, -⟩ := Prod.mk.inj (Except.ok.inj h)
    rfl
  · cases h

/-! ### The assignments -/

section
variable [DecidableEq V]

omit [Variant V] in
lemma mem_assignments_iff {record : QSqlRecord V} {p : String → V} {a : String × Literal V} :
    a ∈ assignments cls record p ↔ ∃ q i,
      (q, i) ∈ cls.ownProperties.zipIdx cls.metaObject.propertyOffset ∧
      (i : ℤ) ∉ cls.primaryKeyIndexList ∧ (∃ v, record.value q.name = some v ∧ v ≠ p q.name) ∧
      (q.name, .value (p q.name) q.type) = a := by
  simp only [assignments, List.mem_filterMap, Prod.exists]
  refine exists_congr fun q => exists_congr fun i => and_congr_right fun _ => ?_
  cases record.value q.name with
  | none => simp
  | some v =>
    by_cases h : (i : ℤ) ∉ cls.primaryKeyIndexList ∧ v ≠ p q.name
    · simp [h]
    · simp only [if_neg h, reduceCtorEq, false_iff]
      rintro ⟨h1, ⟨w, hw, h2⟩, -⟩
      obtain rfl := Option.some.inj hw
      exact h ⟨h1, h2⟩

lemma mem_assignments {record : QSqlRecord V} {p : String → V} {a : String × Literal V}
    (h : a ∈ assignments cls record p) : a.1 ∈ names cls ∧ a.2.stored = p a.1 := by
  obtain ⟨q, i, hq, -, -, rfl⟩ := mem_assignments_iff.mp h
  exact ⟨List.mem_map.mpr ⟨q, List.fst_mem_of_mem_zipIdx hq, rfl⟩, rfl⟩

omit [Variant V] in
/-- A property that differs from its field is assigned unless its position is in the list of
keys. -/
lemma exists_assignment (haligned : KeysAligned cls) {record : QSqlRecord V} {p : String → V}
    {n : String} (hn : n ∈ names cls) (hkey : ¬ IsKey cls n) {v : V}
    (hv : record.value n = some v) (hne : v ≠ p n) :
    ∃ a ∈ assignments cls record p, a.1 = n := by
  obtain ⟨q, hq, rfl⟩ := List.mem_map.mp hn
  obtain ⟨k, hget⟩ := List.mem_iff_getElem?.mp hq
  have hzip : (q, cls.metaObject.propertyOffset + k) ∈
      cls.ownProperties.zipIdx cls.metaObject.propertyOffset :=
    List.mk_add_mem_zipIdx_iff_getElem?.mpr hget
  have hnot : ((cls.metaObject.propertyOffset + k : ℕ) : ℤ) ∉ cls.primaryKeyIndexList := by
    intro hmem
    refine hkey ⟨_, haligned _ (by omega) hmem, ?_⟩
    have hproperty : cls.metaObject.properties.getD (cls.metaObject.propertyOffset + k) ⟨"", 0⟩ =
        q := by
      rw [SqlClass.ownProperties, List.getElem?_drop] at hget
      rw [List.getD_eq_getElem?_getD, hget, Option.getD_some]
    have hindex : (cls.metaObject.propertyOffset : ℤ) +
        ((cls.metaObject.propertyOffset + k : ℕ) - cls.metaObject.propertyOffset) =
          (cls.metaObject.propertyOffset + k : ℕ) := by omega
    rw [SqlClass.keyProperty, hindex, QMetaObject.property, if_neg (by omega), Int.toNat_natCast,
      hproperty]
  exact ⟨_, mem_assignments_iff.mpr ⟨q, _, hzip, hnot, ⟨v, hv, hne⟩, rfl⟩, rfl⟩

/-- **The row after the statement** has every property of the object, if it had the fields of
the record. -/
lemma value_foldl_assignments (hsame : ∀ m ∈ names cls, ∀ n ∈ names cls, Same m n → m = n)
    (haligned : KeysAligned cls) {record row : QSqlRecord V} {p : String → V} {n : String}
    (hn : n ∈ names cls) {v : V} (hv : record.value n = some v) (hrow : row.value n = some v)
    (hkey : IsKey cls n → p n = v) :
    ((assignments cls record p).foldl (fun r a => r.setValue a.1 a.2.stored) row).value n =
      some (p n) := by
  have hall : ∀ a ∈ assignments cls record p, Same a.1 n → a.2.stored = p n := by
    intro a ha hs
    obtain ⟨hmem, hstored⟩ := mem_assignments ha
    rw [hstored, hsame _ hmem _ hn hs]
  rw [QSqlRecord.value_foldl_setValue _ _ _ _ hall, hrow]
  by_cases hassigned : ∃ a ∈ assignments cls record p, Same a.1 n
  · rw [if_pos hassigned, Option.map_some]
  · rw [if_neg hassigned]
    by_contra hne
    have hdiff : v ≠ p n := fun h => hne (by rw [h])
    obtain ⟨a, ha, rfl⟩ := exists_assignment haligned hn (fun hk => hdiff (hkey hk).symm) hv hdiff
    exact hassigned ⟨a, ha, rfl⟩

end

/-- **The record after `syncToSqlRecord`** has every property that has a column. -/
lemma value_syncToSqlRecord (hsame : ∀ m ∈ names cls, ∀ n ∈ names cls, Same m n → m = n)
    (o : TSqlObject V) {n : String} (hn : n ∈ names cls) (hcolumn : n ∈ cls.columns) :
    (syncToSqlRecord cls o).record.value n = some (o.property n) := by
  have hall : ∀ q ∈ cls.ownProperties, Same q.name n → o.property q.name = o.property n := by
    intro q hq hs
    rw [hsame _ (List.mem_map.mpr ⟨q, hq, rfl⟩) _ hn hs]
  obtain ⟨q, hq, rfl⟩ := List.mem_map.mp hn
  obtain ⟨v, hv⟩ := QSqlRecord.exists_value (V := V)
    (r := cls.columns.map fun c => (c, Variant.null)) (by simp [Function.comp_def]) hcolumn
  rw [syncToSqlRecord, QSqlRecord.value_foldl_setValue _ _ _ _ hall, if_pos ⟨q, hq, rfl⟩, hv]
  rfl

@[simp] lemma map_fst_syncToSqlRecord (o : TSqlObject V) :
    (syncToSqlRecord cls o).record.map Prod.fst = cls.columns := by
  simp [syncToSqlRecord, Function.comp_def]

/-! ### The call -/

/-- What `update` executes and what it leaves, for an object whose revision is `old`. -/
structure Executes [DecidableEq V] (cls : SqlClass) (lock : String) (old : ℤ)
    (o after : TSqlObject V) (statement : UpdateStatement V) : Prop where
  before : Variant.toInt (o.property lock) = some old
  pos : 0 < old
  /-- The statement selects rows of the revision `old` only. -/
  revision : ∀ row : QSqlRecord V, selects statement.conditions row = true →
    ∃ v, row.value lock = some v ∧ Variant.toInt v = some old
  /-- A row with the fields of the record gets every property. -/
  row : ∀ row : QSqlRecord V,
    (∀ n ∈ names cls, n ∈ cls.columns → row.value n = o.record.value n) →
    ∀ n ∈ names cls, n ∈ cls.columns → (statement.apply row).value n = some (after.property n)
  record : ∀ n ∈ names cls, n ∈ cls.columns → after.record.value n = some (after.property n)
  fields : after.record.map Prod.fst = cls.columns
  lock : after.property lock = Variant.ofInt (old + 1)
  kept : ∀ n, isStamped n = false → ¬ IsKey cls n → after.property n = o.property n

section
variable [DecidableEq V] {lock : String} {o : TSqlObject V} {p p' : String → V} {old : ℤ}
  {keys : List (String × Literal V)}

/-- **The statement** `update` has put together when both loops are through. -/
lemma executes (hm : Mapped cls lock) (haligned : KeysAligned cls)
    (hfields : o.record.map Prod.fst = cls.columns)
    (hold : Variant.toInt (o.property lock) = some old) (hpos : 0 < old)
    (hlock : p lock = Variant.ofInt (old + 1))
    (hkeep : ∀ n : String, isStamped n = false → p n = o.property n)
    (hkeys : keyLoop cls o.record cls.primaryKeyIndexList p = .ok (p', keys)) :
    Executes cls lock old o (syncToSqlRecord cls { o with property := p' })
      ⟨cls.tableName, assignments cls o.record p', (lock, .int old) :: keys⟩ := by
  have hother : ∀ n, ¬ IsKey cls n → p' n = p n := fun n h => (keyLoop_ok hkeys n).trans (if_neg h)
  have hkey : ∀ n, IsKey cls n → p' n = (o.record.value n).getD Variant.null :=
    fun n h => (keyLoop_ok hkeys n).trans (if_pos h)
  refine ⟨hold, hpos, fun row hrow => ?_, fun row hrow n hn hcolumn => ?_, fun n hn hcolumn => ?_,
    map_fst_syncToSqlRecord _, (hother lock hm.lock_not_key).trans hlock,
    fun n hn hnk => (hother n hnk).trans (hkeep n hn)⟩
  · have hfirst := List.all_eq_true.mp hrow (lock, .int old) (by simp)
    cases hvalue : row.value lock with
    | none => simp [hvalue] at hfirst
    | some v => exact ⟨v, rfl, by simpa [hvalue, Literal.holds] using hfirst⟩
  · obtain ⟨v, hvalue⟩ := QSqlRecord.exists_value hfields hcolumn
    refine value_foldl_assignments hm.same haligned hn hvalue
      (by rw [hrow n hn hcolumn, hvalue]) fun hk => ?_
    rw [hkey n hk, hvalue]
    rfl
  · exact value_syncToSqlRecord hm.same _ hn hcolumn

lemma assignments_ne_nil (hm : Mapped cls lock) (haligned : KeysAligned cls)
    (hv : o.record.value lock = some (o.property lock))
    (hold : Variant.toInt (o.property lock) = some old) (hpos : 0 < old) (hlt : old + 1 < 2 ^ 31)
    (hlock : p lock = Variant.ofInt (old + 1)) :
    (assignments cls o.record p).isEmpty = false := by
  have hdiff : o.property lock ≠ p lock := by
    intro h
    rw [h, hlock, Variant.toInt_ofInt _ (by omega) hlt] at hold
    exact absurd (Option.some.inj hold) (by omega)
  obtain ⟨a, ha, -⟩ := exists_assignment haligned hm.lock_mem hm.lock_not_key hv hdiff
  simpa using List.ne_nil_of_mem ha

/-- **Every call of `update`** on an object whose revision property is that of its record either
returns false without a statement or executes one; the object is changed before its outcome is
known. -/
theorem update_executes (hm : Mapped cls lock) (haligned : KeysAligned cls)
    (hfields : o.record.map Prod.fst = cls.columns)
    (hv : o.record.value lock = some (o.property lock))
    (hlt : ∀ old, Variant.toInt (o.property lock) = some old → old + 1 < 2 ^ 31) (now user : V)
    (exec : UpdateStatement V → Except String ℤ) :
    (∃ o', update cls now user exec o = (.returned false, o', none)) ∨
      ∃ old after statement, Executes cls lock old o after statement ∧
        update cls now user exec o =
          match exec statement with
          | .error e => (.returned false, { after with sqlError := e }, some statement)
          | .ok numRowsAffected =>
            if numRowsAffected ≠ 1 then
              (.thrown (conflictMessage cls), { after with sqlError := conflictMessage cls },
                some statement)
            else (.returned true, { after with sqlError := "" }, some statement) := by
  have hnew : isNew o = false := by
    cases hrecord : o.record with
    | nil => simp [hrecord, QSqlRecord.value] at hv
    | cons f fs => simp [isNew, hrecord]
  rcases stampLoop_cases hm now user o.property with
    ⟨p', hstamp⟩ | ⟨old, p, hstamp, hold, hpos, hlock, hkeep⟩
  · exact .inl ⟨_, by rw [update, hnew, hstamp]; rfl⟩
  cases hnokeys : cls.primaryKeyIndexList.isEmpty with
  | true => exact .inl ⟨_, by rw [update, hnew, hstamp]; simp only [hnokeys]; rfl⟩
  | false =>
    cases hkeys : keyLoop cls o.record cls.primaryKeyIndexList p with
    | error p' => exact .inl ⟨_, by rw [update, hnew, hstamp]; simp only [hnokeys, hkeys]; rfl⟩
    | ok r =>
      obtain ⟨p', keys⟩ := r
      have hlock' : p' lock = Variant.ofInt (old + 1) :=
        ((keyLoop_ok hkeys lock).trans (if_neg hm.lock_not_key)).trans hlock
      have hset := assignments_ne_nil hm haligned hv hold hpos (hlt old hold) hlock'
      refine .inr ⟨old, _, _, executes hm haligned hfields hold hpos hlock hkeep hkeys, ?_⟩
      rw [update, hnew, hstamp]
      cases hexec : exec ⟨cls.tableName, assignments cls o.record p', (lock, .int old) :: keys⟩ <;>
        simp only [hnokeys, hkeys, hset, hexec, Bool.false_eq_true, if_false, Option.toList_some,
          List.map_cons, List.map_nil, List.singleton_append, Option.isSome_some, true_and]

end

end TreeFrog.SqlUpdate
