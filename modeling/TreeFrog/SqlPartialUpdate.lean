import TreeFrog.OptimisticLock

/-!
The columns `update` sets. The keys are kept apart by comparing a position in the meta object
with the list of keys, which counts from `propertyOffset()`: a changed property at such a position
is left out.
-/

namespace TreeFrog.SqlPartialUpdate

open MetaObject SqlRecord SqlObject SqlUpdate OptimisticLock

variable {V : Type} [Variant V] {cls : SqlClass} {o : TSqlObject V}

/-- The properties after the automatic update of times, users and the revision. -/
def stampedProperties (cls : SqlClass) (now user : V) (p : String → V) : String → V :=
  match lockProperty cls.ownProperties with
  | none => stampAll now user cls.ownProperties p
  | some lock => setProperty (stampAll now user cls.ownProperties p) lock.name
      (Variant.ofInt ((revisionOf (p lock.name)).getD 0 + 1))

/-- The revision, if there is a property for it, is one. -/
def Revised (cls : SqlClass) (o : TSqlObject V) : Prop :=
  ∀ lock, lockProperty cls.ownProperties = some lock →
    (revisionOf (o.property lock.name)).isSome = true

/-- A loaded object with keys and a revision. -/
structure Updatable (cls : SqlClass) (o : TSqlObject V) : Prop where
  loaded : isNew o = false
  revision : Revised cls o
  keyed : cls.primaryKeyIndexList ≠ []
  keys : ∀ idx ∈ cls.primaryKeyIndexList, ValidKey cls idx

/-- A column that is no key, and whose property differs from the record. -/
def Changed (cls : SqlClass) (record : QSqlRecord V) (p : String → V) (n : String) : Prop :=
  n ∈ names cls ∧ ¬ IsKey cls n ∧ ∃ v, record.value n = some v ∧ v ≠ p n

/-- The statement sets what has changed and nothing else, and names the row by all its keys;
without a change there is none. -/
structure WritesChanges (cls : SqlClass) (record : QSqlRecord V) (p : String → V)
    (statement : Option (UpdateStatement V)) : Prop where
  executed : statement = none ↔ ∀ n, ¬ Changed cls record p n
  columns : ∀ u, statement = some u → ∀ n, n ∈ u.set.map Prod.fst ↔ Changed cls record p n
  values : ∀ u, statement = some u → ∀ a ∈ u.set, a.2.stored = p a.1
  keys : ∀ u, statement = some u → ∀ idx ∈ cls.primaryKeyIndexList,
    keyCondition cls record idx ∈ u.conditions

/-- A property of this name stands at a position that is not in the list of keys. -/
def Seen (cls : SqlClass) (n : String) : Prop :=
  ∃ q i, (q, i) ∈ cls.ownProperties.zipIdx cls.metaObject.propertyOffset ∧
    q.name = n ∧ (i : ℤ) ∉ cls.primaryKeyIndexList

lemma stampLoop_of_revised (h : Revised cls o) (now user : V) :
    ∃ revision, stampLoop now user cls.ownProperties o.property none =
      .ok (stampedProperties cls now user o.property, revision) := by
  cases hfind : lockProperty cls.ownProperties with
  | none => exact ⟨none, by rw [stampLoop_of_none hfind, stampedProperties, hfind]⟩
  | some lock =>
    obtain ⟨old, hold⟩ := Option.isSome_iff_exists.mp (h lock hfind)
    refine ⟨some (lock.name, old), ?_⟩
    rw [stampLoop_counted now user hfind hold, stampedProperties, hfind]
    simp only [hold, Option.getD_some]

section
variable [DecidableEq V]

lemma update_statement (h : Updatable cls o) (now user : V)
    (exec : UpdateStatement V → Except String ℤ) {p : String → V}
    (hp : p = restoreKeys cls o.record cls.primaryKeyIndexList
      (stampedProperties cls now user o.property)) :
    ∃ locks, (update cls now user exec o).2.2 =
      if (assignments cls o.record p).isEmpty then none
      else some ⟨cls.tableName, assignments cls o.record p,
        locks ++ cls.primaryKeyIndexList.map (keyCondition cls o.record)⟩ := by
  obtain ⟨revision, hstamp⟩ := stampLoop_of_revised h.revision now user
  have hkeys := (keyLoop_eq cls o.record cls.primaryKeyIndexList
    (stampedProperties cls now user o.property)).trans (if_pos h.keys)
  rw [← hp] at hkeys
  have hkeyed : cls.primaryKeyIndexList.isEmpty = false := by simpa using h.keyed
  refine ⟨revision.toList.map fun r => (r.1, .int r.2), ?_⟩
  rw [update, h.loaded, hstamp]
  simp only [Bool.false_eq_true, if_false, hkeyed, hkeys]
  split
  · rfl
  · split
    · rfl
    · split <;> rfl

lemma mem_set_iff (cls : SqlClass) (record : QSqlRecord V) (p : String → V) (n : String) :
    n ∈ (assignments cls record (restoreKeys cls record cls.primaryKeyIndexList p)).map Prod.fst ↔
      Changed cls record p n ∧ Seen cls n := by
  have hchanged : (∃ v, record.value n = some v ∧
      v ≠ restoreKeys cls record cls.primaryKeyIndexList p n) ↔
        ¬ IsKey cls n ∧ ∃ v, record.value n = some v ∧ v ≠ p n := by
    by_cases hkey : IsKey cls n
    · have hrestored : restoreKeys cls record cls.primaryKeyIndexList p n =
          (record.value n).getD Variant.null := if_pos hkey
      simp only [hrestored, hkey, not_true_eq_false, false_and, iff_false]
      rintro ⟨v, hv, hne⟩
      simp [hv] at hne
    · have hkept : restoreKeys cls record cls.primaryKeyIndexList p n = p n := if_neg hkey
      simp [hkept, hkey]
  constructor
  · intro hn
    obtain ⟨a, ha, rfl⟩ := List.mem_map.mp hn
    obtain ⟨q, i, hq, hi, hdiff, rfl⟩ := mem_assignments_iff.mp ha
    exact ⟨⟨List.mem_map.mpr ⟨q, List.fst_mem_of_mem_zipIdx hq, rfl⟩, hchanged.mp hdiff⟩,
      q, i, hq, rfl, hi⟩
  · rintro ⟨⟨-, hdiff⟩, q, i, hq, rfl, hi⟩
    exact List.mem_map.mpr ⟨_, mem_assignments_iff.mpr ⟨q, i, hq, hi, hchanged.mpr hdiff, rfl⟩, rfl⟩

/-- **`update` writes the changes** exactly if each of them has a property at a position that is
not in the list of keys. -/
theorem writesChanges_iff_seen (h : Updatable cls o) (now user : V)
    (exec : UpdateStatement V → Except String ℤ) :
    WritesChanges cls o.record (stampedProperties cls now user o.property)
        (update cls now user exec o).2.2 ↔
      ∀ n, Changed cls o.record (stampedProperties cls now user o.property) n → Seen cls n := by
  set p := stampedProperties cls now user o.property with hp
  obtain ⟨locks, hstatement⟩ := update_statement h now user exec rfl
  rw [← hp] at hstatement
  have hset := mem_set_iff cls o.record p
  set as := assignments cls o.record (restoreKeys cls o.record cls.primaryKeyIndexList p)
  rw [hstatement]
  constructor
  · intro hw n hn
    by_cases hempty : as.isEmpty = true
    · -- nothing is assigned, so no statement is executed
      rw [if_pos hempty] at hw
      exact absurd hn (hw.executed.mp rfl n)
    · rw [if_neg hempty] at hw
      exact ((hset n).mp ((hw.columns _ rfl n).mpr hn)).2
  · intro hseen
    have hcolumns : ∀ n, n ∈ as.map Prod.fst ↔ Changed cls o.record p n :=
      fun n => (hset n).trans (and_iff_left_of_imp (hseen n))
    have hexecuted : as.isEmpty = true ↔ ∀ n, ¬ Changed cls o.record p n := by
      rw [List.isEmpty_iff, ← List.map_eq_nil_iff (f := Prod.fst), List.eq_nil_iff_forall_not_mem]
      exact forall_congr' fun n => not_congr (hcolumns n)
    by_cases hempty : as.isEmpty = true
    · rw [if_pos hempty]
      exact ⟨by simpa using hexecuted.mp hempty, nofun, nofun, nofun⟩
    · rw [if_neg hempty]
      refine ⟨by simpa [hempty] using hexecuted, ?_, ?_, ?_⟩
      · rintro u ⟨⟩ n
        exact hcolumns n
      · rintro u ⟨⟩ a ha
        obtain ⟨hmem, hstored⟩ := mem_assignments ha
        have hkey := ((hcolumns a.1).mp (List.mem_map_of_mem ha)).2.1
        rw [hstored]
        exact if_neg hkey
      · rintro u ⟨⟩ idx hidx
        exact List.mem_append_right _ (List.mem_map_of_mem hidx)

end

/-- A note with another text than its record. -/
def edited : TSqlObject Cell where
  property n := if n = "name" then .text "b" else .int 1
  record := [("id", .int 1), ("name", .text "draft"), ("lock_revision", .int 1)]
  sqlError := ""

theorem writesChanges_iff_seen_note :
    WritesChanges note edited.record (stampedProperties note .null .null edited.property)
        (update note .null .null (fun _ => .ok 1) edited).2.2 ↔
      ∀ n, Changed note edited.record (stampedProperties note .null .null edited.property) n →
        Seen note n := by
  refine writesChanges_iff_seen ⟨rfl, ?_, by simp [note], by decide +kernel⟩ _ _ _
  intro lock hlock
  have hname : (lockProperty note.ownProperties).map QMetaProperty.name =
      some "lock_revision" := by
    decide +kernel
  rw [hlock] at hname
  rw [Option.some.inj hname]
  decide +kernel

/-- A table whose key is its second column. -/
def tag : SqlClass where
  metaObject := ⟨[⟨"objectName", 10⟩, ⟨"name", 10⟩, ⟨"id", 2⟩], 1⟩
  primaryKeyIndexList := [1]
  tableName := "tag"
  columns := ["name", "id"]

def renamed : TSqlObject Cell where
  property n := if n = "name" then .text "b" else .int 1
  record := [("name", .text "a"), ("id", .int 1)]
  sqlError := ""

theorem not_writesChanges_tag :
    ¬ ∀ (cls : SqlClass) (o : TSqlObject Cell) (now user : Cell)
        (exec : UpdateStatement Cell → Except String ℤ), Updatable cls o →
      WritesChanges cls o.record (stampedProperties cls now user o.property)
        (update cls now user exec o).2.2 := by
  intro h
  have hfind : lockProperty tag.ownProperties = none := by decide +kernel
  have hwrites := h tag renamed .null .null (fun _ => .ok 1)
    ⟨rfl, by simp [Revised, hfind], by simp [tag], by decide +kernel⟩
  have hnone : (update tag .null .null (fun _ => .ok 1) renamed).2.2 = none := by decide +kernel
  refine hwrites.executed.mp hnone "name" ⟨by decide +kernel, ?_, .text "a", ?_, ?_⟩
  · unfold IsKey
    decide +kernel
  · decide +kernel
  · decide +kernel

end TreeFrog.SqlPartialUpdate
