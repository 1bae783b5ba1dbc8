import Mathlib.Data.List.TakeWhile
import TreeFrog.SqlPartialUpdate

/-!
What a failed `update` leaves of an object. The revision is counted up and the keys are restored
on the way to every later exit, and the record is replaced before the statement is executed.
-/

namespace TreeFrog.SqlFailedUpdate

open MetaObject SqlRecord SqlObject SqlUpdate SqlPartialUpdate OptimisticLock

variable {V : Type} [Variant V] {cls : SqlClass} {o after : TSqlObject V}

/-- The record, and the properties that are not stamped with the time or the user, are the same. -/
structure Unchanged (cls : SqlClass) (o after : TSqlObject V) : Prop where
  record : after.record = o.record
  property : ∀ n, ¬ Stamps cls.ownProperties n → after.property n = o.property n

/-- A key property in front of the first key without a property. -/
def Restored (cls : SqlClass) (n : String) : Prop :=
  ∃ idx ∈ cls.primaryKeyIndexList.takeWhile fun idx => ValidKey cls idx,
    (cls.keyProperty idx).name = n

/-- The properties once the automatic ones are stamped and the keys restored. -/
def reachedProperties (cls : SqlClass) (now user : V) (o : TSqlObject V) : String → V :=
  restoreKeys cls o.record (cls.primaryKeyIndexList.takeWhile fun idx => ValidKey cls idx)
    (stampedProperties cls now user o.property)

/-- The keys that are restored have the values of the record, and there is no revision that is
counted up. -/
structure Kept (cls : SqlClass) (o : TSqlObject V) : Prop where
  restored : ∀ n, Restored cls n → ¬ Stamps cls.ownProperties n →
    (o.record.value n).getD Variant.null = o.property n
  revision : ∀ lock old, lockProperty cls.ownProperties = some lock → ¬ Restored cls lock.name →
    revisionOf (o.property lock.name) = some old →
    (Variant.ofInt (old + 1) : V) = o.property lock.name

/-- There is no key, or one that is no property. -/
def Keyless (cls : SqlClass) : Prop :=
  cls.primaryKeyIndexList = [] ∨ ∃ idx ∈ cls.primaryKeyIndexList, ¬ ValidKey cls idx

/-- An object that is new, or refused for its revision, or for its keys with nothing changed
before. -/
def Refusable (cls : SqlClass) (o : TSqlObject V) : Prop :=
  isNew o = true ∨ ¬ Revised cls o ∨ Keyless cls ∧ Kept cls o

lemma Refusable.kept (h : Refusable cls o) (hnew : isNew o = false) (hrevised : Revised cls o) :
    Kept cls o := by
  rcases h with h | h | h
  · rw [hnew] at h
    cases h
  · exact absurd hrevised h
  · exact h.2

lemma not_keyless (h : Updatable cls o) : ¬ Keyless cls := by
  rintro (hnil | ⟨idx, hidx, hbad⟩)
  · exact h.keyed hnil
  · exact hbad (h.keys idx hidx)

lemma not_refusable (h : Updatable cls o) : ¬ Refusable cls o := by
  rintro (hnew | hrevised | hkeyless)
  · rw [h.loaded] at hnew
    cases hnew
  · exact hrevised h.revision
  · exact not_keyless h hkeyless.1

/-- The last property of a column. -/
def columnProperty (cls : SqlClass) (i : ℕ) : Option QMetaProperty :=
  cls.ownProperties.reverse.find? fun q => cls.columns.findIdx (fun c => Same c q.name) = i

/-- The record has the columns of the table, each with the value of its last property. -/
structure Settled (cls : SqlClass) (record : QSqlRecord V) (p : String → V) : Prop where
  columns : record.map Prod.fst = cls.columns
  values : ∀ i f, record[i]? = some f →
    f.2 = ((columnProperty cls i).map fun q => p q.name).getD Variant.null

/-- An object of a class that has two properties for one column, whose record would be replaced
by the same one. -/
structure Coincides (cls : SqlClass) (now user : V) (o : TSqlObject V) : Prop where
  updatable : Updatable cls o
  kept : Kept cls o
  settled : Settled cls o.record (reachedProperties cls now user o)

/-- The exits of a call that fails. -/
inductive Failed [DecidableEq V] (cls : SqlClass) (now user : V) (o after : TSqlObject V) :
    Prop where
  | new : isNew o = true → after.record = o.record → after.property = o.property →
      Failed cls now user o after
  | revision (before : List QMetaProperty) : ¬ Revised cls o →
      (∀ n, Stamps before n → Stamps cls.ownProperties n) → after.record = o.record →
      after.property = stampAll now user before o.property → Failed cls now user o after
  | keys : isNew o = false → Revised cls o → Keyless cls → after.record = o.record →
      after.property = reachedProperties cls now user o → Failed cls now user o after
  | statement : Updatable cls o → after.property = reachedProperties cls now user o →
      after.record =
        (syncToSqlRecord cls { o with property := reachedProperties cls now user o }).record →
      Failed cls now user o after

variable {now user : V}

lemma reachedProperties_of_valid (h : ∀ idx ∈ cls.primaryKeyIndexList, ValidKey cls idx) :
    reachedProperties cls now user o = restoreKeys cls o.record cls.primaryKeyIndexList
      (stampedProperties cls now user o.property) := by
  have hall : (cls.primaryKeyIndexList.takeWhile fun idx => ValidKey cls idx) =
      cls.primaryKeyIndexList :=
    List.takeWhile_eq_self_iff.mpr fun idx hidx => decide_eq_true (h idx hidx)
  rw [reachedProperties, hall]

lemma stampedProperties_lock {lock : QMetaProperty} {old : ℤ}
    (hlock : lockProperty cls.ownProperties = some lock)
    (hold : revisionOf (o.property lock.name) = some old) :
    stampedProperties cls now user o.property lock.name = Variant.ofInt (old + 1) := by
  simp [stampedProperties, hlock, hold, setProperty]

lemma stampedProperties_of_ne {n : String} (hn : ¬ Stamps cls.ownProperties n)
    (hlock : ∀ lock, lockProperty cls.ownProperties = some lock → n ≠ lock.name) :
    stampedProperties cls now user o.property n = o.property n := by
  cases hfind : lockProperty cls.ownProperties with
  | none =>
    simp only [stampedProperties, hfind]
    exact stampAll_of_not hn
  | some lock =>
    simp only [stampedProperties, hfind]
    rw [setProperty, Function.update_of_ne (hlock lock hfind), stampAll_of_not hn]

lemma reachedProperties_eq_iff (now user : V) (hrevised : Revised cls o) :
    (∀ n, ¬ Stamps cls.ownProperties n → reachedProperties cls now user o n = o.property n) ↔
      Kept cls o := by
  have hrestored : ∀ n, Restored cls n →
      reachedProperties cls now user o n = (o.record.value n).getD Variant.null :=
    fun n hn => if_pos hn
  have hother : ∀ n, ¬ Restored cls n →
      reachedProperties cls now user o n = stampedProperties cls now user o.property n :=
    fun n hn => if_neg hn
  constructor
  · intro hu
    refine ⟨fun n hn hs => ?_, fun lock old hlock hn hold => ?_⟩
    · rw [← hrestored n hn, hu n hs]
    · have hs := not_stamps_of_isLock (isLock_lockProperty hlock) cls.ownProperties
      rw [← hu _ hs, hother _ hn, stampedProperties_lock hlock hold]
  · intro hk n hs
    by_cases hn : Restored cls n
    · rw [hrestored n hn, hk.restored n hn hs]
    rw [hother n hn]
    by_cases hl : ∃ lock, lockProperty cls.ownProperties = some lock ∧ n = lock.name
    · obtain ⟨lock, hlock, rfl⟩ := hl
      obtain ⟨old, hold⟩ := Option.isSome_iff_exists.mp (hrevised lock hlock)
      rw [stampedProperties_lock hlock hold, hk.revision lock old hlock hn hold]
    · exact stampedProperties_of_ne hs fun lock hlock hne => hl ⟨lock, hlock, hne⟩

lemma getElem?_syncToSqlRecord (o : TSqlObject V) (i : ℕ) :
    (syncToSqlRecord cls o).record[i]? = cls.columns[i]?.map fun c =>
      (c, ((columnProperty cls i).map fun q => o.property q.name).getD Variant.null) := by
  have hindex : ∀ n : String,
      QSqlRecord.indexOf (cls.columns.map fun c => (c, (Variant.null : V))) n =
        cls.columns.findIdx fun c => Same c n := fun n => List.findIdx_map _ _ _
  rw [syncToSqlRecord, QSqlRecord.getElem?_foldl_setValue, List.getElem?_map, Option.map_map]
  simp only [hindex]
  rfl

lemma syncToSqlRecord_eq_iff (cls : SqlClass) (o : TSqlObject V) :
    (syncToSqlRecord cls o).record = o.record ↔ Settled cls o.record o.property := by
  constructor
  · intro heq
    have hcolumns : o.record.map Prod.fst = cls.columns := by rw [← heq, map_fst_syncToSqlRecord]
    refine ⟨hcolumns, fun i f hf => ?_⟩
    rw [← heq, getElem?_syncToSqlRecord, Option.map_eq_some_iff] at hf
    obtain ⟨c, -, rfl⟩ := hf
    rfl
  · intro h
    refine List.ext_getElem? fun i => ?_
    rw [getElem?_syncToSqlRecord, ← h.columns, List.getElem?_map, Option.map_map]
    cases hf : o.record[i]? with
    | none => rfl
    | some f =>
      rw [Option.map_some, Function.comp_apply, ← h.values i f hf]

section
variable [DecidableEq V]

/-- **Every call that fails** leaves by one of the exits. -/
lemma failed_update {exec : UpdateStatement V → Except String ℤ}
    (hfailed : (update cls now user exec o).1 ≠ .returned true) :
    Failed cls now user o (update cls now user exec o).2.1 := by
  by_cases hnew : isNew o = true
  · rw [update, if_pos hnew]
    exact .new hnew rfl rfl
  rw [Bool.not_eq_true] at hnew
  by_cases hrevised : Revised cls o
  · obtain ⟨revision, hstamp⟩ := stampLoop_of_revised hrevised now user
    rw [update, hnew, hstamp] at hfailed ⊢
    simp only [Bool.false_eq_true, if_false] at hfailed ⊢
    by_cases hempty : cls.primaryKeyIndexList.isEmpty = true
    · have hnil : cls.primaryKeyIndexList = [] := by simpa using hempty
      rw [if_pos hempty]
      -- the class has no key
      refine .keys hnew hrevised (.inl hnil) rfl ?_
      rw [reachedProperties, hnil]
      simp
    rw [if_neg hempty] at hfailed ⊢
    have hkeys := keyLoop_eq cls o.record cls.primaryKeyIndexList
      (stampedProperties cls now user o.property)
    by_cases hvalid : ∀ idx ∈ cls.primaryKeyIndexList, ValidKey cls idx
    · rw [if_pos hvalid] at hkeys
      simp only [hkeys] at hfailed ⊢
      split at hfailed
      · exact absurd rfl hfailed
      · rename_i hset
        have hupdatable : Updatable cls o := ⟨hnew, hrevised, by simpa using hempty, hvalid⟩
        rw [if_neg hset, ← reachedProperties_of_valid hvalid]
        split
        · exact .statement hupdatable rfl rfl
        · split
          · exact .statement hupdatable rfl rfl
          · exact .statement hupdatable rfl rfl
    · rw [if_neg hvalid] at hkeys
      simp only [hkeys]
      -- a key stands for no property: those before it have been restored
      exact .keys hnew hrevised (.inr (by push Not at hvalid; exact hvalid)) rfl rfl
  · -- the revision is no number: what stands in front of it has been stamped
    have hlocked : ∃ lock, lockProperty cls.ownProperties = some lock ∧
        revisionOf (o.property lock.name) = none := by
      simpa [Revised] using hrevised
    obtain ⟨lock, hlock, hnone⟩ := hlocked
    obtain ⟨before, hbefore, hrun⟩ := stampLoop_refused now user hlock hnone
    rw [update, hnew, hrun]
    exact .revision before hrevised hbefore rfl rfl

/-- **A call that fails** leaves the object as it was exactly if it is refused before anything is
changed, or if nothing is changed. -/
theorem unchanged_of_update_iff {exec : UpdateStatement V → Except String ℤ}
    (hfailed : (update cls now user exec o).1 ≠ .returned true) :
    Unchanged cls o (update cls now user exec o).2.1 ↔
      Refusable cls o ∨ Coincides cls now user o := by
  cases failed_update hfailed with
  | new hnew hrecord hproperty =>
    -- nothing has been stamped yet
    have hrefused : Refusable cls o := .inl hnew
    exact iff_of_true ⟨hrecord, fun n _ => by rw [hproperty]⟩ (.inl hrefused)
  | revision before hrevised hbefore hrecord hproperty =>
    have hrefused : Refusable cls o := .inr (.inl hrevised)
    refine iff_of_true ⟨hrecord, fun n hn => ?_⟩ (.inl hrefused)
    rw [hproperty, stampAll_of_not fun hs => hn (hbefore n hs)]
  | keys hnew hrevised hkeyless hrecord hproperty =>
    have hkept := reachedProperties_eq_iff now user hrevised
    rw [← hproperty] at hkept
    constructor
    · intro hu
      exact .inl (.inr (.inr ⟨hkeyless, hkept.mp hu.property⟩))
    · rintro (h | h)
      · exact ⟨hrecord, hkept.mpr (h.kept hnew hrevised)⟩
      · exact absurd hkeyless (not_keyless h.updatable)
  | statement hupdatable hproperty hrecord =>
    have hkept := reachedProperties_eq_iff now user hupdatable.revision
    rw [← hproperty] at hkept
    have hsettled := syncToSqlRecord_eq_iff cls
      { o with property := reachedProperties cls now user o }
    rw [← hrecord] at hsettled
    constructor
    · intro hu
      exact .inr ⟨hupdatable, hkept.mp hu.property, hsettled.mp hu.record⟩
    · rintro (h | h)
      · exact absurd h (not_refusable hupdatable)
      · exact ⟨hsettled.mpr h.settled, hkept.mpr h.kept⟩

end

theorem unchanged_of_update_iff_note :
    Unchanged note edited (update note .null .null (fun _ => .error "locked") edited).2.1 ↔
      Refusable note edited ∨ Coincides note .null .null edited :=
  unchanged_of_update_iff (by decide +kernel)

/-- An error of the driver, with the revision counted up. -/
theorem not_unchanged_note :
    ¬ ∀ (cls : SqlClass) (o : TSqlObject Cell) (now user : Cell)
        (exec : UpdateStatement Cell → Except String ℤ),
      (update cls now user exec o).1 ≠ .returned true →
        Unchanged cls o (update cls now user exec o).2.1 := by
  intro h
  have hunchanged := h note edited .null .null (fun _ => .error "locked") (by decide +kernel)
  have hproperty := hunchanged.property "lock_revision" (by decide +kernel)
  revert hproperty
  decide +kernel

end TreeFrog.SqlFailedUpdate
