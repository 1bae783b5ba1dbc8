import Mathlib.Data.List.Perm.Subperm
import TreeFrog.Criteria
import TreeFrog.SqlObject

/-!
`TSqlORMapper::findByPrimaryKey`: the criteria that the loop over the key properties builds.
The loop takes a property index for a position of the key list, so that the criteria names the
key where the indexes are the positions, in whatever order.
-/

namespace TreeFrog.SqlORMapper

open Criteria SqlObject

/-- `QList::at`; `none` where the access is outside of the list. -/
def listAt {α : Type} (l : List α) (i : ℤ) : Option α :=
  if 0 ≤ i then l[i.toNat]? else none

/-- `TCriteriaData(property, TSql::Equal, val)`. -/
def equalTo (property : ℤ) (val : QVariant) : TCriteriaData :=
  ⟨property, .equal, .invalid, val, .invalid⟩

/-- `TCriteria::add(int, const QVariant &)`. -/
def addEqual (cri : TCriteria) (property : ℤ) (val : QVariant) : TCriteria :=
  cri.add .and (.ofData (equalTo property val))

/-- How a call of `findByPrimaryKey` ends. -/
inductive Lookup where
  /-- An object with no row, and no search. -/
  | object
  | findFirst (cri : TCriteria)
  /-- An access outside of a list. -/
  | outside

/-- The loop of `findByPrimaryKey` over the rest of the indexes. -/
def addKeys (idxs : List ℤ) (pkList : List QVariant) :
    List ℤ → TCriteria → Option TCriteria
  | [], cri => some cri
  | idx :: rest, cri =>
    match listAt idxs idx, listAt pkList idx with
    | some property, some val => addKeys idxs pkList rest (addEqual cri property val)
    | _, _ => none

/-- `TSqlORMapper::findByPrimaryKey(QVariantList)`. -/
def findByPrimaryKey (cls : SqlClass) (pkList : List QVariant) : Lookup :=
  let idxs := cls.primaryKeyIndexList
  if idxs.isEmpty then .object
  else if idxs.length ≠ pkList.length then .object
  else
    match addKeys idxs pkList idxs .empty with
    | some cri => .findFirst cri
    | none => .outside

/-! ### What a criteria joins -/

/-- The comparisons that an operand joins with AND; `none` if it has another operator. -/
def conjuncts : Operand → Option (List TCriteriaData)
  | .null => some []
  | .data d => some [d]
  | .criteria cri1 _ .none => conjuncts cri1
  | .criteria cri1 cri2 .and => do return (← conjuncts cri1) ++ (← conjuncts cri2)
  | .criteria _ _ .or | .criteria _ _ .not => none

/-- The criteria is the conjunction of the comparisons `ds`. -/
structure Joins (cri : TCriteria) (ds : List TCriteriaData) : Prop where
  joined : conjuncts (TCriteria.fromValue cri) = some ds
  empty : cri.isEmpty = true → ds = []

lemma joins_empty : Joins .empty [] := ⟨rfl, fun _ => rfl⟩

lemma joins_addEqual {cri : TCriteria} {ds : List TCriteriaData} (h : Joins cri ds)
    (property : ℤ) (val : QVariant) :
    Joins (addEqual cri property val) (ds ++ [equalTo property val]) := by
  obtain ⟨hds, hempty⟩ := h
  refine ⟨?_, fun h => by simp [addEqual] at h⟩
  obtain ⟨cri1, cri2, logiOp⟩ := cri
  by_cases hnull : cri1.isNull
  · obtain rfl := hempty hnull
    simp [addEqual, TCriteria.add, hnull, TCriteria.fromValue, TCriteria.ofData,
      conjuncts]
  · cases logiOp with
    | none | and =>
      simp_all [addEqual, TCriteria.add, TCriteria.fromValue, TCriteria.ofData,
        conjuncts]
    | or | not => simp [TCriteria.fromValue, conjuncts] at hds

/-! ### The key -/

/-- The comparisons of a key: each property with the value at its own position. -/
def keyConjuncts (idxs : List ℤ) (pkList : List QVariant) : List TCriteriaData :=
  (idxs.zip pkList).map fun key => equalTo key.1 key.2

/-- The lookup searches with the conjunction over the whole key; without a key it does not
search. -/
def Exact (cls : SqlClass) (pkList : List QVariant) : Prop :=
  match findByPrimaryKey cls pkList with
  | .object => cls.primaryKeyIndexList = []
  | .findFirst cri =>
    ∃ ds, conjuncts (TCriteria.fromValue cri) = some ds ∧
      ∀ d, d ∈ ds ↔ d ∈ keyConjuncts cls.primaryKeyIndexList pkList
  | .outside => False

/-- Every index is a position of the list, and what stands at any position, the property with
its value, stands at one that is an index. -/
structure Positions (idxs : List ℤ) (pkList : List QVariant) : Prop where
  position : ∀ idx ∈ idxs, 0 ≤ idx ∧ idx < idxs.length
  index : ∀ key ∈ idxs.zip pkList, ∃ idx ∈ idxs, listAt (idxs.zip pkList) idx = some key

section Loop

variable {idxs : List ℤ} {pkList : List QVariant}

lemma listAt_eq_none {α : Type} {l : List α} {i : ℤ} :
    listAt l i = none ↔ ¬(0 ≤ i ∧ i < l.length) := by
  unfold listAt
  split_ifs with h
  · rw [List.getElem?_eq_none_iff]
    omega
  · simp [h]

lemma listAt_map {α β : Type} (f : α → β) (l : List α) (i : ℤ) :
    listAt (l.map f) i = (listAt l i).map f := by
  unfold listAt
  split_ifs with h
  · rw [List.getElem?_map]
  · rfl

lemma listAt_zip {α β : Type} (xs : List α) (ys : List β) (i : ℤ) :
    listAt (xs.zip ys) i = (listAt xs i).bind fun x => (listAt ys i).map fun y => (x, y) := by
  unfold listAt
  split_ifs with h
  · rw [List.zip, List.getElem?_zipWith]
    cases xs[i.toNat]? <;> cases ys[i.toNat]? <;> rfl
  · rfl

lemma listAt_keyConjuncts (idxs : List ℤ) (pkList : List QVariant) (i : ℤ) :
    listAt (keyConjuncts idxs pkList) i =
      (listAt idxs i).bind fun property => (listAt pkList i).map (equalTo property) := by
  rw [keyConjuncts, listAt_map, listAt_zip]
  cases listAt idxs i <;> cases listAt pkList i <;> rfl

lemma mem_of_listAt {α : Type} {l : List α} {i : ℤ} {a : α} (h : listAt l i = some a) :
    a ∈ l := by
  unfold listAt at h
  split_ifs at h
  exact List.mem_of_getElem? h

lemma addKeys_spec (idxs : List ℤ) (pkList : List QVariant) (rest : List ℤ) {cri : TCriteria}
    {ds : List TCriteriaData} (h : Joins cri ds) :
    (∃ cri' es, addKeys idxs pkList rest cri = some cri' ∧ Joins cri' (ds ++ es) ∧
      rest.map (listAt (keyConjuncts idxs pkList)) = es.map some) ∨
    (addKeys idxs pkList rest cri = none ∧
      ∃ idx ∈ rest, listAt (keyConjuncts idxs pkList) idx = none) := by
  induction rest generalizing cri ds with
  | nil => exact .inl ⟨cri, [], rfl, by simpa using h, rfl⟩
  | cons idx rest ih =>
    have hat := listAt_keyConjuncts idxs pkList idx
    unfold addKeys
    cases hp : listAt idxs idx with
    | none => exact .inr ⟨rfl, idx, List.mem_cons_self, by simp [hat, hp]⟩
    | some property =>
      cases hv : listAt pkList idx with
      | none => exact .inr ⟨rfl, idx, List.mem_cons_self, by simp [hat, hp, hv]⟩
      | some val =>
        have hd : listAt (keyConjuncts idxs pkList) idx = some (equalTo property val) := by
          simp [hat, hp, hv]
        rcases ih (joins_addEqual h property val) with
          ⟨cri', es, hrun, hj, hes⟩ | ⟨hrun, i, hi, hn⟩
        · exact .inl ⟨cri', equalTo property val :: es, hrun, by simpa using hj, by
            simp [hd, hes]⟩
        · exact .inr ⟨hrun, i, List.mem_cons_of_mem _ hi, hn⟩

lemma mem_iff_of_map {α β : Type} {f : α → Option β} {as : List α} {bs : List β}
    (h : as.map f = bs.map some) (b : β) : b ∈ bs ↔ ∃ a ∈ as, f a = some b := by
  have hmem : some b ∈ bs.map some ↔ some b ∈ as.map f := by rw [h]
  simpa using hmem

lemma listAt_key_ne_none (hlen : pkList.length = idxs.length) {i : ℤ} :
    listAt (keyConjuncts idxs pkList) i ≠ none ↔ 0 ≤ i ∧ i < idxs.length := by
  rw [Ne, listAt_eq_none, not_not]
  simp [keyConjuncts, hlen]

lemma equalTo_injective :
    Function.Injective fun key : ℤ × QVariant => equalTo key.1 key.2 := by
  rintro ⟨p, v⟩ ⟨p', v'⟩ h
  simpa [equalTo] using h

end Loop

/-- **The key of a lookup**: with as many values as key properties, the lookup searches with
exactly the conjunction over the key if and only if the indexes are the positions. -/
theorem exact_iff_positions (cls : SqlClass) (pkList : List QVariant)
    (hlen : pkList.length = cls.primaryKeyIndexList.length) :
    Exact cls pkList ↔ Positions cls.primaryKeyIndexList pkList := by
  unfold Exact findByPrimaryKey
  generalize cls.primaryKeyIndexList = idxs at hlen ⊢
  simp only [List.isEmpty_iff, hlen, ne_eq, not_true_eq_false, if_false]
  split_ifs with hidxs
  · subst hidxs
    exact ⟨fun _ => ⟨nofun, nofun⟩, fun _ => rfl⟩
  rcases addKeys_spec idxs pkList idxs joins_empty with
    ⟨cri, es, hrun, hj, hes⟩ | ⟨hrun, i, hi, hnone⟩
  · have hmem := mem_iff_of_map hes
    simp only [hrun]
    constructor
    · rintro ⟨ds, hds, hexact⟩
      obtain rfl : es = ds := by simpa [hds] using hj.joined.symm
      refine ⟨fun idx hidx => (listAt_key_ne_none hlen).mp ?_, fun key hkey => ?_⟩
      · have hsome : listAt (keyConjuncts idxs pkList) idx ∈ es.map some :=
          hes ▸ List.mem_map_of_mem hidx
        obtain ⟨d, -, hd⟩ := List.mem_map.mp hsome
        simp [← hd]
      · obtain ⟨idx, hidx, hat⟩ :=
          (hmem _).mp ((hexact _).mpr (List.mem_map_of_mem hkey))
        rw [keyConjuncts, listAt_map] at hat
        obtain ⟨key', hkey', heq⟩ := Option.map_eq_some_iff.mp hat
        exact ⟨idx, hidx, equalTo_injective heq ▸ hkey'⟩
    · rintro ⟨-, hindex⟩
      refine ⟨es, by simpa using hj.joined, fun d => (hmem d).trans ⟨?_, fun hd => ?_⟩⟩
      · rintro ⟨idx, -, hat⟩
        exact mem_of_listAt hat
      · obtain ⟨key, hkey, rfl⟩ := List.mem_map.mp hd
        obtain ⟨idx, hidx, hat⟩ := hindex key hkey
        exact ⟨idx, hidx, by simp [keyConjuncts, listAt_map, hat]⟩
  · -- a position that no key stands for ends the loop
    simp only [hrun, false_iff]
    intro hpos
    exact (listAt_key_ne_none hlen).mpr (hpos.position i hi) hnone

/-- A key of the second and the third property: the loop reads outside of the list. -/
theorem not_exact_later_columns :
    ¬Exact ⟨⟨[], 0⟩, [1, 2], "entry", ["title", "blog", "number"]⟩
      [.value 2 "7", .value 2 "3"] := by
  simp [Exact, findByPrimaryKey, addKeys, listAt]

theorem exact_iff_positions_swapped :
    Exact ⟨⟨[], 0⟩, [1, 0], "entry", ["blog", "number"]⟩ [.value 2 "7", .value 2 "3"] ↔
      Positions [1, 0] [.value 2 "7", .value 2 "3"] :=
  exact_iff_positions _ _ rfl

/-- Where no property stands twice in the key, the indexes are the positions as soon as they
are the first ones, in any order. -/
theorem positions_iff_of_nodup {idxs : List ℤ} {pkList : List QVariant} (hnodup : idxs.Nodup) :
    Positions idxs pkList ↔ ∀ idx ∈ idxs, 0 ≤ idx ∧ idx < idxs.length := by
  refine ⟨fun h => h.position, fun h => ⟨h, fun key hkey => ?_⟩⟩
  obtain ⟨i, hi, hat⟩ := List.mem_iff_getElem.mp hkey
  have hlt : i < idxs.length := by
    have := List.length_zip ▸ hi
    omega
  have hsub : idxs ⊆ (List.range idxs.length).map Int.ofNat := by
    intro idx hidx
    obtain ⟨h0, hn⟩ := h idx hidx
    exact List.mem_map.mpr ⟨idx.toNat, by simpa using by omega, Int.toNat_of_nonneg h0⟩
  have hperm : idxs.Perm ((List.range idxs.length).map Int.ofNat) :=
    (List.subperm_of_subset hnodup hsub).perm_of_length_le (by simp)
  refine ⟨Int.ofNat i, hperm.mem_iff.mpr (List.mem_map.mpr ⟨i, by simpa using hlt, rfl⟩), ?_⟩
  simpa [listAt] using List.getElem?_eq_some_iff.mpr ⟨hi, hat⟩

end TreeFrog.SqlORMapper
