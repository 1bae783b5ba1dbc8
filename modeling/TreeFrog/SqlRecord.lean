import Mathlib.Data.List.Basic
import Mathlib.Algebra.Order.Ring.Int

/-!
Records: the fields of a row in the order of the table. Names of fields and columns are
compared without regard to case.
-/

namespace TreeFrog.SqlRecord

/-- What is used of `QVariant`: the null value and the conversion to `int`. -/
class Variant (V : Type) where
  null : V
  toInt : V → Option ℤ
  ofInt : ℤ → V
  toInt_ofInt : ∀ n : ℤ, -2 ^ 31 ≤ n → n < 2 ^ 31 → toInt (ofInt n) = some n

abbrev QSqlRecord (V : Type) := List (String × V)

/-- Two names of one column. -/
def Same (m n : String) : Prop := m.toLower = n.toLower

instance (m n : String) : Decidable (Same m n) := inferInstanceAs (Decidable (_ = _))

namespace QSqlRecord

variable {V : Type}

/-- `QSqlRecord::value`; `none` is the invalid variant of a field that does not exist. -/
def value (r : QSqlRecord V) (name : String) : Option V :=
  (r.find? fun f => Same f.1 name).map Prod.snd

/-- `QSqlRecord::setValue` at the index of the name; without such a field nothing is set. -/
def setValue : QSqlRecord V → String → V → QSqlRecord V
  | [], _, _ => []
  | f :: r, name, v => if Same f.1 name then (f.1, v) :: r else f :: setValue r name v

lemma value_cons (f : String × V) (r : QSqlRecord V) (name : String) :
    value (f :: r) name = if Same f.1 name then some f.2 else value r name := by
  by_cases h : Same f.1 name <;> simp [value, h]

@[simp] lemma map_fst_setValue (r : QSqlRecord V) (name : String) (v : V) :
    (setValue r name v).map Prod.fst = r.map Prod.fst := by
  induction r with
  | nil => rfl
  | cons f r ih => by_cases h : Same f.1 name <;> simp [setValue, h, ih]

lemma value_isSome {r : QSqlRecord V} {name : String} :
    (value r name).isSome = true ↔ ∃ c ∈ r.map Prod.fst, Same c name := by
  simp [value]

lemma value_setValue (r : QSqlRecord V) (m n : String) (v : V) :
    value (setValue r m v) n =
      if Same m n then (value r n).map fun _ => v else value r n := by
  induction r with
  | nil => simp [setValue, value]
  | cons f r ih =>
    by_cases hf : Same f.1 m
    · by_cases hmn : Same m n
      · have hfn : Same f.1 n := by unfold Same at *; rw [hf, hmn]
        simp [setValue, hf, value_cons, hfn, hmn]
      · have hfn : ¬ Same f.1 n := by unfold Same at *; rwa [hf]
        simp [setValue, hf, value_cons, hfn, hmn]
    · rw [setValue, if_neg hf, value_cons, value_cons, ih]
      by_cases hfn : Same f.1 n
      · have hmn : ¬ Same m n := by
          unfold Same at *
          rw [← hfn]
          exact fun h => hf h.symm
        simp [hfn, hmn]
      · simp [hfn]

lemma value_foldl_setValue {α : Type} (name : α → String) (v : α → V) (as : List α)
    (r : QSqlRecord V) {n : String} {w : V} (h : ∀ a ∈ as, Same (name a) n → v a = w) :
    value (as.foldl (fun r a => r.setValue (name a) (v a)) r) n =
      if ∃ a ∈ as, Same (name a) n then (value r n).map fun _ => w else value r n := by
  induction as generalizing r with
  | nil => simp
  | cons a as ih =>
    rw [List.foldl_cons, ih _ fun b hb => h b (List.mem_cons_of_mem _ hb), value_setValue]
    by_cases ha : Same (name a) n
    · simp [ha, h a (by simp) ha, Function.comp_def]
    · simp [ha]

@[simp] lemma map_fst_foldl_setValue {α : Type} (name : α → String) (v : α → V) (as : List α)
    (r : QSqlRecord V) :
    (as.foldl (fun r a => r.setValue (name a) (v a)) r).map Prod.fst = r.map Prod.fst := by
  induction as generalizing r with
  | nil => rfl
  | cons a as ih => rw [List.foldl_cons, ih, map_fst_setValue]

/-- `QSqlRecord::indexOf`; a name without a field has the number of fields. -/
def indexOf (r : QSqlRecord V) (name : String) : ℕ := r.findIdx fun f => Same f.1 name

@[simp] lemma indexOf_setValue (r : QSqlRecord V) (m n : String) (v : V) :
    indexOf (setValue r m v) n = indexOf r n := by
  have hnames : ∀ s : QSqlRecord V, indexOf s n = (s.map Prod.fst).findIdx fun c => Same c n :=
    fun s => by rw [List.findIdx_map]; rfl
  rw [hnames, hnames, map_fst_setValue]

lemma getElem?_setValue (r : QSqlRecord V) (name : String) (v : V) (i : ℕ) :
    (setValue r name v)[i]? =
      r[i]?.map fun f => (f.1, if indexOf r name = i then v else f.2) := by
  induction r generalizing i with
  | nil => rfl
  | cons f r ih =>
    by_cases hf : Same f.1 name
    · cases i <;> simp [setValue, indexOf, List.findIdx_cons, hf]
    · cases i with
      | zero => simp [setValue, indexOf, List.findIdx_cons, hf]
      | succ i =>
        have hindex : indexOf (f :: r) name = indexOf r name + 1 := by
          simp [indexOf, List.findIdx_cons, hf]
        rw [setValue, if_neg hf, List.getElem?_cons_succ, List.getElem?_cons_succ, ih]
        simp only [hindex, Nat.add_right_cancel_iff]

/-- **After many fields are set**, a field has the value that was set last at its index. -/
lemma getElem?_foldl_setValue {α : Type} (name : α → String) (v : α → V) (as : List α)
    (r : QSqlRecord V) (i : ℕ) :
    (as.foldl (fun r a => r.setValue (name a) (v a)) r)[i]? = r[i]?.map fun f =>
      (f.1, ((as.reverse.find? fun a => indexOf r (name a) = i).map v).getD f.2) := by
  induction as generalizing r with
  | nil => simp
  | cons a as ih =>
    rw [List.foldl_cons, ih, getElem?_setValue, List.reverse_cons, List.find?_append,
      Option.map_map]
    congr 1
    funext f
    simp only [Function.comp_apply, indexOf_setValue]
    cases as.reverse.find? fun a => indexOf r (name a) = i with
    | some b => rfl
    | none => by_cases ha : indexOf r (name a) = i <;> simp [ha]

lemma exists_value {r : QSqlRecord V} {columns : List String} (hr : r.map Prod.fst = columns)
    {n : String} (hn : n ∈ columns) : ∃ v, value r n = some v := by
  rw [← Option.isSome_iff_exists, value_isSome, hr]
  exact ⟨n, hn, rfl⟩

end QSqlRecord

end TreeFrog.SqlRecord
