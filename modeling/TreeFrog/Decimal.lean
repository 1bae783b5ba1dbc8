import TreeFrog.Bytes

/-!
Decimal numbers: the digits of a number as bytes, and their value.
-/

namespace TreeFrog.Decimal

open Bytes

/-- The digits of a natural number, without leading zeros. -/
def decimal (n : ℕ) : QByteArray := (Nat.toDigits 10 n).map fun c => UInt8.ofNat c.toNat

/-- `QByteArray::number`. -/
def number (n : ℤ) : QByteArray := if n < 0 then 45 :: decimal n.natAbs else decimal n.natAbs

lemma decimal_rec (n : ℕ) :
    decimal n = if n < 10 then [UInt8.ofNat (48 + n)] else
      decimal (n / 10) ++ [UInt8.ofNat (48 + n % 10)] := by
  unfold decimal
  rw [Nat.toDigits_eq_if (by decide)]
  split_ifs with h
  · rw [List.map_singleton, Nat.toNat_digitChar_of_lt_ten h]
  · rw [List.map_append, List.map_singleton,
      Nat.toNat_digitChar_of_lt_ten (Nat.mod_lt n (by decide))]

lemma isdigit_ofNat {k : ℕ} (h : k < 10) : isdigit (UInt8.ofNat (48 + k)) = true := by
  have hk : (UInt8.ofNat (48 + k)).toNat = 48 + k := by
    rw [UInt8.toNat_ofNat']
    omega
  simp only [isdigit, Bool.and_eq_true, decide_eq_true_eq, UInt8.le_iff_toNat_le, hk]
  exact ⟨Nat.le_add_right 48 k, by change 48 + k ≤ 57; omega⟩

lemma digitsVal_concat (ds : QByteArray) (d : UInt8) :
    digitsVal (ds ++ [d]) = 10 * digitsVal ds + (d.toNat - 48) := by
  simp [digitsVal]

lemma isdigit_of_mem_decimal {n : ℕ} {c : UInt8} (h : c ∈ decimal n) : isdigit c = true := by
  induction n using Nat.strong_induction_on with
  | _ n ih =>
    rw [decimal_rec] at h
    split_ifs at h with hn
    · rw [List.mem_singleton.mp h]
      exact isdigit_ofNat hn
    · rcases List.mem_append.mp h with h | h
      · exact ih (n / 10) (by omega) h
      · rw [List.mem_singleton.mp h]
        exact isdigit_ofNat (Nat.mod_lt n (by decide))

lemma decimal_ne_nil (n : ℕ) : decimal n ≠ [] := by
  rw [decimal_rec]
  split_ifs
  · exact List.cons_ne_nil _ _
  · exact List.append_ne_nil_of_right_ne_nil _ (List.cons_ne_nil _ _)

/-- **Round trip**: the digits of a number have its value. -/
theorem digitsVal_decimal (n : ℕ) : digitsVal (decimal n) = n := by
  induction n using Nat.strong_induction_on with
  | _ n ih =>
    have hdigit : ∀ k < 10, (UInt8.ofNat (48 + k)).toNat - 48 = k := by
      intro k hk
      rw [UInt8.toNat_ofNat']
      omega
    rw [decimal_rec]
    split_ifs with hn
    · calc digitsVal [UInt8.ofNat (48 + n)]
          = 10 * 0 + ((UInt8.ofNat (48 + n)).toNat - 48) := rfl
        _ = n := by rw [hdigit n hn]; omega
    · calc digitsVal (decimal (n / 10) ++ [UInt8.ofNat (48 + n % 10)])
          = 10 * digitsVal (decimal (n / 10)) + ((UInt8.ofNat (48 + n % 10)).toNat - 48) :=
            digitsVal_concat _ _
        _ = 10 * (n / 10) + n % 10 := by
            rw [ih (n / 10) (by omega), hdigit _ (Nat.mod_lt n (by decide))]
        _ = n := Nat.div_add_mod n 10

end TreeFrog.Decimal
