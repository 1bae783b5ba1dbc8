import Mathlib.Data.List.Induction
import TreeFrog.Bytes

/-!
Bytes as hexadecimal digits. Reading begins at the end of a text and passes over what is no digit.
-/

namespace TreeFrog.Hex

open Bytes

def hexDigit (n : ℕ) : UInt8 := if n < 10 then UInt8.ofNat (48 + n) else UInt8.ofNat (87 + n)

def hexValue? (c : UInt8) : Option ℕ :=
  if 48 ≤ c ∧ c ≤ 57 then some (c.toNat - 48)
  else if 97 ≤ c ∧ c ≤ 102 then some (c.toNat - 87)
  else if 65 ≤ c ∧ c ≤ 70 then some (c.toNat - 55)
  else none

def toHex (b : QByteArray) : QByteArray :=
  b.flatMap fun c => [hexDigit (c.toNat / 16), hexDigit (c.toNat % 16)]

/-- The bytes of digits, the last digit first. -/
def ofDigits : List ℕ → QByteArray
  | [] => []
  | [low] => [UInt8.ofNat low]
  | low :: high :: digits => UInt8.ofNat (16 * high + low) :: ofDigits digits

def fromHex (b : QByteArray) : QByteArray := (ofDigits (b.reverse.filterMap hexValue?)).reverse

lemma hexValue?_hexDigit : ∀ n < 16, hexValue? (hexDigit n) = some n := by decide

lemma toHex_concat (b : QByteArray) (c : UInt8) :
    toHex (b ++ [c]) = toHex b ++ [hexDigit (c.toNat / 16), hexDigit (c.toNat % 16)] := by
  rw [toHex, List.flatMap_append, List.flatMap_singleton]
  rfl

/-- **Round trip**. -/
theorem fromHex_toHex (b : QByteArray) : fromHex (toHex b) = b := by
  unfold fromHex
  rw [List.reverse_eq_iff]
  induction b using List.reverseRecOn with
  | nil => rfl
  | append_singleton b c ih =>
    have hc := c.toNat_lt
    have hlow := hexValue?_hexDigit (c.toNat % 16) (Nat.mod_lt _ (by decide))
    have hhigh := hexValue?_hexDigit (c.toNat / 16) (by omega)
    have hbyte : UInt8.ofNat (16 * (c.toNat / 16) + c.toNat % 16) = c := by
      rw [Nat.div_add_mod, UInt8.ofNat_toNat]
    rw [toHex_concat, List.reverse_append]
    change ofDigits ((hexDigit (c.toNat % 16) :: hexDigit (c.toNat / 16) ::
      (toHex b).reverse).filterMap hexValue?) = _
    rw [List.filterMap_cons_some hlow, List.filterMap_cons_some hhigh, ofDigits, hbyte, ih,
      List.reverse_append, List.reverse_singleton, List.singleton_append]

lemma mem_toHex {b : QByteArray} {x : UInt8} (h : x ∈ toHex b) : ∃ n < 16, x = hexDigit n := by
  obtain ⟨c, -, hx⟩ := List.mem_flatMap.mp h
  have hc := c.toNat_lt
  rcases List.mem_cons.mp hx with rfl | hx
  · exact ⟨_, by omega, rfl⟩
  · exact ⟨_, Nat.mod_lt _ (by decide), List.mem_singleton.mp hx⟩

lemma toHex_ne_nil {b : QByteArray} (h : b ≠ []) : toHex b ≠ [] := by
  cases b with
  | nil => exact absurd rfl h
  | cons c b => exact List.cons_ne_nil _ _

end TreeFrog.Hex
