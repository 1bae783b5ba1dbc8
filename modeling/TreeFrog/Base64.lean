import Mathlib.Data.List.Basic
import Mathlib.Tactic.IntervalCases

/-!
Base64 with padding. The decoder passes over everything outside its alphabet, padding included, so
it takes what follows an encoded text for more of it.
-/

namespace TreeFrog.Base64

/-! ### The code -/

/-- The letter for six bits. -/
def letter (d : ℕ) : UInt8 :=
  UInt8.ofNat (if d < 26 then 65 + d else if d < 52 then 71 + d else if d < 62 then d - 4
    else if d = 62 then 43 else 47)

/-- The six bits of a letter. -/
def value (c : UInt8) : Option ℕ :=
  if 65 ≤ c ∧ c ≤ 90 then some (c.toNat - 65)
  else if 97 ≤ c ∧ c ≤ 122 then some (c.toNat - 71)
  else if 48 ≤ c ∧ c ≤ 57 then some (c.toNat + 4)
  else if c = 43 then some 62
  else if c = 47 then some 63
  else none

def pad : UInt8 := 61

/-- The letters of a chunk of three bytes. -/
def group (a b c : UInt8) : List ℕ :=
  let chunk := a.toNat * 65536 + b.toNat * 256 + c.toNat
  [chunk / 262144, chunk / 4096 % 64, chunk / 64 % 64, chunk % 64]

def toBase64 : List UInt8 → List UInt8
  | [] => []
  | [a] => ((group a 0 0).take 2).map letter ++ [pad, pad]
  | [a, b] => ((group a b 0).take 3).map letter ++ [pad]
  | a :: b :: c :: bs => (group a b c).map letter ++ toBase64 bs

/-- The loop of the decoder: `buf` holds `nbits` bits that are not a byte yet. -/
def decode (buf nbits : ℕ) : List UInt8 → List UInt8
  | [] => []
  | c :: cs =>
    match value c with
    | none => decode buf nbits cs
    | some d =>
      if 8 ≤ nbits + 6 then
        UInt8.ofNat ((buf * 64 + d) / 2 ^ (nbits - 2)) ::
          decode ((buf * 64 + d) % 2 ^ (nbits - 2)) (nbits - 2) cs
      else decode (buf * 64 + d) (nbits + 6) cs

def fromBase64 (base64 : List UInt8) : List UInt8 := decode 0 0 base64

/-- The letters of a text. -/
def letters (s : List UInt8) : ℕ := s.countP fun c => (value c).isSome

/-! ### Letters -/

variable {s : List UInt8} {c : UInt8} {buf nbits d : ℕ}

lemma value_letter (h : d < 64) : value (letter d) = some d := by
  have hall : ∀ d : Fin 64, value (letter d) = some (d : ℕ) := by decide +kernel
  exact hall ⟨d, h⟩

lemma decode_letter (h : d < 64) (buf nbits : ℕ) (s : List UInt8) :
    decode buf nbits (letter d :: s) = if 8 ≤ nbits + 6 then
        UInt8.ofNat ((buf * 64 + d) / 2 ^ (nbits - 2)) ::
          decode ((buf * 64 + d) % 2 ^ (nbits - 2)) (nbits - 2) s
      else decode (buf * 64 + d) (nbits + 6) s := by
  rw [decode, value_letter h]

lemma decode_of_none (h : value c = none) (buf nbits : ℕ) (s : List UInt8) :
    decode buf nbits (c :: s) = decode buf nbits s := by rw [decode, h]

lemma letters_cons_some (h : value c = some d) (s : List UInt8) :
    letters (c :: s) = letters s + 1 :=
  List.countP_cons_of_pos (by simp [h])

lemma letters_cons_none (h : value c = none) (s : List UInt8) : letters (c :: s) = letters s :=
  List.countP_cons_of_neg (by simp [h])

lemma decode_eq_nil (hbits : nbits < 8) :
    decode buf nbits s = [] ↔ nbits + 6 * letters s < 8 := by
  induction s generalizing buf nbits with
  | nil => simp [decode, letters, hbits]
  | cons c s ih =>
    rcases hc : value c with _ | d
    · rw [decode_of_none hc, letters_cons_none hc, ih hbits]
    · rw [decode, hc, letters_cons_some hc]
      dsimp only
      by_cases h : 8 ≤ nbits + 6
      · rw [if_pos h]
        exact iff_of_false (List.cons_ne_nil _ _) (by omega)
      · rw [if_neg h, ih (by omega)]
        omega

/-! ### Decoding what is encoded -/

lemma ofNat_eq {a : UInt8} {n : ℕ} (h : n = a.toNat) : UInt8.ofNat n = a := by
  rw [h, UInt8.ofNat_toNat]

lemma decode_group (a b c : UInt8) (s : List UInt8) :
    decode 0 0 ((group a b c).map letter ++ s) = a :: b :: c :: decode 0 0 s := by
  have ha := a.toNat_lt
  have hb := b.toNat_lt
  have hc := c.toNat_lt
  simp only [group, List.map_cons, List.map_nil, List.cons_append, List.nil_append]
  rw [decode_letter (by omega), if_neg (by omega), decode_letter (by omega), if_pos (by omega),
    decode_letter (by omega), if_pos (by omega), decode_letter (by omega), if_pos (by omega)]
  norm_num only
  refine congrArg₂ _ (ofNat_eq (by omega)) (congrArg₂ _ (ofNat_eq (by omega))
    (congrArg₂ _ (ofNat_eq (by omega)) (congrArg₂ (decode · 0) (Nat.mod_one _) rfl)))

/-- The bits that the letters have more than the bytes. -/
def spare (bs : List UInt8) : ℕ :=
  if bs.length % 3 = 0 then 0 else if bs.length % 3 = 1 then 4 else 2

/-- **The decoder gives the bytes back, and goes on** with what follows the encoded text. -/
theorem decode_toBase64 (bs s : List UInt8) :
    decode 0 0 (toBase64 bs ++ s) = bs ++ decode 0 (spare bs) s := by
  induction bs using toBase64.induct with
  | case1 => rfl
  | case2 a =>
    have ha := a.toNat_lt
    simp only [toBase64, group, List.take_succ_cons, List.take_zero, List.map_cons, List.map_nil,
      List.cons_append, List.nil_append, UInt8.toNat_zero]
    rw [decode_letter (by omega), if_neg (by omega), decode_letter (by omega), if_pos (by omega),
      decode_of_none (by decide), decode_of_none (by decide)]
    norm_num only
    exact congrArg₂ _ (ofNat_eq (by omega)) (congrArg₂ (decode · 4) (by omega) rfl)
  | case3 a b =>
    have ha := a.toNat_lt
    have hb := b.toNat_lt
    simp only [toBase64, group, List.take_succ_cons, List.take_zero, List.map_cons, List.map_nil,
      List.cons_append, List.nil_append, UInt8.toNat_zero]
    rw [decode_letter (by omega), if_neg (by omega), decode_letter (by omega), if_pos (by omega),
      decode_letter (by omega), if_pos (by omega), decode_of_none (by decide)]
    norm_num only
    exact congrArg₂ _ (ofNat_eq (by omega)) (congrArg₂ _ (ofNat_eq (by omega))
      (congrArg₂ (decode · 2) (by omega) rfl))
  | case4 a b c bs ih =>
    have hspare : spare (a :: b :: c :: bs) = spare bs := by
      have hmod : (a :: b :: c :: bs).length % 3 = bs.length % 3 := by
        simp only [List.length_cons]
        omega
      simp only [spare, hmod]
    rw [toBase64, List.append_assoc, decode_group, ih, hspare]
    rfl

lemma group_lt {a b : UInt8} (h : d ∈ group a b c) : d < 64 := by
  have ha := a.toNat_lt
  have hb := b.toNat_lt
  have hc := c.toNat_lt
  simp only [group, List.mem_cons, List.not_mem_nil, or_false] at h
  omega

lemma mem_toBase64 {bs : List UInt8} (h : c ∈ toBase64 bs) : c = pad ∨ (value c).isSome := by
  have hletter {ds : List ℕ} (hds : ∀ d ∈ ds, d < 64) (hc : c ∈ ds.map letter) :
      (value c).isSome := by
    obtain ⟨d, hd, rfl⟩ := List.mem_map.mp hc
    rw [value_letter (hds d hd)]
    rfl
  induction bs using toBase64.induct with
  | case1 => exact absurd h List.not_mem_nil
  | case2 a =>
    rw [toBase64, List.mem_append] at h
    rcases h with h | h
    · exact .inr (hletter (fun d hd => group_lt (List.mem_of_mem_take hd)) h)
    · exact .inl (by simpa using h)
  | case3 a b =>
    rw [toBase64, List.mem_append] at h
    rcases h with h | h
    · exact .inr (hletter (fun d hd => group_lt (List.mem_of_mem_take hd)) h)
    · exact .inl (by simpa using h)
  | case4 a b c bs ih =>
    rw [toBase64, List.mem_append] at h
    rcases h with h | h
    · exact .inr (hletter (fun d hd => group_lt hd) h)
    · exact ih h

lemma toBase64_ne_nil {bs : List UInt8} (h : bs ≠ []) : toBase64 bs ≠ [] := by
  rcases bs with _ | ⟨a, _ | ⟨b, _ | ⟨c, bs⟩⟩⟩
  · exact absurd rfl h
  · simp [toBase64]
  · simp [toBase64]
  · simp [toBase64, group]

end TreeFrog.Base64
