import TreeFrog.RedisDriver

/-!
Decoding a reply that is there as a whole: the positions at which its parts stand, and the arrays
without elements, which the decoder does not read.
-/

namespace TreeFrog.RedisDecode

open Bytes Decimal Search RedisReply RedisDriver TRedisDriver

variable {b rest : QByteArray} {pos : ℕ}

/-! ### Positions -/

lemma drop_add_of_append {t : QByteArray} (h : b.drop pos = t ++ rest) :
    b.drop (pos + t.length) = rest := by
  rw [← List.drop_drop, h, List.drop_left]

lemma charAt_of_cons {c : UInt8} {t : QByteArray} (h : b.drop pos = c :: t) : charAt b pos = c := by
  have hget : b[pos]? = some c := by
    rw [← Nat.add_zero pos, ← List.getElem?_drop, h]
    rfl
  rw [charAt, List.getD_eq_getElem?_getD, hget]
  rfl

lemma charAt_of_nil (h : b.drop pos = []) : charAt b pos = 0 := by
  rw [charAt, List.getD_eq_getElem?_getD, List.getElem?_eq_none (List.drop_eq_nil_iff.mp h)]
  rfl

lemma length_of_append {t : QByteArray} (ht : t ≠ []) (h : b.drop pos = t ++ rest) :
    pos + t.length + rest.length = b.length := by
  have hlength := congrArg List.length h
  have hpos := List.length_pos_iff.mpr ht
  rw [List.length_drop, List.length_append] at hlength
  omega

lemma indexOf_CRLF {l : QByteArray} (hl : CR ∉ l) (h : b.drop pos = l ++ (CRLF ++ rest)) :
    indexOf b CRLF pos = some (pos + l.length) := by
  have hzero : search CRLF (CRLF ++ rest) = some 0 := search_eq_zero (List.prefix_append _ _)
  rw [indexOf, h]
  rw [show search CRLF (l ++ (CRLF ++ rest)) = (search CRLF (CRLF ++ rest)).map (· + l.length) from
    search_skip hl, hzero, Option.map_some, Option.map_some, Nat.zero_add, Nat.add_comm]

/-! ### Numbers -/

lemma not_mem_CR_number (n : ℤ) : CR ∉ number n := by
  have hdecimal : ∀ k, CR ∉ decimal k := fun k h => by
    have := isdigit_of_mem_decimal h
    exact absurd this (by decide)
  unfold number
  split_ifs
  · rw [List.mem_cons, not_or]
    exact ⟨by decide, hdecimal _⟩
  · exact hdecimal _

lemma digits_decimal (k : ℕ) (t : QByteArray) : digits 0 (decimal k ++ CR :: t) = narrow k := by
  have hzero : narrow ((0 : ℕ) : ℤ) = 0 := by decide
  have hdigits : digits (narrow (0 : ℕ)) (decimal k ++ CR :: t) = narrow (digitsVal (decimal k)) :=
    digits_append (fun c hc => isdigit_of_mem_decimal hc) (by decide) t 0
  rwa [hzero, digitsVal_decimal] at hdigits

lemma signed_number {n : ℤ} (h0 : -2 ^ 31 ≤ n) (h1 : n < 2 ^ 31) (t : QByteArray) :
    signed (number n ++ CR :: t) = n := by
  unfold number
  split_ifs with hn
  · rw [List.cons_append, signed, if_pos rfl, digits_decimal]
    unfold narrow
    omega
  · have hdigits := digits_decimal n.natAbs t
    have hvalue : narrow (n.natAbs : ℤ) = n := by
      unfold narrow
      omega
    rw [hvalue] at hdigits
    cases hd : decimal n.natAbs with
    | nil => exact absurd hd (decimal_ne_nil _)
    | cons d ds =>
      have hne : d ≠ 45 := by
        rintro rfl
        have hdigit := isdigit_of_mem_decimal (n := n.natAbs) (c := 45) (by simp [hd])
        exact absurd hdigit (by decide)
      rw [hd, List.cons_append] at hdigits
      rw [List.cons_append, signed, if_neg hne, hdigits]

/-- **A number** is read, with the end of its line. -/
theorem getNumber_number {n : ℤ} (h0 : -2 ^ 31 ≤ n) (h1 : n < 2 ^ 31)
    (h : b.drop pos = number n ++ (CRLF ++ rest)) :
    getNumber b pos = some (n, pos + (number n ++ CRLF).length) := by
  have hsigned : signed (b.drop pos) = n := by
    rw [h]
    exact signed_number h0 h1 (LF :: rest)
  rw [getNumber, indexOf_CRLF (not_mem_CR_number n) h, Option.map_some, hsigned,
    List.length_append, ← Nat.add_assoc]
  rfl

/-! ### Elements -/

lemma getNumber_header {t : DataType} {n : ℤ} (h0 : -2 ^ 31 ≤ n) (h1 : n < 2 ^ 31)
    (h : b.drop pos = [t.char] ++ number n ++ CRLF ++ rest) :
    charAt b pos = t.char ∧
      getNumber b (pos + 1) = some (n, pos + ([t.char] ++ number n ++ CRLF).length) ∧
      b.drop (pos + ([t.char] ++ number n ++ CRLF).length) = rest := by
  refine ⟨charAt_of_cons (by simpa using h), ?_, drop_add_of_append h⟩
  have hone : b.drop (pos + 1) = number n ++ (CRLF ++ rest) :=
    drop_add_of_append (t := [t.char]) (by simpa using h)
  rw [getNumber_number h0 h1 hone]
  congr 2
  simp only [List.length_append, List.length_singleton]
  omega

lemma parseBulkString_toBulk {d : QByteArray} (hlen : b.length < 2 ^ 31)
    (h : b.drop pos = toBulk d ++ rest) :
    parseBulkString b pos = some (some d, pos + (toBulk d).length) := by
  have hd : d.length < 2 ^ 31 := by
    have hlength := length_of_append (by simp [toBulk]) h
    simp only [toBulk, List.length_append] at hlength
    omega
  have hheader : b.drop pos =
      [DataType.bulkString.char] ++ number d.length ++ CRLF ++ (d ++ CRLF ++ rest) := by
    rw [h, toBulk]
    simp only [List.append_assoc]
  obtain ⟨-, hnumber, hdrop⟩ := getNumber_header (by omega) (by omega) hheader
  set p := pos + ([DataType.bulkString.char] ++ number d.length ++ CRLF).length with hp
  have hroom : p + 2 ≤ b.length := by
    have hlength := length_of_append (by simp [CRLF]) hdrop
    simp only [List.length_append, show CRLF.length = 2 from rfl] at hlength
    omega
  have hstr : (if (0 : ℤ) < d.length then (b.drop p).take (d.length : ℤ).toNat else []) = d := by
    rw [hdrop, Int.toNat_natCast, List.append_assoc, List.take_left' rfl]
    split_ifs with hpos
    · rfl
    · exact (List.length_eq_zero_iff.mp (by omega)).symm
  have hend : p + (d.length : ℤ).toNat + 2 = pos + (toBulk d).length := by
    simp only [hp, toBulk, List.length_append, show CRLF.length = 2 from rfl, Int.toNat_natCast]
    omega
  rw [parseBulkString, hnumber]
  dsimp only
  rw [if_neg (by omega), if_neg (by omega), if_pos hroom, hstr, hend]

lemma parseBulkString_null
    (h : b.drop pos = [DataType.bulkString.char] ++ number (-1) ++ CRLF ++ rest) :
    parseBulkString b pos = some (none, pos + (Item.bulk none).encode.length) := by
  obtain ⟨-, hnumber, -⟩ := getNumber_header (by decide) (by decide) h
  rw [parseBulkString, hnumber]
  rfl

/-! ### Depth -/

lemma getNumber_le {r : ℤ × ℕ} (h : getNumber b pos = some r) : pos + 2 ≤ r.2 ∧ r.2 ≤ b.length := by
  obtain ⟨idx, hidx, rfl⟩ := Option.map_eq_some_iff.mp h
  have hle := indexOf_add_length_le (by decide) hidx
  exact ⟨Nat.add_le_add_right hle.1 2, hle.2⟩

lemma parseBulkString_le {r : Option QByteArray × ℕ} (h : parseBulkString b pos = some r) :
    pos ≤ r.2 := by
  unfold parseBulkString at h
  cases hnumber : getNumber b (pos + 1) with
  | none =>
    rw [hnumber] at h
    cases h
  | some x =>
    obtain ⟨len, p⟩ := x
    have hle := (getNumber_le hnumber).1
    rw [hnumber] at h
    dsimp only at h hle
    split_ifs at h <;> cases h <;> dsimp only <;> omega

lemma parseElement_le {array : ℕ → Option (QVariantList × ℕ)}
    (harray : ∀ p r, pos ≤ p → array p = some r → p ≤ r.2) {r : QVariant × ℕ} {p : ℕ} (hp : pos ≤ p)
    (h : parseElement array b p = some r) : p ≤ r.2 := by
  unfold parseElement at h
  split at h
  · obtain ⟨x, hx, rfl⟩ := Option.map_eq_some_iff.mp h
    exact parseBulkString_le hx
  · obtain ⟨x, hx, rfl⟩ := Option.map_eq_some_iff.mp h
    have := (getNumber_le hx).1
    dsimp only
    omega
  · obtain ⟨x, hx, rfl⟩ := Option.map_eq_some_iff.mp h
    exact harray p x hp hx
  · cases h

lemma parseElements_le {element : ℕ → Option (QVariant × ℕ)}
    (helement : ∀ p r, pos ≤ p → element p = some r → p ≤ r.2) {n p : ℕ} {r : QVariantList × ℕ}
    (hp : pos ≤ p) (h : parseElements element n p = some r) : p ≤ r.2 := by
  induction n generalizing p r with
  | zero =>
    cases h
    exact le_rfl
  | succ n ih =>
    rw [parseElements] at h
    cases he : element p with
    | none =>
      rw [he] at h
      cases h
    | some x =>
      obtain ⟨v, q⟩ := x
      have hle : p ≤ q := helement p (v, q) hp he
      rw [he] at h
      obtain ⟨y, hy, rfl⟩ := Option.map_eq_some_iff.mp h
      have hrest := ih (hp.trans hle) hy
      exact hle.trans hrest

lemma parseArrayWithin_le {depth : ℕ} {r : QVariantList × ℕ}
    (h : parseArrayWithin b depth pos = some r) : pos ≤ r.2 := by
  induction depth generalizing pos r with
  | zero => cases h
  | succ depth ih =>
    rw [parseArrayWithin] at h
    cases hn : getNumber b (pos + 1) with
    | none =>
      rw [hn] at h
      cases h
    | some x =>
      obtain ⟨count, p⟩ := x
      have hle : pos + 1 + 2 ≤ p := (getNumber_le hn).1
      rw [hn] at h
      have hrest := parseElements_le
        (fun q s _ hs => parseElement_le (fun _ _ _ h => ih h) (Nat.zero_le q) hs)
        (Nat.zero_le p) h
      omega

lemma parseElements_congr {f g : ℕ → Option (QVariant × ℕ)} {p : ℕ}
    (hfg : ∀ q, p ≤ q → f q = g q) (hle : ∀ q r, p ≤ q → f q = some r → q ≤ r.2) {n q : ℕ}
    (hq : p ≤ q) : parseElements f n q = parseElements g n q := by
  induction n generalizing q with
  | zero => rfl
  | succ n ih =>
    rw [parseElements, parseElements, ← hfg q hq]
    cases hf : f q with
    | none => rfl
    | some x =>
      obtain ⟨v, q'⟩ := x
      have hq' : p ≤ q' := hq.trans (hle q (v, q') hq hf)
      dsimp only
      rw [ih hq']

lemma parseArrayWithin_succ {depth : ℕ} (h : b.length < pos + depth) :
    parseArrayWithin b (depth + 1) pos = parseArrayWithin b depth pos := by
  induction depth generalizing pos with
  | zero =>
    have hnil : b.drop (pos + 1) = [] := List.drop_eq_nil_iff.mpr (by omega)
    have hnone : getNumber b (pos + 1) = none := by
      rw [getNumber, indexOf, hnil]
      rfl
    simp only [parseArrayWithin, hnone]
  | succ depth ih =>
    rw [parseArrayWithin, parseArrayWithin]
    cases hn : getNumber b (pos + 1) with
    | none => rfl
    | some x =>
      obtain ⟨count, p⟩ := x
      have hle : pos + 1 + 2 ≤ p := (getNumber_le hn).1
      dsimp only
      apply parseElements_congr (p := p)
      · intro q hq
        unfold parseElement
        rw [ih (by omega)]
      · intro q r hq hr
        exact parseElement_le (fun _ _ _ h => parseArrayWithin_le h) (Nat.zero_le q) hr
      · exact le_rfl

lemma parseArrayWithin_of_le {depth : ℕ} (h : b.length + 1 ≤ depth) :
    parseArrayWithin b depth pos = parseArray b pos := by
  induction depth, h using Nat.le_induction with
  | base => rfl
  | succ depth hd ih => rw [parseArrayWithin_succ (by omega), ih]

/-- The elements of an array, as they stand at `pos`. -/
def elements (b : QByteArray) (n pos : ℕ) : Option (QVariantList × ℕ) :=
  parseElements (parseElement (parseArray b) b) n pos

/-- **The bound on the depth is no bound**: an array is its count and its elements. -/
theorem parseArray_eq (b : QByteArray) (pos : ℕ) :
    parseArray b pos =
      (getNumber b (pos + 1)).bind fun x => elements b (max 1 x.1.toNat) x.2 := by
  rw [← parseArrayWithin_of_le (Nat.le_succ _), parseArrayWithin]
  cases getNumber b (pos + 1) with
  | none => rfl
  | some x =>
    have harray : parseArrayWithin b (b.length + 1) = parseArray b := rfl
    rw [harray]
    rfl

end TreeFrog.RedisDecode
