import Mathlib.Algebra.Order.Ring.Int
import Mathlib.Data.List.Basic
import Mathlib.Tactic.Common

/-!
Texts as UTF-16 code units, and as UTF-8 bytes.

The decoder reads U+FFFD where bytes are not well formed, and takes U+FEFF at the beginning of a
text for a byte order mark. The encoder writes a question mark for a surrogate that is alone.
-/

namespace TreeFrog.Utf8

/-! ### Code points -/

/-- Every code point but the surrogates. -/
def Scalar (n : ℕ) : Prop := n < 0xD800 ∨ 0xE000 ≤ n ∧ n < 0x110000

instance (n : ℕ) : Decidable (Scalar n) := inferInstanceAs (Decidable (_ ∨ _))

/-- The code units of a code point. -/
def units (n : ℕ) : List UInt16 :=
  if n < 0x10000 then [.ofNat n]
  else [.ofNat (0xD800 + (n - 0x10000) / 1024), .ofNat (0xDC00 + (n - 0x10000) % 1024)]

/-- The bytes of a code point. -/
def bytes (n : ℕ) : List UInt8 :=
  if n < 0x80 then [.ofNat n]
  else if n < 0x800 then [.ofNat (0xC0 + n / 64), .ofNat (0x80 + n % 64)]
  else if n < 0x10000 then
    [.ofNat (0xE0 + n / 4096), .ofNat (0x80 + n / 64 % 64), .ofNat (0x80 + n % 64)]
  else
    [.ofNat (0xF0 + n / 262144), .ofNat (0x80 + n / 4096 % 64), .ofNat (0x80 + n / 64 % 64),
      .ofNat (0x80 + n % 64)]

/-- A text without a surrogate that is alone. -/
def WellFormed (s : List UInt16) : Prop :=
  ∃ ns : List ℕ, (∀ n ∈ ns, Scalar n) ∧ ns.flatMap units = s

/-! ### From code units -/

def isHigh (u : UInt16) : Bool := 0xD800 ≤ u.toNat && u.toNat < 0xDC00

def isLow (u : UInt16) : Bool := 0xDC00 ≤ u.toNat && u.toNat < 0xE000

/-- The code point of a unit that is no part of a pair. -/
def point (u : UInt16) : ℕ := if isHigh u || isLow u then 63 else u.toNat

def points : List UInt16 → List ℕ
  | [] => []
  | [u] => [point u]
  | u :: v :: s =>
    if isHigh u && isLow v then
      (0x10000 + (u.toNat - 0xD800) * 1024 + (v.toNat - 0xDC00)) :: points s
    else point u :: points (v :: s)

def encode (s : List UInt16) : List UInt8 := (points s).flatMap bytes

/-! ### From bytes -/

/-- The continuation bytes of a sequence, so many behind what has been read. -/
def continued : ℕ → ℕ → List UInt8 → Option ℕ
  | 0, n, _ => some n
  | _ + 1, _, [] => none
  | k + 1, n, c :: b =>
    if 0x80 ≤ c.toNat ∧ c.toNat < 0xC0 then continued k (64 * n + (c.toNat - 0x80)) b else none

/-- A sequence of `k` bytes behind the first one: its code point, if it has no shorter one. -/
def sequence (k n least : ℕ) (b : List UInt8) : ℕ × ℕ :=
  match continued k n b with
  | some n => if least ≤ n ∧ Scalar n then (n, k) else (0xFFFD, 0)
  | none => (0xFFFD, 0)

/-- The first code point, and the number of bytes that it takes of those behind the first. -/
def first (c : UInt8) (b : List UInt8) : ℕ × ℕ :=
  if c.toNat < 0x80 then (c.toNat, 0)
  else if c.toNat < 0xC0 then (0xFFFD, 0)
  else if c.toNat < 0xE0 then sequence 1 (c.toNat - 0xC0) 0x80 b
  else if c.toNat < 0xF0 then sequence 2 (c.toNat - 0xE0) 0x800 b
  else if c.toNat < 0xF8 then sequence 3 (c.toNat - 0xF0) 0x10000 b
  else (0xFFFD, 0)

/-- The code points behind so many bytes. -/
def scalars : ℕ → List UInt8 → List ℕ
  | _, [] => []
  | k + 1, _ :: b => scalars k b
  | 0, c :: b => (first c b).1 :: scalars (first c b).2 b

/-- The text of the bytes, with its byte order mark. -/
def text (b : List UInt8) : List UInt16 := (scalars 0 b).flatMap units

def dropMark : List UInt16 → List UInt16
  | [] => []
  | u :: s => if u = 0xFEFF then s else u :: s

def decode (b : List UInt8) : List UInt16 := dropMark (text b)

variable {n : ℕ} {s : List UInt16} {b : List UInt8}

/-! ### There and back -/

lemma points_units (h : Scalar n) (s : List UInt16) : points (units n ++ s) = n :: points s := by
  unfold Scalar at h
  unfold units
  split_ifs with hn
  · have hval : (UInt16.ofNat n).toNat = n := by
      rw [UInt16.toNat_ofNat']
      omega
    have hhigh : isHigh (.ofNat n) = false := by
      simp only [isHigh, hval, Bool.and_eq_false_iff, decide_eq_false_iff_not]
      omega
    have hlow : isLow (.ofNat n) = false := by
      simp only [isLow, hval, Bool.and_eq_false_iff, decide_eq_false_iff_not]
      omega
    have hpoint : point (.ofNat n) = n := by
      rw [point, hhigh, hlow, Bool.or_false, if_neg Bool.false_ne_true, hval]
    cases s with
    | nil => rw [List.append_nil, points, points, hpoint]
    | cons v s =>
      rw [List.singleton_append, points, hhigh, Bool.false_and, if_neg Bool.false_ne_true, hpoint]
  · have hfst : (UInt16.ofNat (0xD800 + (n - 0x10000) / 1024)).toNat =
        0xD800 + (n - 0x10000) / 1024 := by
      rw [UInt16.toNat_ofNat']
      omega
    have hsnd : (UInt16.ofNat (0xDC00 + (n - 0x10000) % 1024)).toNat =
        0xDC00 + (n - 0x10000) % 1024 := by
      rw [UInt16.toNat_ofNat']
      omega
    have hpair : (isHigh (.ofNat (0xD800 + (n - 0x10000) / 1024)) &&
        isLow (.ofNat (0xDC00 + (n - 0x10000) % 1024))) = true := by
      simp only [isHigh, isLow, hfst, hsnd, Bool.and_eq_true, decide_eq_true_eq]
      omega
    have hvalue : 0x10000 + (0xD800 + (n - 0x10000) / 1024 - 0xD800) * 1024 +
        (0xDC00 + (n - 0x10000) % 1024 - 0xDC00) = n := by omega
    rw [List.cons_append, List.singleton_append, points, if_pos hpair, hfst, hsnd, hvalue]

lemma points_flatMap {ns : List ℕ} (h : ∀ n ∈ ns, Scalar n) : points (ns.flatMap units) = ns := by
  induction ns with
  | nil => rfl
  | cons n ns ih =>
    obtain ⟨hn, hns⟩ := List.forall_mem_cons.mp h
    rw [List.flatMap_cons, points_units hn, ih hns]

lemma toNat_ofNat {n : ℕ} (h : n < 256) : (UInt8.ofNat n).toNat = n := by
  rw [UInt8.toNat_ofNat']
  omega

lemma scalars_bytes (h : Scalar n) (r : List UInt8) :
    scalars 0 (bytes n ++ r) = n :: scalars 0 r := by
  have hlt : n < 0x110000 := by
    unfold Scalar at h
    omega
  unfold bytes
  split_ifs with h1 h2 h3
  · have hc := toNat_ofNat (n := n) (by omega)
    rw [List.singleton_append, scalars, first, hc, if_pos h1]
  · have hc := toNat_ofNat (n := 0xC0 + n / 64) (by omega)
    have hd := toNat_ofNat (n := 0x80 + n % 64) (by omega)
    have hvalue : 64 * (0xC0 + n / 64 - 0xC0) + (0x80 + n % 64 - 0x80) = n := by omega
    rw [List.cons_append, List.singleton_append, scalars, first, hc, if_neg (by omega),
      if_neg (by omega), if_pos (by omega), sequence, continued, hd, if_pos (by omega), hvalue,
      continued]
    dsimp only
    rw [if_pos ⟨by omega, h⟩, scalars]
  · have hc := toNat_ofNat (n := 0xE0 + n / 4096) (by omega)
    have hd := toNat_ofNat (n := 0x80 + n / 64 % 64) (by omega)
    have he := toNat_ofNat (n := 0x80 + n % 64) (by omega)
    have hvalue : 64 * (64 * (0xE0 + n / 4096 - 0xE0) + (0x80 + n / 64 % 64 - 0x80)) +
        (0x80 + n % 64 - 0x80) = n := by omega
    rw [List.cons_append, List.cons_append, List.singleton_append, scalars, first, hc,
      if_neg (by omega), if_neg (by omega), if_neg (by omega), if_pos (by omega), sequence,
      continued, hd, if_pos (by omega), continued, he, if_pos (by omega), hvalue, continued]
    dsimp only
    rw [if_pos ⟨by omega, h⟩, scalars, scalars]
  · have hc := toNat_ofNat (n := 0xF0 + n / 262144) (by omega)
    have hd := toNat_ofNat (n := 0x80 + n / 4096 % 64) (by omega)
    have he := toNat_ofNat (n := 0x80 + n / 64 % 64) (by omega)
    have hf := toNat_ofNat (n := 0x80 + n % 64) (by omega)
    have hvalue : 64 * (64 * (64 * (0xF0 + n / 262144 - 0xF0) + (0x80 + n / 4096 % 64 - 0x80)) +
        (0x80 + n / 64 % 64 - 0x80)) + (0x80 + n % 64 - 0x80) = n := by omega
    rw [List.cons_append, List.cons_append, List.cons_append, List.singleton_append, scalars, first,
      hc, if_neg (by omega), if_neg (by omega), if_neg (by omega), if_neg (by omega),
      if_pos (by omega), sequence, continued, hd, if_pos (by omega), continued, he,
      if_pos (by omega), continued, hf, if_pos (by omega), hvalue, continued]
    dsimp only
    rw [if_pos ⟨by omega, h⟩, scalars, scalars, scalars]

lemma scalars_flatMap {ns : List ℕ} (h : ∀ n ∈ ns, Scalar n) :
    scalars 0 (ns.flatMap bytes) = ns := by
  induction ns with
  | nil => rfl
  | cons n ns ih =>
    obtain ⟨hn, hns⟩ := List.forall_mem_cons.mp h
    rw [List.flatMap_cons, scalars_bytes hn, ih hns]

/-- **A text there and back** is the same, with its byte order mark. -/
theorem text_encode (h : WellFormed s) : text (encode s) = s := by
  obtain ⟨ns, hns, rfl⟩ := h
  rw [encode, points_flatMap hns, text, scalars_flatMap hns]

theorem decode_encode (h : WellFormed s) : decode (encode s) = dropMark s := by
  rw [decode, text_encode h]

lemma bytes_ne_nil (n : ℕ) : bytes n ≠ [] := by
  unfold bytes
  split_ifs <;> exact List.cons_ne_nil _ _

lemma encode_eq_nil : encode s = [] ↔ s = [] := by
  refine ⟨fun h => ?_, fun h => by rw [h]; rfl⟩
  by_contra hs
  obtain ⟨n, ns, hn⟩ : ∃ n ns, points s = n :: ns := by
    unfold points
    split
    · exact absurd rfl hs
    · exact ⟨_, _, rfl⟩
    · split_ifs <;> exact ⟨_, _, rfl⟩
  rw [encode, hn, List.flatMap_cons, List.append_eq_nil_iff] at h
  exact bytes_ne_nil n h.1

/-! ### What is read is well formed -/

lemma scalar_sequence (k n least : ℕ) (b : List UInt8) : Scalar (sequence k n least b).1 := by
  unfold sequence
  split
  · split_ifs with h
    · exact h.2
    · decide
  · decide

lemma scalar_first (c : UInt8) (b : List UInt8) : Scalar (first c b).1 := by
  unfold first
  split_ifs with h
  · exact .inl (by dsimp only; omega)
  · decide
  · exact scalar_sequence _ _ _ _
  · exact scalar_sequence _ _ _ _
  · exact scalar_sequence _ _ _ _
  · decide

lemma scalar_of_mem {k : ℕ} (h : n ∈ scalars k b) : Scalar n := by
  induction b generalizing k with
  | nil => cases k <;> exact absurd h List.not_mem_nil
  | cons c b ih =>
    cases k with
    | zero =>
      rw [scalars] at h
      rcases List.mem_cons.mp h with rfl | h
      · exact scalar_first c b
      · exact ih h
    | succ k => exact ih h

theorem wellFormed_text (b : List UInt8) : WellFormed (text b) :=
  ⟨scalars 0 b, fun _ => scalar_of_mem, rfl⟩

lemma units_ne_nil (n : ℕ) : units n ≠ [] := by
  unfold units
  split_ifs <;> exact List.cons_ne_nil _ _

lemma units_mark (h : Scalar n) (hmark : (units n).head? = some 0xFEFF) : units n = [0xFEFF] := by
  unfold Scalar at h
  unfold units at hmark ⊢
  split_ifs at hmark ⊢ with hn
  · rw [List.head?_cons, Option.some.injEq] at hmark
    rw [hmark]
  · rw [List.head?_cons, Option.some.injEq] at hmark
    have hval := congrArg UInt16.toNat hmark
    rw [UInt16.toNat_ofNat'] at hval
    change _ = 0xFEFF at hval
    omega

theorem WellFormed.dropMark (h : WellFormed s) : WellFormed (dropMark s) := by
  obtain ⟨ns, hns, rfl⟩ := h
  cases ns with
  | nil => exact ⟨[], hns, rfl⟩
  | cons n ns =>
    obtain ⟨hn, hns'⟩ := List.forall_mem_cons.mp hns
    obtain ⟨u, us, hu⟩ := List.exists_cons_of_ne_nil (units_ne_nil n)
    by_cases hmark : u = 0xFEFF
    · have hunits := units_mark hn (by rw [hu, hmark]; rfl)
      refine ⟨ns, hns', ?_⟩
      rw [List.flatMap_cons, hunits, List.singleton_append, Utf8.dropMark, if_pos rfl]
    · refine ⟨n :: ns, hns, ?_⟩
      rw [List.flatMap_cons, hu, List.cons_append, Utf8.dropMark, if_neg hmark]

theorem wellFormed_decode (b : List UInt8) : WellFormed (decode b) := (wellFormed_text b).dropMark

lemma wellFormed_of_ascii (h : s.all fun u => u < 128) : WellFormed s := by
  simp only [List.all_eq_true, decide_eq_true_eq] at h
  refine ⟨s.map UInt16.toNat, fun n hn => ?_, ?_⟩
  · obtain ⟨u, hu, rfl⟩ := List.mem_map.mp hn
    have hlt := UInt16.lt_iff_toNat_lt.mp (h u hu)
    exact .inl (hlt.trans (by decide))
  · rw [List.flatMap_map]
    refine (List.flatMap_congr fun u hu => ?_).trans (List.flatMap_singleton' s)
    have hlt := UInt16.lt_iff_toNat_lt.mp (h u hu)
    rw [units, if_pos (hlt.trans (by decide)), UInt16.ofNat_toNat]

/-! ### The byte order mark -/

lemma dropMark_eq_iff : dropMark s = s ↔ s.head? ≠ some 0xFEFF := by
  cases s with
  | nil => exact iff_of_true rfl (by simp)
  | cons u s =>
    rw [dropMark, List.head?_cons, ne_eq, Option.some.injEq]
    split_ifs with hu
    · exact iff_of_false (fun h => List.cons_ne_self _ _ h.symm) (not_not_intro hu)
    · exact iff_of_true rfl hu

lemma length_dropMark_le (s : List UInt16) : (dropMark s).length ≤ s.length := by
  cases s with
  | nil => exact le_rfl
  | cons u s =>
    rw [dropMark]
    split_ifs
    · exact Nat.le_succ _
    · exact le_rfl

lemma length_dropMark_lt (h : dropMark s ≠ s) : (dropMark s).length < s.length := by
  cases s with
  | nil => exact absurd rfl h
  | cons u s =>
    rw [dropMark] at h ⊢
    split_ifs at h ⊢ with hu
    · exact Nat.lt_succ_self _
    · exact absurd rfl h

/-! ### ASCII -/

lemma count_units {c : UInt16} (hc : c.toNat < 128) (h : Scalar n) :
    (units n).count c = [n].count c.toNat := by
  unfold Scalar at h
  unfold units
  split_ifs with hn
  · have hval : (UInt16.ofNat n).toNat = n := by
      rw [UInt16.toNat_ofNat']
      omega
    have heq : UInt16.ofNat n = c ↔ n = c.toNat := by
      rw [← UInt16.toNat_inj, hval]
    simp only [List.count_singleton, beq_iff_eq, heq]
  · rw [List.count_eq_zero_of_not_mem, List.count_eq_zero_of_not_mem]
    · rw [List.mem_singleton]
      omega
    · simp only [List.mem_cons, List.not_mem_nil, or_false, not_or, ← UInt16.toNat_inj,
        UInt16.toNat_ofNat']
      omega

lemma count_flatMap_units {c : UInt16} (hc : c.toNat < 128) {ns : List ℕ}
    (h : ∀ n ∈ ns, Scalar n) : (ns.flatMap units).count c = ns.count c.toNat := by
  induction ns with
  | nil => rfl
  | cons n ns ih =>
    obtain ⟨hn, hns⟩ := List.forall_mem_cons.mp h
    rw [List.flatMap_cons, List.count_append, count_units hc hn, ih hns, ← List.count_append,
      List.singleton_append]

lemma mem_of_continued {k m : ℕ} (h : continued k n b = some m) :
    k ≤ b.length ∧ ∀ c ∈ b.take k, 128 ≤ c.toNat := by
  induction k generalizing n b with
  | zero => exact ⟨Nat.zero_le _, by simp⟩
  | succ k ih =>
    cases b with
    | nil => cases h
    | cons c b =>
      rw [continued] at h
      split_ifs at h with hc
      obtain ⟨hle, hall⟩ := ih h
      rw [List.length_cons, List.take_succ_cons]
      exact ⟨Nat.succ_le_succ hle, List.forall_mem_cons.mpr ⟨hc.1, hall⟩⟩

lemma sequence_spec (k n least : ℕ) (hleast : 128 ≤ least) (b : List UInt8) :
    128 ≤ (sequence k n least b).1 ∧ ∀ c ∈ b.take (sequence k n least b).2, 128 ≤ c.toNat := by
  unfold sequence
  cases hcont : continued k n b with
  | none => exact ⟨by simp, by simp⟩
  | some m =>
    dsimp only
    split_ifs with hm
    · exact ⟨hleast.trans hm.1, (mem_of_continued hcont).2⟩
    · exact ⟨by decide, by simp⟩

lemma first_spec (c : UInt8) (b : List UInt8) :
    (c.toNat < 128 ∧ first c b = (c.toNat, 0)) ∨ (128 ≤ c.toNat ∧ 128 ≤ (first c b).1 ∧
      ∀ d ∈ b.take (first c b).2, 128 ≤ d.toNat) := by
  unfold first
  split_ifs with h1
  · exact .inl ⟨h1, rfl⟩
  · exact .inr ⟨Nat.not_lt.mp h1, by decide, by simp⟩
  · exact .inr ⟨Nat.not_lt.mp h1, sequence_spec _ _ _ (by decide) b⟩
  · exact .inr ⟨Nat.not_lt.mp h1, sequence_spec _ _ _ (by decide) b⟩
  · exact .inr ⟨Nat.not_lt.mp h1, sequence_spec _ _ _ (by decide) b⟩
  · exact .inr ⟨Nat.not_lt.mp h1, by decide, by simp⟩

lemma count_scalars {a : UInt8} (ha : a.toNat < 128) {k : ℕ}
    (h : ∀ c ∈ b.take k, 128 ≤ c.toNat) : (scalars k b).count a.toNat = b.count a := by
  induction b generalizing k with
  | nil => cases k <;> rfl
  | cons c b ih =>
    cases k with
    | zero =>
      rw [scalars]
      rcases first_spec c b with ⟨-, hfirst⟩ | ⟨hc, hvalue, hrest⟩
      · rw [hfirst, List.count_cons, List.count_cons, ih (by simp)]
        simp only [beq_iff_eq, UInt8.toNat_inj]
      · rw [List.count_cons_of_ne (by omega), ih hrest, List.count_cons_of_ne]
        rintro rfl
        omega
    | succ k =>
      obtain ⟨hc, h⟩ := List.forall_mem_cons.mp h
      rw [scalars, ih h, List.count_cons_of_ne]
      rintro rfl
      omega

lemma count_dropMark {c : UInt16} (hc : c.toNat < 128) (s : List UInt16) :
    (dropMark s).count c = s.count c := by
  cases s with
  | nil => rfl
  | cons u s =>
    rw [dropMark]
    split_ifs with hu
    · rw [hu, List.count_cons_of_ne]
      rintro rfl
      exact absurd hc (by decide)
    · rfl

/-- **ASCII characters** are neither lost nor found. -/
theorem count_text {a : UInt8} (ha : a.toNat < 128) (b : List UInt8) :
    (text b).count a.toUInt16 = b.count a := by
  have ha' : a.toUInt16.toNat < 128 := by rwa [UInt8.toNat_toUInt16]
  rw [text, count_flatMap_units ha' fun _ => scalar_of_mem, UInt8.toNat_toUInt16,
    count_scalars ha (by simp)]

theorem count_decode {a : UInt8} (ha : a.toNat < 128) (b : List UInt8) :
    (decode b).count a.toUInt16 = b.count a := by
  rw [decode, count_dropMark (by rwa [UInt8.toNat_toUInt16]), count_text ha]

theorem count_encode (h : WellFormed s) {a : UInt8} (ha : a.toNat < 128) :
    (encode s).count a = s.count a.toUInt16 := by
  rw [← count_text ha, text_encode h]

lemma scalars_ascii (h : ∀ c ∈ b, c < 128) : scalars 0 b = b.map UInt8.toNat := by
  induction b with
  | nil => rfl
  | cons c b ih =>
    obtain ⟨hc, hb⟩ := List.forall_mem_cons.mp h
    have hlt : c.toNat < 0x80 := UInt8.lt_iff_toNat_lt.mp hc
    rw [scalars, first, if_pos hlt, ih hb, List.map_cons]

/-- **ASCII** is read as it stands. -/
theorem decode_ascii (h : ∀ c ∈ b, c < 128) : decode b = b.map UInt8.toUInt16 := by
  have htext : text b = b.map UInt8.toUInt16 := by
    rw [text, scalars_ascii h, List.flatMap_map]
    refine (List.flatMap_congr fun c hc => ?_).trans (List.flatMap_pure_eq_map _ b)
    have hlt := UInt8.lt_iff_toNat_lt.mp (h c hc)
    rw [units, if_pos (hlt.trans (by decide))]
    refine congrArg (fun u => [u]) (UInt16.toNat_inj.mp ?_)
    rw [UInt8.toNat_toUInt16, UInt16.toNat_ofNat']
    exact Nat.mod_eq_of_lt (hlt.trans (by decide))
  rw [decode, htext, dropMark_eq_iff]
  cases b with
  | nil => simp
  | cons c b =>
    rw [List.map_cons, List.head?_cons, ne_eq, Option.some.injEq, ← UInt16.toNat_inj,
      UInt8.toNat_toUInt16]
    have hlt := UInt8.lt_iff_toNat_lt.mp (h c List.mem_cons_self)
    change c.toNat < 128 at hlt
    change c.toNat ≠ 0xFEFF
    omega

end TreeFrog.Utf8
