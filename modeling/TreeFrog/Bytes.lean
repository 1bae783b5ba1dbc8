import Mathlib.Algebra.Order.Ring.Int
import Mathlib.Data.List.DropRight
import TreeFrog.Search

/-!
Byte arrays and the operations on them the server uses: searching, trimming, comparing
without case, and reading numbers.

`left(n)` and `mid(i)` on a byte array are `take n` and `drop i`.
-/

namespace TreeFrog.Bytes

open TreeFrog.Search

abbrev QByteArray := List UInt8

def CR : UInt8 := 13
def LF : UInt8 := 10
def SP : UInt8 := 32
def HT : UInt8 := 9
def COLON : UInt8 := 58

def CRLF : QByteArray := [CR, LF]
/-- The empty line that ends a header. -/
def CRLFCRLF : QByteArray := [CR, LF, CR, LF]

/-- A string literal of the source, as bytes. -/
def ascii (s : String) : QByteArray := s.toList.map fun c => UInt8.ofNat c.toNat

/-- The first occurrence of `n` at or behind `pos`; `none` is the `-1` of the source. -/
def indexOf (b n : QByteArray) (pos : ℕ) : Option ℕ := (search n (b.drop pos)).map (· + pos)

def contains (b n : QByteArray) : Bool := (indexOf b n 0).isSome

def isspace (c : UInt8) : Bool := c = SP || (9 ≤ c && c ≤ 13)

def trimmed (b : QByteArray) : QByteArray := (b.dropWhile isspace).rdropWhile isspace

/-- Lower case of a Latin-1 letter. -/
def lower (c : UInt8) : UInt8 :=
  if (65 ≤ c ∧ c ≤ 90) ∨ (192 ≤ c ∧ c ≤ 222 ∧ c ≠ 215) then c + 32 else c

def toLower (b : QByteArray) : QByteArray := b.map lower

/-- What a C string function sees of a byte array. -/
def constData (b : QByteArray) : QByteArray := b.takeWhile (· ≠ 0)

/-- `qstricmp(a, b) == 0`. -/
def qstricmp (a b : QByteArray) : Bool := toLower (constData a) = toLower (constData b)

def isdigit (c : UInt8) : Bool := 48 ≤ c && c ≤ 57

def digitsVal (ds : QByteArray) : ℕ := ds.foldl (fun n c => 10 * n + (c.toNat - 48)) 0

/-- A text of digits and nothing else. -/
def digits? (ds : QByteArray) : Option ℕ :=
  if ds ≠ [] ∧ ds.all isdigit then some (digitsVal ds) else none

/-- The number a whole text denotes, after white space and a sign. -/
def strtoull (b : QByteArray) : Option ℕ :=
  match (constData b).dropWhile isspace with
  | 43 :: ds => digits? ds
  | ds => digits? ds

/-- The 32-bit number a text denotes, and `0` for every other text. -/
def toUInt (b : QByteArray) : ℕ :=
  match strtoull b with
  | some v => if v < 2 ^ 32 then v else 0
  | none => 0

def toInt (b : QByteArray) : ℤ :=
  match (constData b).dropWhile isspace with
  | 45 :: ds => match digits? ds with
    | some v => if v ≤ 2 ^ 31 then -v else 0
    | none => 0
  | _ => match strtoull b with
    | some v => if v < 2 ^ 31 then v else 0
    | none => 0

/-- The value a number takes in a 32-bit `int`. -/
def narrow (n : ℤ) : ℤ := (n + 2 ^ 31) % 2 ^ 32 - 2 ^ 31

lemma toUInt_lt (b : QByteArray) : toUInt b < 2 ^ 32 := by
  unfold toUInt
  cases strtoull b with
  | none => simp
  | some v => simp only; split <;> omega

lemma narrow_of_lt {n : ℤ} (h0 : -2 ^ 31 ≤ n) (h1 : n < 2 ^ 31) : narrow n = n := by
  unfold narrow; omega

lemma narrow_of_ge {n : ℤ} (h0 : 2 ^ 31 ≤ n) (h1 : n < 2 ^ 32) : narrow n = n - 2 ^ 32 := by
  unfold narrow; omega

/-! ### Searching -/

lemma indexOf_zero (b n : QByteArray) : indexOf b n 0 = search n b := by simp [indexOf]

lemma indexOf_eq_some_iff {b n : QByteArray} {pos i : ℕ} (hp : pos ≤ b.length) :
    indexOf b n pos = some i ↔
      pos ≤ i ∧ i ≤ b.length ∧ n <+: b.drop i ∧ ∀ j, pos ≤ j → j < i → ¬ n <+: b.drop j := by
  unfold indexOf
  rw [Option.map_eq_some_iff]
  constructor
  · rintro ⟨k, hk, rfl⟩
    obtain ⟨hle, hpre, hmin⟩ := search_eq_some_iff.mp hk
    rw [List.length_drop] at hle
    refine ⟨by omega, by omega, by simpa [Nat.add_comm] using hpre, fun j h1 h2 => ?_⟩
    have := hmin (j - pos) (by omega)
    rwa [List.drop_drop, show pos + (j - pos) = j by omega] at this
  · rintro ⟨h1, h2, hpre, hmin⟩
    refine ⟨i - pos, search_eq_some_iff.mpr ⟨by rw [List.length_drop]; omega, ?_, ?_⟩, by omega⟩
    · rwa [List.drop_drop, show pos + (i - pos) = i by omega]
    · intro j hj
      rw [List.drop_drop]
      exact hmin (pos + j) (by omega) (by omega)

lemma indexOf_add_length_le {b n : QByteArray} {pos i : ℕ} (hn : n ≠ [])
    (h : indexOf b n pos = some i) : pos ≤ i ∧ i + n.length ≤ b.length := by
  unfold indexOf at h
  obtain ⟨k, hk, rfl⟩ := Option.map_eq_some_iff.mp h
  have h1 := search_add_length_le hk
  have h2 : 0 < n.length := List.length_pos_iff.mpr hn
  rw [List.length_drop] at h1
  omega

/-- **What follows a found text cannot move it.** -/
lemma indexOf_append {b n : QByteArray} {pos i : ℕ} (hp : pos ≤ b.length)
    (h : indexOf b n pos = some i) (t : QByteArray) : indexOf (b ++ t) n pos = some i := by
  unfold indexOf at h ⊢
  obtain ⟨k, hk, rfl⟩ := Option.map_eq_some_iff.mp h
  rw [List.drop_append_of_le_length hp, search_append hk]; rfl

lemma indexOf_append_right (a b n : QByteArray) (pos : ℕ) :
    indexOf (a ++ b) n (a.length + pos) = (indexOf b n pos).map (a.length + ·) := by
  unfold indexOf
  rw [← List.drop_drop, List.drop_left, Option.map_map]
  congr 1
  funext k
  simp only [Function.comp]; omega

lemma indexOf_singleton_eq_none_iff {b : QByteArray} {c : UInt8} {pos : ℕ} :
    indexOf b [c] pos = none ↔ c ∉ b.drop pos := by
  unfold indexOf
  rw [Option.map_eq_none_iff, search_singleton_eq_none_iff]

lemma indexOf_singleton {a l t : QByteArray} {c : UInt8} (hl : c ∉ l) :
    indexOf (a ++ (l ++ c :: t)) [c] a.length = some (a.length + l.length) := by
  have h := indexOf_append_right a (l ++ c :: t) [c] 0
  rw [Nat.add_zero] at h
  rw [h, indexOf_zero, search_singleton hl]; rfl

lemma slice_append {a b : QByteArray} {i j : ℕ} (h : i + j ≤ a.length) :
    ((a ++ b).drop i).take j = (a.drop i).take j := by
  rw [List.drop_append_of_le_length (by omega),
    List.take_append_of_le_length (by rw [List.length_drop]; omega)]

lemma lt_length_of_getElem? {b : QByteArray} {i : ℕ} {c : UInt8} (h : b[i]? = some c) :
    i < b.length := (List.getElem?_eq_some_iff.mp h).1

lemma indexOf_singleton_get {b : QByteArray} {c : UInt8} {pos i : ℕ}
    (h : indexOf b [c] pos = some i) : pos ≤ i ∧ b[i]? = some c := by
  have hle := indexOf_add_length_le (by simp) h
  obtain ⟨h1, h2, ⟨r, hr⟩, -⟩ := (indexOf_eq_some_iff (by omega)).mp h
  refine ⟨h1, ?_⟩
  have : (b.drop i)[0]? = some c := by rw [← hr]; rfl
  simpa using this

lemma indexOf_singleton_le {b : QByteArray} {c : UInt8} {pos p : ℕ} (hp : pos ≤ p)
    (h : b[p]? = some c) : ∃ i ≤ p, indexOf b [c] pos = some i := by
  have hlt := lt_length_of_getElem? h
  cases hi : indexOf b [c] pos with
  | none =>
    refine absurd ?_ (indexOf_singleton_eq_none_iff.mp hi)
    rw [List.mem_iff_getElem?]
    exact ⟨p - pos, by rw [List.getElem?_drop, show pos + (p - pos) = p by omega, h]⟩
  | some i =>
    refine ⟨i, ?_, rfl⟩
    by_contra hlt'
    obtain ⟨-, -, -, hmin⟩ := (indexOf_eq_some_iff (by omega)).mp hi
    refine hmin p hp (by omega) ⟨b.drop (p + 1), ?_⟩
    rw [List.drop_eq_getElem_cons hlt, (List.getElem?_eq_some_iff.mp h).2]; rfl

/-! ### Trimming -/

@[simp] lemma trimmed_nil : trimmed [] = [] := by simp [trimmed]

lemma trimmed_append_space {b : QByteArray} {c : UInt8} (hc : isspace c) :
    trimmed (b ++ [c]) = trimmed b := by
  unfold trimmed
  by_cases hb : b.all isspace
  · have h1 : b.dropWhile isspace = [] := List.dropWhile_eq_nil_iff.mpr (List.all_eq_true.mp hb)
    have h2 : (b ++ [c]).dropWhile isspace = [] :=
      List.dropWhile_eq_nil_iff.mpr fun x hx => by
        rcases List.mem_append.mp hx with hx | hx
        · exact List.all_eq_true.mp hb x hx
        · rw [List.mem_singleton.mp hx]; exact hc
    rw [h1, h2]
  · have : (b ++ [c]).dropWhile isspace = b.dropWhile isspace ++ [c] := by
      rw [List.dropWhile_append, if_neg]
      rw [List.isEmpty_iff, List.dropWhile_eq_nil_iff]
      simpa using hb
    rw [this, List.rdropWhile_concat_pos _ _ _ hc]

lemma trimmed_cons_space {c : UInt8} (hc : isspace c) (b : QByteArray) :
    trimmed (c :: b) = trimmed b := by
  unfold trimmed
  rw [List.dropWhile_cons, if_pos hc]

lemma trimmed_of_ends {b : QByteArray} (h1 : ∀ c, b.head? = some c → isspace c = false)
    (h2 : ∀ c, b.getLast? = some c → isspace c = false) : trimmed b = b := by
  have hd : b.dropWhile isspace = b := by
    cases b with
    | nil => rfl
    | cons c t => simp [h1 c rfl]
  unfold trimmed
  rw [hd, List.rdropWhile_eq_self_iff]
  intro hb
  simp [h2 _ (List.getLast?_eq_some_getLast hb)]

end TreeFrog.Bytes
