import TreeFrog.BigEndian
import TreeFrog.Bytes

/-!
What is used of `QDataStream`, most significant byte first: numbers, strings and byte arrays, the
last two behind their length in bytes.
-/

namespace TreeFrog.DataStream

open Bytes BigEndian

/-- The UTF-16 code units of a string; the null string is `none`. -/
abbrev QString := Option (List UInt16)

/-- The length of a null string or a null byte array. -/
def NULL : ℕ := 2 ^ 32 - 1

/-- A read past the end gives zero. -/
def readUInt8 : QByteArray → UInt8 × QByteArray
  | [] => (0, [])
  | b :: bs => (b, bs)

def readUInt32 (b : QByteArray) : ℕ × QByteArray :=
  if 4 ≤ b.length then (ofBytes (b.take 4), b.drop 4) else (0, [])

def units : QByteArray → List UInt16
  | a :: b :: bs => UInt16.ofNat (256 * a.toNat + b.toNat) :: units bs
  | _ => []

def writeString : QString → QByteArray
  | none => toBytes 4 NULL
  | some us => toBytes 4 (2 * us.length) ++ us.flatMap fun u => toBytes 2 u.toNat

/-- A length that is odd, or behind which there is too little, gives the null string. -/
def readString (b : QByteArray) : QString × QByteArray :=
  let (bytes, b) := readUInt32 b
  if bytes = NULL then (none, b)
  else if bytes % 2 = 1 then (none, b)
  else if b.length < bytes then (none, [])
  else (some (units (b.take bytes)), b.drop bytes)

def writeBytes : Option QByteArray → QByteArray
  | none => toBytes 4 NULL
  | some d => toBytes 4 d.length ++ d

def readBytes (b : QByteArray) : Option QByteArray × QByteArray :=
  let (len, b) := readUInt32 b
  if len = NULL then (none, b)
  else if b.length < len then (none, [])
  else (some (b.take len), b.drop len)

/-! ### Round trips -/

lemma readUInt32_toBytes {n : ℕ} (h : n < 2 ^ 32) (rest : QByteArray) :
    readUInt32 (toBytes 4 n ++ rest) = (n, rest) := by
  rw [readUInt32, if_pos (by simp), List.take_left' (length_toBytes 4 n),
    List.drop_left' (length_toBytes 4 n), ofBytes_toBytes (by omega)]

lemma length_flatMap_units (us : List UInt16) :
    (us.flatMap fun u => toBytes 2 u.toNat).length = 2 * us.length := by
  induction us with
  | nil => rfl
  | cons u us ih =>
    rw [List.flatMap_cons, List.length_append, length_toBytes, ih, List.length_cons]
    omega

lemma units_flatMap (us : List UInt16) :
    units (us.flatMap fun u => toBytes 2 u.toNat) = us := by
  induction us with
  | nil => rfl
  | cons u us ih =>
    have hu := u.toNat_lt
    have htwo : toBytes 2 u.toNat = [UInt8.ofNat (u.toNat / 256), UInt8.ofNat u.toNat] := rfl
    have hvalue : UInt16.ofNat (256 * (UInt8.ofNat (u.toNat / 256)).toNat +
        (UInt8.ofNat u.toNat).toNat) = u := by
      have hhigh : (UInt8.ofNat (u.toNat / 256)).toNat = u.toNat / 256 := by
        rw [UInt8.toNat_ofNat']
        omega
      have hlow : (UInt8.ofNat u.toNat).toNat = u.toNat % 256 := UInt8.toNat_ofNat'
      rw [hhigh, hlow, Nat.div_add_mod]
      exact UInt16.ofNat_toNat
    rw [List.flatMap_cons, htwo, List.cons_append, List.cons_append, List.nil_append, units, ih,
      hvalue]

/-- **Strings** are read back. -/
theorem readString_writeString {t : QString} (h : (writeString t).length < 2 ^ 31)
    (rest : QByteArray) : readString (writeString t ++ rest) = (t, rest) := by
  cases t with
  | none =>
    rw [writeString, readString, readUInt32_toBytes (by decide)]
    rfl
  | some us =>
    have hlength := length_flatMap_units us
    rw [writeString, List.length_append, length_toBytes, hlength] at h
    rw [writeString, readString, List.append_assoc, readUInt32_toBytes (by omega)]
    have hnull : 2 * us.length ≠ NULL := by
      unfold NULL
      omega
    have heven : ¬ 2 * us.length % 2 = 1 := by omega
    have hall : ¬ (us.flatMap (fun u => toBytes 2 u.toNat) ++ rest).length < 2 * us.length := by
      rw [List.length_append, hlength]
      omega
    dsimp only
    rw [if_neg hnull, if_neg heven, if_neg hall, List.take_left' hlength,
      List.drop_left' hlength, units_flatMap]

/-- **Byte arrays** are read back. -/
theorem readBytes_writeBytes {d : Option QByteArray} (h : (writeBytes d).length < 2 ^ 31)
    (rest : QByteArray) : readBytes (writeBytes d ++ rest) = (d, rest) := by
  cases d with
  | none =>
    rw [writeBytes, readBytes, readUInt32_toBytes (by decide)]
    rfl
  | some d =>
    rw [writeBytes, List.length_append, length_toBytes] at h
    rw [writeBytes, readBytes, List.append_assoc, readUInt32_toBytes (by omega)]
    have hnull : d.length ≠ NULL := by
      unfold NULL
      omega
    have hall : ¬ (d ++ rest).length < d.length := by
      rw [List.length_append]
      omega
    dsimp only
    rw [if_neg hnull, if_neg hall, List.take_left' rfl, List.drop_left' rfl]

/-! ### Text -/

/-- The code units of a character. -/
def utf16 (c : Char) : List UInt16 :=
  if c.toNat < 0x10000 then [UInt16.ofNat c.toNat]
  else [UInt16.ofNat (0xD800 + (c.toNat - 0x10000) / 0x400),
    UInt16.ofNat (0xDC00 + (c.toNat - 0x10000) % 0x400)]

/-- The characters of code units, two for one where they are a high and a low surrogate. -/
def ofUtf16 : List UInt16 → List Char
  | [] => []
  | [u] => [Char.ofNat u.toNat]
  | u :: v :: us =>
    if 0xD800 ≤ u.toNat ∧ u.toNat < 0xDC00 ∧ 0xDC00 ≤ v.toNat ∧ v.toNat < 0xE000 then
      Char.ofNat (0x10000 + (u.toNat - 0xD800) * 0x400 + (v.toNat - 0xDC00)) :: ofUtf16 us
    else Char.ofNat u.toNat :: ofUtf16 (v :: us)

def toQString (s : String) : QString := some (s.toList.flatMap utf16)

def fromQString (t : QString) : String := String.ofList (ofUtf16 (t.getD []))

lemma ofUtf16_unit {u : UInt16} (h : u.toNat < 0xD800 ∨ 0xDC00 ≤ u.toNat) (us : List UInt16) :
    ofUtf16 (u :: us) = Char.ofNat u.toNat :: ofUtf16 us := by
  cases us with
  | nil => rfl
  | cons v us =>
    rw [ofUtf16, if_neg]
    omega

lemma ofUtf16_utf16 (c : Char) (us : List UInt16) : ofUtf16 (utf16 c ++ us) = c :: ofUtf16 us := by
  have hvalid : c.toNat < 0xD800 ∨ 0xDFFF < c.toNat ∧ c.toNat < 0x110000 := c.valid
  rw [utf16]
  split_ifs with h
  · have hunit : (UInt16.ofNat c.toNat).toNat = c.toNat := by
      rw [UInt16.toNat_ofNat']
      omega
    rw [List.cons_append, List.nil_append, ofUtf16_unit (by omega), hunit, Char.ofNat_toNat]
  · have hhigh : (UInt16.ofNat (0xD800 + (c.toNat - 0x10000) / 0x400)).toNat =
        0xD800 + (c.toNat - 0x10000) / 0x400 := by
      rw [UInt16.toNat_ofNat']
      omega
    have hlow : (UInt16.ofNat (0xDC00 + (c.toNat - 0x10000) % 0x400)).toNat =
        0xDC00 + (c.toNat - 0x10000) % 0x400 := by
      rw [UInt16.toNat_ofNat']
      omega
    have hchar : 0x10000 + (0xD800 + (c.toNat - 0x10000) / 0x400 - 0xD800) * 0x400 +
        (0xDC00 + (c.toNat - 0x10000) % 0x400 - 0xDC00) = c.toNat := by omega
    rw [List.cons_append, List.cons_append, List.nil_append, ofUtf16, if_pos (by omega), hhigh,
      hlow, hchar, Char.ofNat_toNat]

lemma fromQString_toQString (s : String) : fromQString (toQString s) = s := by
  have hchars : ∀ cs : List Char, ofUtf16 (cs.flatMap utf16) = cs := by
    intro cs
    induction cs with
    | nil => rfl
    | cons c cs ih => rw [List.flatMap_cons, ofUtf16_utf16, ih]
  rw [fromQString, toQString, Option.getD_some, hchars, String.ofList_toList]

end TreeFrog.DataStream
