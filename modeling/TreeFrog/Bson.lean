import Mathlib.Algebra.BigOperators.Group.List.Basic
import Mathlib.Algebra.Order.BigOperators.Group.List
import Mathlib.Algebra.Order.Group.Nat
import Mathlib.Data.List.Lex
import TreeFrog.Decimal
import TreeFrog.SortedMap
import TreeFrog.Utf8

/-!
`TBson`: maps of variants as BSON documents, and back.

A list is an array there, whose keys are the texts of the indexes. It is read as a map first, which
puts these texts in order.
-/

namespace TreeFrog.Bson

open TreeFrog.Bytes TreeFrog.Decimal TreeFrog.SortedMap

/-- Text as its UTF-16 code units. -/
structure QString where
  units : List UInt16
  deriving DecidableEq, Repr

namespace QString

instance : LinearOrder QString :=
  LinearOrder.lift' (fun s => s.units.map UInt16.toNat) fun s t h => by
    have hunits : s.units = t.units :=
      List.map_injective_iff.mpr (fun _ _ => UInt16.toNat_inj.mp) h
    cases s
    cases t
    exact congrArg QString.mk hunits

/-- `QLatin1String`. -/
def fromLatin1 (b : QByteArray) : QString := ⟨b.map UInt8.toUInt16⟩

def number (n : ℕ) : QString := fromLatin1 (Decimal.number n)

/-- Every character is ASCII. -/
def Ascii (s : QString) : Prop := ∀ c ∈ s.units, c < 128

def hasNul (s : QString) : Prop := 0 ∈ s.units

def WellFormed (s : QString) : Prop := Utf8.WellFormed s.units

/-- The text begins with a byte order mark. -/
def Marked (s : QString) : Prop := s.units.head? = some 0xFEFF

instance (s : QString) : Decidable s.Marked := inferInstanceAs (Decidable (_ = _))

def dropMark (s : QString) : QString := ⟨Utf8.dropMark s.units⟩

end QString

/-- A value. A `double` is its bits, a date and time the milliseconds since the epoch. -/
inductive QVariant where
  | invalid
  | bool (b : Bool)
  | int (n : Int32)
  | longLong (n : Int64)
  | double (bits : UInt64)
  | string (s : QString)
  | byteArray (d : QByteArray)
  | dateTime (msecs : Int64)
  | regExp (pattern : QString)
  | list (l : List QVariant)
  | map (m : List (QString × QVariant))

abbrev QVariantMap := List (QString × QVariant)

/-- A value of a document. -/
inductive Value where
  | double (bits : UInt64)
  | utf8 (text : QByteArray)
  | document (d : List (QByteArray × Value))
  | array (d : List (QByteArray × Value))
  | binary (data : QByteArray)
  | undefined
  | oid (id : QByteArray)
  | bool (b : Bool)
  | dateTime (msecs : Int64)
  | null
  | regex (pattern : QByteArray)
  | code (text : QByteArray)
  | symbol (text : QByteArray)
  | int32 (n : Int32)
  | int64 (n : Int64)
  /-- Code with a scope, and a time stamp. -/
  | internal

/-- A document: keys and values, in the order they were appended in. -/
abbrev TBson := List (QByteArray × Value)

/-- What is used of the text codecs, of the conversions of a variant and of object identifiers. -/
structure Qt where
  toLocal8Bit : QString → QByteArray
  toUtf8 : QString → QByteArray
  fromUtf8 : QByteArray → QString
  toByteArray : QVariant → QByteArray
  toInt : QVariant → Option Int32
  toString : QVariant → QString
  oidFromString : QByteArray → QByteArray
  oidToString : QByteArray → QByteArray

def oidkey : QString := .fromLatin1 (ascii "_id")

/-! ### To a document -/

section

variable (u : Qt)

/-- What a C function sees of a key. -/
def qPrintable (key : QString) : QByteArray := constData (u.toLocal8Bit key)

/-- The value of the key `_id`. -/
def idValue (value : QVariant) : Value :=
  if (u.toByteArray value).length = 24 then .oid (u.oidFromString (u.toByteArray value))
  else match u.toInt value with
    | some id => .int32 id
    | none => .utf8 (constData (u.toUtf8 (u.toString value)))

/-- What is appended for a key: the object identifier under the key `_id`, and what the value is
converted to under every other one; none if it is of no type that a document has. -/
def appendBsonValue (key : QString) (value : QVariant) (converted : Option Value) :
    Option (QByteArray × Value) :=
  if key = oidkey then some (ascii "_id", idValue u value)
  else converted.map fun v => (qPrintable u key, v)

mutual

def toValue : QVariant → Option Value
  | .invalid => some .undefined
  | .bool b => some (.bool b)
  | .int n => some (.int32 n)
  | .longLong n => some (.int64 n)
  | .double d => some (.double d)
  | .string s => some (.utf8 (constData (u.toUtf8 s)))
  | .byteArray d => some (.binary d)
  | .dateTime t => some (.dateTime t)
  | .regExp _ => none
  | .list l => some (.array (appendList 0 l))
  | .map m => some (.document (toBson m))

/-- The elements of a list from the index `i` on. -/
def appendList (i : ℕ) : List QVariant → TBson
  | [] => []
  | v :: l => (appendBsonValue u (.number i) v (toValue v)).toList ++ appendList (i + 1) l

/-- The first value that cannot be appended ends the document. -/
def toBson : List (QString × QVariant) → TBson
  | [] => []
  | (key, v) :: m =>
    match appendBsonValue u (u.fromUtf8 (qPrintable u key)) v (toValue v) with
    | none => []
    | some e => e :: toBson m

end

/-! ### From a document -/

mutual

/-- The variant of a value; none if the key is not set. -/
def variant : Value → Option QVariant
  | .double d => some (.double d)
  | .utf8 t => some (.string (u.fromUtf8 (constData t)))
  | .array d => some (.list (values (fromBsonLoop [] d)))
  | .document d => some (.map (fromBsonLoop [] d))
  | .binary d => some (.byteArray d)
  | .undefined => some .invalid
  | .oid id => some (.string (u.fromUtf8 (u.oidToString id)))
  | .bool b => some (.bool b)
  | .dateTime t => some (.dateTime t)
  | .null => some .invalid
  | .regex p => some (.regExp (.fromLatin1 (constData p)))
  | .code t => some (.string (u.fromUtf8 (constData t)))
  | .symbol t => some (.string (u.fromUtf8 (constData t)))
  | .int32 n => some (.int n)
  | .int64 n => some (.longLong n)
  | .internal => none

def fromBsonLoop (ret : QVariantMap) : List (QByteArray × Value) → QVariantMap
  | [] => ret
  | (key, v) :: d =>
    fromBsonLoop (match variant v with
      | none => ret
      | some q => insert (u.fromUtf8 (constData key)) q ret) d

end

def fromBson (d : TBson) : QVariantMap := fromBsonLoop u [] d

end

/-! ### What a map must be -/

mutual

/-- The values are of the types that a document has, and the keys are texts of their own. -/
def Plain : QVariant → Prop
  | .invalid | .regExp _ => False
  | .string s => ¬ s.hasNul
  | .list l => PlainList l
  | .map m => Ascending m ∧ PlainMap m
  | _ => True

def PlainList : List QVariant → Prop
  | [] => True
  | v :: l => Plain v ∧ PlainList l

def PlainMap : List (QString × QVariant) → Prop
  | [] => True
  | (key, v) :: m => (key.Ascii ∧ key ≠ oidkey) ∧ Plain v ∧ PlainMap m

end

mutual

/-- The strings are well formed, and no key has a `NUL`. -/
def Coded : QVariant → Prop
  | .string s => s.WellFormed
  | .list l => CodedList l
  | .map m => CodedMap m
  | _ => True

def CodedList : List QVariant → Prop
  | [] => True
  | v :: l => Coded v ∧ CodedList l

def CodedMap : List (QString × QVariant) → Prop
  | [] => True
  | (key, v) :: m => ¬ key.hasNul ∧ Coded v ∧ CodedMap m

end

mutual

/-- The strings of a value, at every depth. -/
def strings : QVariant → List QString
  | .string s => [s]
  | .list l => stringsList l
  | .map m => stringsMap m
  | _ => []

def stringsList : List QVariant → List QString
  | [] => []
  | v :: l => strings v ++ stringsList l

def stringsMap : List (QString × QVariant) → List QString
  | [] => []
  | (_, v) :: m => strings v ++ stringsMap m

end

/-- C strings keep the keys, and UTF-8 the strings. -/
structure Clean (q : QVariant) : Prop where
  coded : Coded q
  unmarked : ∀ s ∈ strings q, ¬ s.Marked

/-- A list with the texts of its indexes, which begin with `i`. -/
def indexed {α : Type} (i : ℕ) : List α → List (QString × α)
  | [] => []
  | v :: l => (.number i, v) :: indexed (i + 1) l

/-- A list in the order of the texts of its indexes. -/
def rearrange {α : Type} (l : List α) : List α := values (byKey (indexed 0 l))

mutual

/-- Every list put in the order of the texts of its indexes. -/
def QVariant.rearranged : QVariant → QVariant
  | .list l => .list (rearrange (rearrangedList l))
  | .map m => .map (rearrangedMap m)
  | v => v

def rearrangedList : List QVariant → List QVariant
  | [] => []
  | v :: l => v.rearranged :: rearrangedList l

def rearrangedMap : List (QString × QVariant) → QVariantMap
  | [] => []
  | (key, v) :: m => (key, v.rearranged) :: rearrangedMap m

end

mutual

/-- The byte order mark of every string taken away. -/
def QVariant.dropMarks : QVariant → QVariant
  | .string s => .string s.dropMark
  | .list l => .list (dropMarksList l)
  | .map m => .map (dropMarksMap m)
  | v => v

def dropMarksList : List QVariant → List QVariant
  | [] => []
  | v :: l => v.dropMarks :: dropMarksList l

def dropMarksMap : List (QString × QVariant) → QVariantMap
  | [] => []
  | (key, v) :: m => (key, v.dropMarks) :: dropMarksMap m

end

/-- The codecs keep ASCII text, and UTF-8 well-formed text but for a byte order mark; what is read
is well formed, and no `NUL` comes in. -/
structure Qt.Lawful (u : Qt) : Prop where
  toLocal8Bit : ∀ s : QString, s.Ascii → u.toLocal8Bit s = s.units.map UInt16.toUInt8
  fromUtf8 : ∀ b : QByteArray, (∀ c ∈ b, c < 128) → u.fromUtf8 b = .fromLatin1 b
  toUtf8_nul : ∀ s : QString, s.WellFormed → ¬ s.hasNul → 0 ∉ u.toUtf8 s
  fromUtf8_nul : ∀ b : QByteArray, 0 ∉ b → ¬ (u.fromUtf8 b).hasNul
  fromUtf8_wellFormed : ∀ b : QByteArray, (u.fromUtf8 b).WellFormed
  fromUtf8_toUtf8 : ∀ s : QString, s.WellFormed → u.fromUtf8 (u.toUtf8 s) = s.dropMark

/-! ### Keys -/

variable {u : Qt}

lemma constData_of_not_mem {b : QByteArray} (h : 0 ∉ b) : constData b = b :=
  List.takeWhile_eq_self_iff.mpr fun _ hc => decide_eq_true fun h0 => h (h0 ▸ hc)

lemma zero_not_mem_constData (b : QByteArray) : 0 ∉ constData b := fun h => by
  simpa using List.mem_takeWhile_imp h

@[simp] lemma constData_constData (b : QByteArray) : constData (constData b) = constData b :=
  constData_of_not_mem (zero_not_mem_constData b)

lemma fromUtf8_qPrintable (hu : u.Lawful) {key : QString} (hascii : key.Ascii)
    (hnul : ¬ key.hasNul) : u.fromUtf8 (qPrintable u key) = key := by
  have hsmall : ∀ c ∈ key.units.map UInt16.toUInt8, c < 128 := by
    intro c hc
    obtain ⟨d, hd, rfl⟩ := List.mem_map.mp hc
    have := hascii d hd
    rw [UInt16.lt_iff_toNat_lt] at this
    rw [UInt8.lt_iff_toNat_lt, UInt16.toNat_toUInt8]
    exact (Nat.mod_le _ _).trans_lt this
  have hzero : 0 ∉ key.units.map UInt16.toUInt8 := by
    intro h
    obtain ⟨d, hd, hd0⟩ := List.mem_map.mp h
    have hlt := hascii d hd
    have hval := congrArg UInt8.toNat hd0
    rw [UInt16.lt_iff_toNat_lt] at hlt
    rw [UInt16.toNat_toUInt8, UInt8.toNat_zero, Nat.mod_eq_of_lt (hlt.trans (by decide))] at hval
    obtain rfl : d = 0 := UInt16.toNat_inj.mp hval
    exact hnul hd
  have hback : (key.units.map UInt16.toUInt8).map UInt8.toUInt16 = key.units := by
    rw [List.map_map]
    refine (List.map_congr_left fun d hd => ?_).trans (List.map_id _)
    have hlt := hascii d hd
    rw [UInt16.lt_iff_toNat_lt] at hlt
    apply UInt16.toNat_inj.mp
    rw [Function.comp, UInt8.toNat_toUInt16, UInt16.toNat_toUInt8,
      Nat.mod_eq_of_lt (hlt.trans (by decide)), id]
  rw [qPrintable, hu.toLocal8Bit key hascii, constData_of_not_mem hzero, hu.fromUtf8 _ hsmall,
    QString.fromLatin1, hback]

lemma number_eq (n : ℕ) : QString.number n = .fromLatin1 (decimal n) := by
  rw [QString.number, Decimal.number, if_neg (by omega), Int.natAbs_natCast]

lemma mem_number {n : ℕ} {c : UInt16} (h : c ∈ (QString.number n).units) :
    ∃ d, isdigit d = true ∧ c = d.toUInt16 := by
  rw [number_eq] at h
  obtain ⟨d, hd, rfl⟩ := List.mem_map.mp h
  exact ⟨d, isdigit_of_mem_decimal hd, rfl⟩

lemma number_ascii (n : ℕ) : (QString.number n).Ascii := by
  intro c hc
  obtain ⟨d, hd, rfl⟩ := mem_number hc
  simp only [isdigit, Bool.and_eq_true, decide_eq_true_eq, UInt8.le_iff_toNat_le] at hd
  rw [UInt16.lt_iff_toNat_lt, UInt8.toNat_toUInt16]
  have h57 : (57 : UInt8).toNat = 57 := rfl
  have h128 : (128 : UInt16).toNat = 128 := rfl
  omega

lemma number_no_nul (n : ℕ) : ¬ (QString.number n).hasNul := by
  intro h
  obtain ⟨d, hd, h0⟩ := mem_number h
  obtain rfl : d = 0 := UInt8.toUInt16_inj.mp h0.symm
  exact absurd hd (by decide)

lemma number_ne_oidkey (n : ℕ) : QString.number n ≠ oidkey := by
  intro h
  have hmem : (95 : UInt16) ∈ (QString.number n).units := by
    rw [h]
    decide
  obtain ⟨d, hd, h95⟩ := mem_number hmem
  obtain rfl : d = 95 := UInt8.toUInt16_inj.mp h95.symm
  exact absurd hd (by decide)

lemma number_injective {m n : ℕ} (h : QString.number m = .number n) : m = n := by
  rw [number_eq, number_eq, QString.fromLatin1, QString.fromLatin1, QString.mk.injEq] at h
  have hdecimal : decimal m = decimal n :=
    List.map_injective_iff.mpr (fun _ _ => UInt8.toUInt16_inj.mp) h
  rw [← digitsVal_decimal m, hdecimal, digitsVal_decimal]

lemma rearrangedMap_eq (m : QVariantMap) :
    rearrangedMap m = m.map fun e => (e.1, e.2.rearranged) := by
  induction m with
  | nil => rfl
  | cons e m ih => rw [rearrangedMap, ih, List.map_cons]

lemma dropMarksMap_eq (m : QVariantMap) :
    dropMarksMap m = m.map fun e => (e.1, e.2.dropMarks) := by
  induction m with
  | nil => rfl
  | cons e m ih => rw [dropMarksMap, ih, List.map_cons]

lemma ascending_rearrangedMap {m : QVariantMap} (h : Ascending m) :
    Ascending (rearrangedMap (dropMarksMap m)) := by
  rw [rearrangedMap_eq, dropMarksMap_eq]
  exact List.pairwise_map.mpr (List.pairwise_map.mpr h)

lemma indexed_ne {α : Type} {i j : ℕ} {l : List α} (h : i < j) :
    QString.number i ∉ keys (indexed j l) := by
  induction l generalizing j with
  | nil => exact List.not_mem_nil
  | cons v l ih =>
    rw [indexed, keys, List.map_cons, List.mem_cons, not_or]
    exact ⟨fun heq => h.ne (number_injective heq), ih (Nat.lt_succ_of_lt h)⟩

lemma indexed_nodup {α : Type} (i : ℕ) (l : List α) : (keys (indexed i l)).Nodup := by
  induction l generalizing i with
  | nil => exact List.nodup_nil
  | cons v l ih => exact List.nodup_cons.mpr ⟨indexed_ne (Nat.lt_succ_self i), ih (i + 1)⟩

lemma values_ofList_indexed {α : Type} (l : List α) :
    values (ofList (indexed 0 l)) = rearrange l := by
  rw [ofList_eq_byKey (indexed_nodup 0 l), rearrange]

/-! ### There and back -/

lemma fromBsonLoop_cons (hu : u.Lawful) {key : QString} (hascii : key.Ascii) (hnul : ¬ key.hasNul)
    {v : Value} {q : QVariant} (hv : variant u v = some q) (ret : QVariantMap) (d : TBson) :
    fromBsonLoop u ret ((qPrintable u key, v) :: d) = fromBsonLoop u (insert key q ret) d := by
  have hkey : u.fromUtf8 (constData (qPrintable u key)) = key := by
    rw [qPrintable, constData_constData]
    exact fromUtf8_qPrintable hu hascii hnul
  rw [fromBsonLoop, hv, hkey]

mutual

/-- **A value there and back** has its lists rearranged, and no byte order marks. -/
lemma variant_toValue (hu : u.Lawful) : ∀ q : QVariant, Plain q → Coded q →
    ∃ v, toValue u q = some v ∧ variant u v = some q.dropMarks.rearranged
  | .invalid, h, _ | .regExp _, h, _ => absurd h id
  | .bool _, _, _ | .int _, _, _ | .longLong _, _, _ | .double _, _, _ | .byteArray _, _, _
  | .dateTime _, _, _ => ⟨_, rfl, rfl⟩
  | .string s, hplain, hcoded => by
    have hnul := hu.toUtf8_nul s hcoded hplain
    refine ⟨_, rfl, ?_⟩
    rw [variant, constData_constData, constData_of_not_mem hnul, hu.fromUtf8_toUtf8 s hcoded]
    rfl
  | .list l, hplain, hcoded => by
    refine ⟨_, rfl, ?_⟩
    rw [variant, fromBsonLoop_appendList hu l 0 [] hplain hcoded]
    exact congrArg (fun l => some (QVariant.list l)) (values_ofList_indexed _)
  | .map m, hplain, hcoded => by
    refine ⟨_, rfl, ?_⟩
    rw [variant, fromBsonLoop_toBson hu m [] hplain.2 hcoded]
    exact congrArg (fun m => some (QVariant.map m))
      (ofList_of_ascending (ascending_rearrangedMap hplain.1))

lemma fromBsonLoop_appendList (hu : u.Lawful) : ∀ (l : List QVariant) (i : ℕ) (ret : QVariantMap),
    PlainList l → CodedList l → fromBsonLoop u ret (appendList u i l) =
      (indexed i (rearrangedList (dropMarksList l))).foldl (fun m e => insert e.1 e.2 m) ret
  | [], _, _, _, _ => rfl
  | q :: l, i, ret, hplain, hcoded => by
    obtain ⟨v, hv, hback⟩ := variant_toValue hu q hplain.1 hcoded.1
    rw [appendList, appendBsonValue, if_neg (number_ne_oidkey i), hv, Option.map_some,
      Option.toList_some, List.singleton_append,
      fromBsonLoop_cons hu (number_ascii i) (number_no_nul i) hback,
      fromBsonLoop_appendList hu l (i + 1) _ hplain.2 hcoded.2, dropMarksList, rearrangedList,
      indexed, List.foldl_cons]

lemma fromBsonLoop_toBson (hu : u.Lawful) : ∀ (m : List (QString × QVariant)) (ret : QVariantMap),
    PlainMap m → CodedMap m → fromBsonLoop u ret (toBson u m) =
      (rearrangedMap (dropMarksMap m)).foldl (fun m e => insert e.1 e.2 m) ret
  | [], _, _, _ => rfl
  | (key, q) :: m, ret, hplain, hcoded => by
    obtain ⟨v, hv, hback⟩ := variant_toValue hu q hplain.2.1 hcoded.2.1
    rw [toBson, fromUtf8_qPrintable hu hplain.1.1 hcoded.1, appendBsonValue, if_neg hplain.1.2, hv,
      Option.map_some]
    dsimp only
    rw [fromBsonLoop_cons hu hplain.1.1 hcoded.1 hback,
      fromBsonLoop_toBson hu m _ hplain.2.2 hcoded.2.2, dropMarksMap, rearrangedMap,
      List.foldl_cons]

end

/-- **A map there and back** has its lists rearranged, and no byte order marks. -/
theorem fromBson_toBson (hu : u.Lawful) {m : QVariantMap} (hplain : Plain (.map m))
    (hcoded : CodedMap m) : fromBson u (toBson u m) = rearrangedMap (dropMarksMap m) :=
  (fromBsonLoop_toBson hu m [] hplain.2 hcoded).trans
    (ofList_of_ascending (ascending_rearrangedMap hplain.1))

/-! ### What comes out of a document -/

lemma codedMap_insert {m : QVariantMap} {key : QString} {q : QVariant} (hm : CodedMap m)
    (hkey : ¬ key.hasNul) (hq : Coded q) : CodedMap (insert key q m) := by
  induction m with
  | nil => exact ⟨hkey, hq, trivial⟩
  | cons e m ih =>
    obtain ⟨l, w⟩ := e
    rw [SortedMap.insert]
    split_ifs
    · exact ⟨hkey, hq, hm⟩
    · exact ⟨hkey, hq, hm.2.2⟩
    · exact ⟨hm.1, hm.2.1, ih hm.2.2⟩

lemma codedList_values {m : QVariantMap} (h : CodedMap m) : CodedList (values m) := by
  induction m with
  | nil => trivial
  | cons e m ih => exact ⟨h.2.1, ih h.2.2⟩

mutual

lemma coded_variant (hu : u.Lawful) : ∀ (v : Value) (q : QVariant), variant u v = some q → Coded q
  | .double _, _, h | .binary _, _, h | .undefined, _, h | .bool _, _, h | .dateTime _, _, h
  | .null, _, h | .regex _, _, h | .int32 _, _, h | .int64 _, _, h => by
    obtain rfl := Option.some.inj h
    trivial
  | .utf8 _, _, h | .oid _, _, h | .code _, _, h | .symbol _, _, h => by
    obtain rfl := Option.some.inj h
    exact hu.fromUtf8_wellFormed _
  | .internal, _, h => by cases h
  | .array d, _, h => by
    obtain rfl := Option.some.inj h
    exact codedList_values (coded_fromBsonLoop hu d [] trivial)
  | .document d, _, h => by
    obtain rfl := Option.some.inj h
    exact coded_fromBsonLoop hu d [] trivial

lemma coded_fromBsonLoop (hu : u.Lawful) : ∀ (d : List (QByteArray × Value)) (ret : QVariantMap),
    CodedMap ret → CodedMap (fromBsonLoop u ret d)
  | [], _, hret => hret
  | (key, v) :: d, ret, hret => by
    rw [fromBsonLoop]
    refine coded_fromBsonLoop hu d _ ?_
    cases hv : variant u v with
    | none => exact hret
    | some q =>
      exact codedMap_insert hret (hu.fromUtf8_nul _ (zero_not_mem_constData key))
        (coded_variant hu v q hv)

end

/-! ### The strings -/

lemma stringsList_eq (l : List QVariant) : stringsList l = l.flatMap strings := by
  induction l with
  | nil => rfl
  | cons q l ih => rw [stringsList, ih, List.flatMap_cons]

lemma values_indexed {α : Type} (i : ℕ) (l : List α) : values (indexed i l) = l := by
  induction l generalizing i with
  | nil => rfl
  | cons v l ih => exact congrArg (v :: ·) (ih (i + 1))

lemma rearrange_perm {α : Type} (l : List α) : (rearrange l).Perm l := by
  have hsorted : (byKey (indexed 0 l)).Perm (indexed 0 l) := List.perm_insertionSort _ _
  have hvalues := hsorted.map Prod.snd
  rwa [← values, ← values, values_indexed] at hvalues

mutual

lemma strings_rearranged : ∀ q : QVariant, (strings q.rearranged).Perm (strings q)
  | .invalid | .regExp _ | .bool _ | .int _ | .longLong _ | .double _ | .byteArray _ | .dateTime _
  | .string _ => .refl _
  | .list l => by
    rw [QVariant.rearranged, strings, strings, stringsList_eq]
    refine ((rearrange_perm _).flatMap_right strings).trans ?_
    rw [← stringsList_eq]
    exact stringsList_rearranged l
  | .map m => by
    rw [QVariant.rearranged, strings, strings]
    exact stringsMap_rearranged m

lemma stringsList_rearranged : ∀ l : List QVariant,
    (stringsList (rearrangedList l)).Perm (stringsList l)
  | [] => .refl _
  | q :: l => (strings_rearranged q).append (stringsList_rearranged l)

lemma stringsMap_rearranged : ∀ m : List (QString × QVariant),
    (stringsMap (rearrangedMap m)).Perm (stringsMap m)
  | [] => .refl _
  | (_, q) :: m => (strings_rearranged q).append (stringsMap_rearranged m)

end

mutual

lemma strings_dropMarks : ∀ q : QVariant, strings q.dropMarks = (strings q).map QString.dropMark
  | .invalid | .regExp _ | .bool _ | .int _ | .longLong _ | .double _ | .byteArray _ | .dateTime _
  | .string _ => rfl
  | .list l => stringsList_dropMarks l
  | .map m => stringsMap_dropMarks m

lemma stringsList_dropMarks : ∀ l : List QVariant,
    stringsList (dropMarksList l) = (stringsList l).map QString.dropMark
  | [] => rfl
  | q :: l => by
    rw [dropMarksList, stringsList, stringsList, List.map_append, strings_dropMarks q,
      stringsList_dropMarks l]

lemma stringsMap_dropMarks : ∀ m : List (QString × QVariant),
    stringsMap (dropMarksMap m) = (stringsMap m).map QString.dropMark
  | [] => rfl
  | (key, q) :: m => by
    rw [dropMarksMap, stringsMap, stringsMap, List.map_append, strings_dropMarks q,
      stringsMap_dropMarks m]

end

lemma QString.dropMark_eq_iff {s : QString} : s.dropMark = s ↔ ¬ s.Marked := by
  rw [QString.Marked, ← ne_eq, ← Utf8.dropMark_eq_iff]
  exact ⟨fun h => congrArg QString.units h, fun h => congrArg QString.mk h⟩

mutual

lemma dropMarks_of_unmarked : ∀ q : QVariant, (∀ s ∈ strings q, ¬ s.Marked) → q.dropMarks = q
  | .invalid, _ | .regExp _, _ | .bool _, _ | .int _, _ | .longLong _, _ | .double _, _
  | .byteArray _, _ | .dateTime _, _ => rfl
  | .string s, h => congrArg QVariant.string (QString.dropMark_eq_iff.mpr (h s (.head _)))
  | .list l, h => congrArg QVariant.list (dropMarksList_of_unmarked l h)
  | .map m, h => congrArg QVariant.map (dropMarksMap_of_unmarked m h)

lemma dropMarksList_of_unmarked : ∀ l : List QVariant, (∀ s ∈ stringsList l, ¬ s.Marked) →
    dropMarksList l = l
  | [], _ => rfl
  | q :: l, h => by
    obtain ⟨hq, hl⟩ := List.forall_mem_append.mp h
    rw [dropMarksList, dropMarks_of_unmarked q hq, dropMarksList_of_unmarked l hl]

lemma dropMarksMap_of_unmarked : ∀ m : List (QString × QVariant),
    (∀ s ∈ stringsMap m, ¬ s.Marked) → dropMarksMap m = m
  | [], _ => rfl
  | (key, q) :: m, h => by
    obtain ⟨hq, hm⟩ := List.forall_mem_append.mp h
    rw [dropMarksMap, dropMarks_of_unmarked q hq, dropMarksMap_of_unmarked m hm]

end

lemma unmarked_of_perm {l : List QString} (h : (l.map QString.dropMark).Perm l) :
    ∀ s ∈ l, ¬ s.Marked := by
  have hsum := (h.map fun s => s.units.length).sum_eq
  rw [List.map_map] at hsum
  intro s hs hmark
  refine absurd hsum (List.sum_lt_sum _ _ (fun t _ => Utf8.length_dropMark_le t.units)
    ⟨s, hs, Utf8.length_dropMark_lt fun heq => ?_⟩).ne
  exact Utf8.dropMark_eq_iff.mp heq hmark

/-- **The round trip** gives back the maps whose keys and strings C strings and UTF-8 keep, and
whose lists are in the order of the texts of their indexes; and no other ones. -/
theorem roundTrip_iff (hu : u.Lawful) {m : QVariantMap} (hplain : Plain (.map m)) :
    fromBson u (toBson u m) = m ↔ Clean (.map m) ∧ (QVariant.map m).rearranged = .map m := by
  rw [QVariant.rearranged, QVariant.map.injEq]
  constructor
  · intro h
    have hcoded : CodedMap m := by
      rw [← h]
      exact coded_fromBsonLoop hu _ [] trivial
    have hback := (fromBson_toBson hu hplain hcoded).symm.trans h
    -- the strings that come back are those of the map, so none has lost its mark
    have hperm : ((stringsMap m).map QString.dropMark).Perm (stringsMap m) := by
      have hstrings := (stringsMap_rearranged (dropMarksMap m)).symm
      rwa [hback, stringsMap_dropMarks] at hstrings
    have hunmarked := unmarked_of_perm hperm
    rw [dropMarksMap_of_unmarked m hunmarked] at hback
    exact ⟨⟨hcoded, hunmarked⟩, hback⟩
  · rintro ⟨⟨hcoded, hunmarked⟩, hm⟩
    rw [fromBson_toBson hu hplain hcoded, dropMarksMap_of_unmarked m hunmarked, hm]

/-! ### Short lists -/

mutual

/-- No list has more than ten elements. -/
def Short : QVariant → Prop
  | .list l => l.length ≤ 10 ∧ ShortList l
  | .map m => ShortMap m
  | _ => True

def ShortList : List QVariant → Prop
  | [] => True
  | v :: l => Short v ∧ ShortList l

def ShortMap : List (QString × QVariant) → Prop
  | [] => True
  | (_, v) :: m => Short v ∧ ShortMap m

end

lemma number_lt_number : ∀ j < 10, ∀ i < j, QString.number i < .number j := by
  decide

lemma mem_keys_indexed {α : Type} {i : ℕ} {l : List α} {key : QString}
    (h : key ∈ keys (indexed i l)) : ∃ j, i ≤ j ∧ j < i + l.length ∧ key = .number j := by
  induction l generalizing i with
  | nil => exact absurd h List.not_mem_nil
  | cons v l ih =>
    rcases List.mem_cons.mp h with rfl | h
    · exact ⟨i, le_rfl, by rw [List.length_cons]; omega, rfl⟩
    · obtain ⟨j, hij, hj, rfl⟩ := ih h
      exact ⟨j, by omega, by rw [List.length_cons]; omega, rfl⟩

lemma ascending_indexed {α : Type} {i : ℕ} {l : List α} (h : i + l.length ≤ 10) :
    Ascending (indexed i l) := by
  induction l generalizing i with
  | nil => exact List.Pairwise.nil
  | cons v l ih =>
    rw [List.length_cons] at h
    refine List.pairwise_cons.mpr ⟨fun e he => ?_, ih (by omega)⟩
    obtain ⟨j, hij, hj, hkey⟩ := mem_keys_indexed (List.mem_map_of_mem (f := Prod.fst) he)
    rw [hkey]
    exact number_lt_number j (by omega) i (by omega)

/-- **Up to ten elements** stay where they are. -/
theorem rearrange_of_length_le {α : Type} {l : List α} (h : l.length ≤ 10) : rearrange l = l := by
  have hsorted : Ascending (indexed 0 l) := ascending_indexed (by omega)
  rw [← values_ofList_indexed, ofList_of_ascending hsorted, values_indexed]

mutual

lemma rearranged_of_short : ∀ q : QVariant, Short q → q.rearranged = q
  | .invalid, _ | .regExp _, _ | .bool _, _ | .int _, _ | .longLong _, _ | .double _, _
  | .byteArray _, _ | .dateTime _, _ | .string _, _ => rfl
  | .list l, h => by
    rw [QVariant.rearranged, rearrangedList_of_short l h.2, rearrange_of_length_le h.1]
  | .map m, h => by rw [QVariant.rearranged, rearrangedMap_of_short m h]

lemma rearrangedList_of_short : ∀ l : List QVariant, ShortList l → rearrangedList l = l
  | [], _ => rfl
  | q :: l, h => by
    rw [rearrangedList, rearranged_of_short q h.1, rearrangedList_of_short l h.2]

lemma rearrangedMap_of_short : ∀ m : List (QString × QVariant), ShortMap m → rearrangedMap m = m
  | [], _ => rfl
  | (key, q) :: m, h => by
    rw [rearrangedMap, rearranged_of_short q h.1, rearrangedMap_of_short m h.2]

end

/-- **A map of short lists** comes back as it was. -/
theorem roundTrip_of_short (hu : u.Lawful) {m : QVariantMap} (hplain : Plain (.map m))
    (hclean : Clean (.map m)) (hshort : ShortMap m) : fromBson u (toBson u m) = m := by
  rw [fromBson_toBson hu hplain hclean.coded, dropMarksMap_of_unmarked m hclean.unmarked,
    rearrangedMap_of_short m hshort]

/-! ### A list of eleven elements -/

/-- The codecs of a program that runs in a locale with ASCII only. -/
def utf8Qt : Qt where
  toLocal8Bit s := s.units.map fun c => if c < 128 then c.toUInt8 else 63
  toUtf8 s := Utf8.encode s.units
  fromUtf8 b := ⟨Utf8.decode b⟩
  toByteArray
    | .byteArray d => d
    | _ => []
  toInt
    | .int n => some n
    | _ => none
  toString
    | .string s => s
    | _ => ⟨[]⟩
  oidFromString b := b
  oidToString b := b

lemma lawful_utf8Qt : utf8Qt.Lawful where
  toLocal8Bit s hs := List.map_congr_left fun c hc => if_pos (hs c hc)
  fromUtf8 b hb := congrArg QString.mk (Utf8.decode_ascii hb)
  toUtf8_nul s hs hnul h := by
    rw [← List.count_pos_iff, utf8Qt, Utf8.count_encode hs (by decide), List.count_pos_iff] at h
    exact hnul h
  fromUtf8_nul b hb h := by
    rw [QString.hasNul, ← List.count_pos_iff] at h
    exact hb (List.count_pos_iff.mp ((Utf8.count_decode (a := 0) (by decide) b) ▸ h))
  fromUtf8_wellFormed := Utf8.wellFormed_decode
  fromUtf8_toUtf8 s hs := congrArg QString.mk (Utf8.decode_encode hs)

def key : QString := .fromLatin1 (ascii "k")

/-- The numbers from zero on. -/
def numbers (n : ℕ) : QVariantMap := [(key, .list ((List.range n).map fun i => .int (.ofNat i)))]

lemma key_ascii : key.Ascii := List.forall_mem_singleton.mpr (by decide)

lemma plain_numbers (n : ℕ) : Plain (.map (numbers n)) := by
  refine ⟨List.pairwise_singleton _ _, ⟨key_ascii, by decide⟩, ?_, trivial⟩
  change PlainList _
  induction List.range n with
  | nil => trivial
  | cons i l ih => exact ⟨trivial, ih⟩

lemma key_no_nul : ¬ key.hasNul := by
  change (0 : UInt16) ∉ [107]
  decide

lemma clean_numbers (n : ℕ) : Clean (.map (numbers n)) := by
  constructor
  · refine ⟨key_no_nul, ?_, trivial⟩
    change CodedList _
    induction List.range n with
    | nil => trivial
    | cons i l ih => exact ⟨trivial, ih⟩
  · change ∀ s ∈ stringsList _ ++ [], _
    rw [List.append_nil]
    induction List.range n with
    | nil => exact List.forall_mem_nil _
    | cons i l ih => exact ih

/-- A string beyond ASCII, and a map inside of a list. -/
def nested : QVariantMap := [(key, .list [.string ⟨[0xE9]⟩, .map [(key, .int 7)]])]

lemma plain_nested : Plain (.map nested) :=
  ⟨List.pairwise_singleton _ _, ⟨key_ascii, by decide⟩,
    ⟨by change (0 : UInt16) ∉ [0xE9]; decide, ⟨List.pairwise_singleton _ _, ⟨key_ascii, by decide⟩,
      trivial, trivial⟩, trivial⟩, trivial⟩

lemma clean_nested : Clean (.map nested) where
  coded := ⟨key_no_nul, ⟨⟨[0xE9], by decide, rfl⟩, ⟨key_no_nul, trivial, trivial⟩, trivial⟩,
    trivial⟩
  unmarked := by decide

theorem roundTrip_iff_nested : fromBson utf8Qt (toBson utf8Qt nested) = nested :=
  (roundTrip_iff lawful_utf8Qt plain_nested).mpr
    ⟨clean_nested,
      rearranged_of_short _ ⟨⟨by decide, trivial, ⟨trivial, trivial⟩, trivial⟩, trivial⟩⟩

/-- The numbers of the lists of a map. -/
def ints (m : QVariantMap) : List (List Int32) :=
  m.map fun e => match e.2 with
    | .list l => l.filterMap fun
      | .int n => some n
      | _ => none
    | _ => []

/-- **Eleven elements** come back in another order: `10` before `2`. -/
theorem not_roundTrip_eleven :
    utf8Qt.Lawful ∧ Plain (.map (numbers 11)) ∧ Clean (.map (numbers 11)) ∧
      fromBson utf8Qt (toBson utf8Qt (numbers 11)) ≠ numbers 11 := by
  refine ⟨lawful_utf8Qt, plain_numbers 11, clean_numbers 11, fun h => ?_⟩
  have hints : ints (fromBson utf8Qt (toBson utf8Qt (numbers 11))) =
      [[0, 1, 10, 2, 3, 4, 5, 6, 7, 8, 9]] := by rfl
  rw [h] at hints
  exact absurd hints (by decide)

end TreeFrog.Bson
