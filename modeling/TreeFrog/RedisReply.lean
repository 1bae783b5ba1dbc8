import TreeFrog.Decimal

/-!
Replies of a Redis server: what they say, and how they are written.
-/

namespace TreeFrog.RedisReply

open Bytes Decimal

/-- The sign in front of a reply or an element. -/
inductive DataType
  | simpleString | error | integer | bulkString | array
  deriving DecidableEq

namespace DataType

def char : DataType → UInt8
  | simpleString => 43
  | error => 45
  | integer => 58
  | bulkString => 36
  | array => 42

def ofChar? (c : UInt8) : Option DataType :=
  if c = simpleString.char then some simpleString
  else if c = error.char then some error
  else if c = integer.char then some integer
  else if c = bulkString.char then some bulkString
  else if c = array.char then some array
  else none

@[simp] lemma ofChar?_char (t : DataType) : ofChar? t.char = some t := by cases t <;> rfl

@[simp] lemma ofChar?_zero : ofChar? 0 = none := rfl

end DataType

/-- A value of a reply. A byte array may be null. -/
inductive QVariant
  | int (n : ℤ)
  | byteArray (d : Option QByteArray)
  | list (l : List QVariant)

abbrev QVariantList := List QVariant

/-- An element of an array. -/
inductive Item
  | integer (n : Int32)
  | bulk (d : Option QByteArray)
  | array (es : List Item)
  | nullArray

/-- The text of a status or an error. -/
abbrev Line := {t : QByteArray // CR ∉ t ∧ LF ∉ t}

inductive Reply
  | status (text : Line)
  | error (text : Line)
  | item (e : Item)

/-- `toBulk`. -/
def toBulk (data : QByteArray) : QByteArray :=
  [DataType.bulkString.char] ++ number data.length ++ CRLF ++ data ++ CRLF

/-- What stands in front of an array of `count` elements. -/
def arrayHeader (count : ℤ) : QByteArray := [DataType.array.char] ++ number count ++ CRLF

/-- `toMultiBulk`. -/
def toMultiBulk (data : List QByteArray) : QByteArray :=
  arrayHeader data.length ++ data.flatMap toBulk

/-! ### The text of a reply -/

mutual

def Item.encode : Item → QByteArray
  | .integer n => [DataType.integer.char] ++ number n.toInt ++ CRLF
  | .bulk (some d) => toBulk d
  | .bulk none => [DataType.bulkString.char] ++ number (-1) ++ CRLF
  | .array es => arrayHeader es.length ++ encodeAll es
  | .nullArray => arrayHeader (-1)

def encodeAll : List Item → QByteArray
  | [] => []
  | e :: es => e.encode ++ encodeAll es

end

def Reply.encode : Reply → QByteArray
  | .status text => [DataType.simpleString.char] ++ text ++ CRLF
  | .error text => [DataType.error.char] ++ text ++ CRLF
  | .item e => e.encode

/-! ### The value of a reply -/

mutual

def Item.value : Item → QVariant
  | .integer n => .int n.toInt
  | .bulk d => .byteArray d
  | .array es => .list (values es)
  | .nullArray => .list []

def values : List Item → QVariantList
  | [] => []
  | e :: es => e.value :: values es

end

/-- A status and an error have no value; an array gives its elements. -/
def Reply.value : Reply → QVariantList
  | .status _ | .error _ => []
  | .item (.array es) => values es
  | .item .nullArray => []
  | .item e => [e.value]

def Reply.isError : Reply → Bool
  | .error _ => true
  | _ => false

/-! ### The shape of a reply -/

mutual

/-- The arrays without elements, empty or null. -/
def Item.empties : Item → ℕ
  | .integer _ | .bulk _ => 0
  | .array es => emptiesAll es + if es.isEmpty then 1 else 0
  | .nullArray => 1

def emptiesAll : List Item → ℕ
  | [] => 0
  | e :: es => e.empties + emptiesAll es

end

def Reply.empties : Reply → ℕ
  | .status _ | .error _ => 0
  | .item e => e.empties

mutual

/-- The length of the bulk string at the end, zero when something else stands there. -/
def Item.lastBulk : Item → ℕ
  | .integer _ | .bulk none | .nullArray => 0
  | .bulk (some d) => d.length
  | .array es => lastBulkAll es

def lastBulkAll : List Item → ℕ
  | [] => 0
  | e :: es => if es.isEmpty then e.lastBulk else lastBulkAll es

end

def Reply.lastBulk : Reply → ℕ
  | .status _ | .error _ => 0
  | .item e => e.lastBulk

/-! ### Lists of elements -/

/-- **Induction over lists of elements**: the elements of an array are such a list, too. -/
theorem forest_induction {motive : List Item → Prop} (nil : motive [])
    (integer : ∀ n es, motive es → motive (.integer n :: es))
    (bulk : ∀ d es, motive es → motive (.bulk d :: es))
    (array : ∀ cs es, motive cs → motive es → motive (.array cs :: es))
    (nullArray : ∀ es, motive es → motive (.nullArray :: es)) (es : List Item) : motive es := by
  have item : ∀ e : Item, ∀ es, motive es → motive (e :: es) := by
    intro e
    induction e using Item.rec (motive_2 := motive) with
    | integer n => exact integer n
    | bulk d => exact bulk d
    | array cs ih => exact fun es => array cs es ih
    | nullArray => exact nullArray
    | nil => exact nil
    | cons e es ihe ihes => exact ihe es ihes
  induction es with
  | nil => exact nil
  | cons e es ih => exact item e es ih

@[simp] lemma encodeAll_append (es fs : List Item) :
    encodeAll (es ++ fs) = encodeAll es ++ encodeAll fs := by
  induction es with
  | nil => rfl
  | cons e es ih => rw [List.cons_append, encodeAll, encodeAll, ih, List.append_assoc]

@[simp] lemma emptiesAll_append (es fs : List Item) :
    emptiesAll (es ++ fs) = emptiesAll es + emptiesAll fs := by
  induction es with
  | nil => simp [emptiesAll]
  | cons e es ih => rw [List.cons_append, emptiesAll, emptiesAll, ih, Nat.add_assoc]

lemma encode_ne_nil (e : Item) : e.encode ≠ [] := by
  cases e with
  | bulk d => cases d <;> simp [Item.encode, toBulk]
  | _ => simp [Item.encode, arrayHeader]

lemma length_le_encodeAll (es : List Item) : es.length ≤ (encodeAll es).length := by
  induction es with
  | nil => exact Nat.zero_le _
  | cons e es ih =>
    have he := List.length_pos_iff.mpr (encode_ne_nil e)
    rw [encodeAll, List.length_append, List.length_cons]
    omega

/-- A command is written as an array of bulk strings. -/
theorem toMultiBulk_eq_encode (data : List QByteArray) :
    toMultiBulk data = (Item.array (data.map fun d => .bulk (some d))).encode := by
  have hall : encodeAll (data.map fun d => .bulk (some d)) = data.flatMap toBulk := by
    induction data with
    | nil => rfl
    | cons d data ih => rw [List.map_cons, encodeAll, ih, List.flatMap_cons, Item.encode]
  rw [Item.encode, hall, List.length_map, toMultiBulk]

end TreeFrog.RedisReply
