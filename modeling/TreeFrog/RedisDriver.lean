import TreeFrog.RedisReply

/-!
The Redis driver: requests, and the decoding of what the server replies. A reply is read from the
front of the buffer; when bytes are missing, more are read and the decoding begins again.
-/

namespace TreeFrog.RedisDriver

open Bytes RedisReply

/-! ### Decoding

`none` is `*ok == false`; the position then is where it was. -/

/-- `buffer[i]`; zero behind the end. -/
def charAt (buffer : QByteArray) (i : ℕ) : UInt8 := buffer.getD i 0

def getLine (buffer : QByteArray) (pos : ℕ) : Option (QByteArray × ℕ) :=
  (indexOf buffer CRLF pos).map fun idx => ((buffer.drop pos).take idx, idx + 2)

/-- The digits at the front of a text, added to `num`. -/
def digits (num : ℤ) : QByteArray → ℤ
  | [] => num
  | d :: ds => if isdigit d then digits (narrow (narrow (num * 10) + (d.toNat - 48))) ds else num

/-- The number at the front of a text, with its sign. -/
def signed : QByteArray → ℤ
  | [] => 0
  | d :: ds => if d = 45 then narrow (digits 0 ds * -1) else digits 0 (d :: ds)

def getNumber (buffer : QByteArray) (pos : ℕ) : Option (ℤ × ℕ) :=
  (indexOf buffer CRLF pos).map fun idx => (signed (buffer.drop pos), idx + 2)

def parseBulkString (buffer : QByteArray) (pos : ℕ) : Option (Option QByteArray × ℕ) :=
  match getNumber buffer (pos + 1) with
  | none => none
  | some (len, pos) =>
    if len < -1 then none
    else if len = -1 then some (none, pos)
    else if pos + 2 ≤ buffer.length then
      some (some (if 0 < len then (buffer.drop pos).take len.toNat else []), pos + len.toNat + 2)
    else none

/-- The `switch` of `parseArray`, with what reads an array inside the array. -/
def parseElement (array : ℕ → Option (QVariantList × ℕ)) (buffer : QByteArray) (pos : ℕ) :
    Option (QVariant × ℕ) :=
  match DataType.ofChar? (charAt buffer pos) with
  | some .bulkString => (parseBulkString buffer pos).map fun (str, pos) => (.byteArray str, pos)
  | some .integer => (getNumber buffer (pos + 1)).map fun (num, pos) => (.int num, pos)
  | some .array => (array pos).map fun (var, pos) => (.list var, pos)
  | _ => none

/-- So many turns of the loop of `parseArray`. -/
def parseElements (element : ℕ → Option (QVariant × ℕ)) : ℕ → ℕ → Option (QVariantList × ℕ)
  | 0, pos => some ([], pos)
  | n + 1, pos =>
    match element pos with
    | none => none
    | some (v, pos) => (parseElements element n pos).map fun (vs, pos) => (v :: vs, pos)

/-- `parseArray`, for arrays nested so deep at most. The loop looks at the count behind an element,
so that it reads at least one. -/
def parseArrayWithin (buffer : QByteArray) : ℕ → ℕ → Option (QVariantList × ℕ)
  | 0, _ => none
  | depth + 1, pos =>
    match getNumber buffer (pos + 1) with
    | none => none
    | some (count, pos) =>
      parseElements (parseElement (parseArrayWithin buffer depth) buffer) (max 1 count.toNat) pos

/-- An array in a buffer is not nested deeper than the buffer is long. -/
def parseArray (buffer : QByteArray) (pos : ℕ) : Option (QVariantList × ℕ) :=
  parseArrayWithin buffer (buffer.length + 1) pos

/-! ### Requests -/

/-- What a reading finds: at least a byte. -/
abbrev Piece := {b : QByteArray // b ≠ []}

structure TRedisDriver where
  isOpen : Bool
  written : QByteArray
  buffer : QByteArray
  pos : ℕ

namespace TRedisDriver

def clearBuffer (d : TRedisDriver) : TRedisDriver := { d with buffer := [], pos := 0 }

/-- `readReply`, when `piece` arrives in time. -/
def readReply (d : TRedisDriver) (piece : Piece) : TRedisDriver :=
  { d with buffer := d.buffer.drop d.pos ++ piece, pos := 0 }

/-- The end of a turn of the loop of `request`: the reply is read, or is none, or bytes of it are
missing. -/
inductive Turn
  | done (ret : Bool) (response : QVariantList) (pos : ℕ)
  | invalid
  | more (ret : Bool) (response : QVariantList)

/-- The `switch` of `request`. -/
def parse (buffer : QByteArray) (pos : ℕ) (ret : Bool) (response : QVariantList) : Turn :=
  match DataType.ofChar? (charAt buffer pos) with
  | some .error =>
    match getLine buffer pos with
    | some (_, pos) => .done false response pos
    | none => .more false response
  | some .simpleString =>
    match getLine buffer pos with
    | some (_, pos) => .done ret response pos
    | none => .more ret response
  | some .integer =>
    match getNumber buffer (pos + 1) with
    | some (num, pos) => .done ret (response ++ [.int num]) pos
    | none => .more ret response
  | some .bulkString =>
    match parseBulkString buffer pos with
    | some (str, pos) => .done ret (response ++ [.byteArray str]) pos
    | none => .more ret response
  | some .array =>
    match parseArray buffer pos with
    | some (lst, pos) => .done ret lst pos
    | none => .more ret []
  | none => .invalid

/-- What `request` returns, the driver it leaves, and the pieces it has not read. -/
structure Result where
  ret : Bool
  response : QVariantList
  driver : TRedisDriver
  unread : List Piece

/-- The loop of `request`. Behind the last piece a reading runs out of time. -/
def requestLoop (startpos : ℕ) : List Piece → Bool → QVariantList → TRedisDriver → Result
  | [], ret, response, d => ⟨ret, response, d.clearBuffer, []⟩
  | piece :: pieces, ret, response, d =>
    let d := d.readReply piece
    match parse d.buffer d.pos ret response with
    | .done ret response pos => ⟨ret, response, { d with pos := pos }, pieces⟩
    | .invalid => ⟨false, response, d.clearBuffer, pieces⟩
    | .more ret response => requestLoop startpos pieces ret response { d with pos := startpos }

/-- `request`, when the readings find `pieces`, one after the other. -/
def request (d : TRedisDriver) (command : List QByteArray) (response : QVariantList)
    (pieces : List Piece) : Result :=
  if d.isOpen then
    requestLoop d.pos pieces true response
      { d with written := d.written ++ toMultiBulk command }.clearBuffer
  else ⟨false, response, d, pieces⟩

/-- A driver that has just been connected. -/
def opened : TRedisDriver := ⟨true, [], [], 0⟩

end TRedisDriver

/-! ### Numbers -/

lemma narrow_narrow_mul_add (a b : ℤ) : narrow (narrow (narrow a * 10) + b) =
    narrow (a * 10 + b) := by
  unfold narrow
  omega

lemma digits_append {ds : QByteArray} (hds : ∀ c ∈ ds, isdigit c) {c : UInt8}
    (hc : isdigit c = false)
    (t : QByteArray) (k : ℕ) :
    digits (narrow k) (ds ++ c :: t) =
      narrow (ds.foldl (fun n c => 10 * n + (c.toNat - 48)) k : ℕ) := by
  induction ds generalizing k with
  | nil => simp [digits, hc]
  | cons d ds ih =>
    have hd : isdigit d = true := hds d (by simp)
    have hlow : 48 ≤ d.toNat := by
      simp only [isdigit, Bool.and_eq_true, decide_eq_true_eq, UInt8.le_iff_toNat_le] at hd
      exact hd.1
    have hstep : narrow (narrow (narrow k * 10) + (d.toNat - 48)) =
        narrow ((10 * k + (d.toNat - 48) : ℕ) : ℤ) := by
      rw [narrow_narrow_mul_add]
      congr 1
      omega
    rw [List.cons_append, digits, if_pos hd, hstep, ih fun c hc => hds c (by simp [hc])]
    rfl

end TreeFrog.RedisDriver
