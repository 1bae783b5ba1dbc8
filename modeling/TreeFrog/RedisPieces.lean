import TreeFrog.RedisComplete

/-!
A reply that arrives in pieces. While bytes are missing the decoding fails and begins again, but a
bulk string is taken for complete when two bytes stand behind its length, and the position at which
the decoding begins again is that of the request before.
-/

namespace TreeFrog.RedisPieces

open Bytes Decimal RedisReply RedisDriver TRedisDriver RedisDecode RedisComplete

variable {b c rest : QByteArray} {pos : ℕ}

/-! ### The front of a text

`b` has arrived of `b ++ c`. -/

lemma charAt_append (h : charAt b pos ≠ 0) : charAt (b ++ c) pos = charAt b pos := by
  unfold charAt at h ⊢
  rw [List.getD_eq_getElem?_getD] at h
  have hpos : pos < b.length := by
    by_contra hpos
    rw [List.getElem?_eq_none (by omega)] at h
    exact h rfl
  rw [List.getD_eq_getElem?_getD, List.getD_eq_getElem?_getD, List.getElem?_append_left hpos]

lemma ofChar?_append {t : DataType} (h : DataType.ofChar? (charAt b pos) = some t) :
    charAt (b ++ c) pos = charAt b pos := by
  refine charAt_append fun h0 => ?_
  rw [h0, DataType.ofChar?_zero] at h
  cases h

lemma indexOf_take {l : QByteArray} {idx : ℕ} (hl : CR ∉ l)
    (h : (b ++ c).drop pos = l ++ (CRLF ++ rest)) (hidx : indexOf b CRLF pos = some idx) :
    idx = pos + l.length ∧ idx + 2 ≤ b.length := by
  have hle := indexOf_add_length_le (by decide) hidx
  have happend := indexOf_append (by omega) hidx c
  rw [indexOf_CRLF hl h] at happend
  exact ⟨(Option.some.inj happend).symm, hle.2⟩

lemma getNumber_take {n : ℤ} (h0 : -2 ^ 31 ≤ n) (h1 : n < 2 ^ 31)
    (h : (b ++ c).drop pos = number n ++ (CRLF ++ rest)) {x : ℤ × ℕ}
    (hx : getNumber b pos = some x) :
    x = (n, pos + (number n ++ CRLF).length) ∧ x.2 ≤ b.length := by
  have hle := (getNumber_le hx).2
  obtain ⟨idx, hidx, -⟩ := Option.map_eq_some_iff.mp hx
  obtain ⟨hend, hroom⟩ := indexOf_take (not_mem_CR_number n) h hidx
  -- the line has arrived as a whole
  have hdrop : b.drop pos ++ c = (number n ++ CRLF) ++ rest := by
    rw [← List.drop_append_of_le_length (by omega), h, List.append_assoc]
  obtain ⟨m, hm⟩ : number n ++ CRLF <+: b.drop pos := by
    refine List.prefix_of_prefix_length_le ⟨rest, rfl⟩ (hdrop ▸ List.prefix_append _ c) ?_
    rw [List.length_append, List.length_drop, show CRLF.length = 2 from rfl]
    omega
  have hnumber := getNumber_number h0 h1 (by rw [← hm, List.append_assoc])
  rw [hx] at hnumber
  exact ⟨Option.some.inj hnumber, hle⟩

lemma getNumber_header_take {t : DataType} {n : ℤ} (h0 : -2 ^ 31 ≤ n) (h1 : n < 2 ^ 31)
    (h : (b ++ c).drop pos = [t.char] ++ number n ++ CRLF ++ rest) {x : ℤ × ℕ}
    (hx : getNumber b (pos + 1) = some x) :
    x = (n, pos + ([t.char] ++ number n ++ CRLF).length) ∧ x.2 ≤ b.length ∧
      (b ++ c).drop x.2 = rest := by
  have hone : (b ++ c).drop (pos + 1) = number n ++ (CRLF ++ rest) :=
    drop_add_of_append (t := [t.char]) (by simpa using h)
  obtain ⟨hvalue, hle⟩ := getNumber_take h0 h1 hone hx
  have hend : pos + 1 + (number n ++ CRLF).length =
      pos + ([t.char] ++ number n ++ CRLF).length := by
    simp only [List.length_append, List.length_singleton]
    omega
  rw [hend] at hvalue
  refine ⟨hvalue, hle, ?_⟩
  rw [hvalue]
  exact drop_add_of_append h

/-- **A bulk string** is taken when its length and two more bytes have arrived. -/
lemma parseBulkString_take (hlen : (b ++ c).length < 2 ^ 31) {d : Option QByteArray}
    (h : (b ++ c).drop pos = (Item.bulk d).encode ++ rest) {x : Option QByteArray × ℕ}
    (hx : parseBulkString b pos = some x) :
    x.2 = pos + (Item.bulk d).encode.length ∧ x.2 ≤ b.length + (Item.bulk d).lastBulk := by
  unfold parseBulkString at hx
  cases hn : getNumber b (pos + 1) with
  | none =>
    rw [hn] at hx
    cases hx
  | some y =>
    rw [hn] at hx
    cases d with
    | none =>
      obtain ⟨rfl, hle, -⟩ := getNumber_header_take (by decide) (by decide) h hn
      cases hx
      exact ⟨rfl, hle⟩
    | some d =>
      have hd : d.length < 2 ^ 31 := by
        have hlength := length_of_append (encode_ne_nil _) h
        simp only [Item.encode, toBulk, List.length_append] at hlength hlen
        omega
      rw [Item.encode, toBulk, List.append_assoc, List.append_assoc] at h
      obtain ⟨rfl, hle, -⟩ := getNumber_header_take (by omega) (by omega) h hn
      dsimp only at hx hle
      rw [if_neg (by omega), if_neg (by omega)] at hx
      obtain ⟨hroom, hx⟩ := Option.ite_none_right_eq_some.mp hx
      cases hx
      rw [Item.encode, Item.lastBulk, toBulk]
      simp only [List.length_append, List.length_singleton, show CRLF.length = 2 from rfl,
        Int.toNat_natCast] at hroom ⊢
      omega

/-- What is read of elements of which a part has arrived ends where they end, and they have arrived
but for the bulk string at the end. -/
def Takes (b c : QByteArray) (es : List Item) : Prop :=
  ∀ pos rest x, (b ++ c).drop pos = encodeAll es ++ rest → elements b es.length pos = some x →
    x.2 = pos + (encodeAll es).length ∧ (es ≠ [] → x.2 ≤ b.length + lastBulkAll es)

def TakesElement (b c : QByteArray) (e : Item) : Prop :=
  ∀ pos rest x, (b ++ c).drop pos = e.encode ++ rest → parseElement (parseArray b) b pos = some x →
    x.2 = pos + e.encode.length ∧ x.2 ≤ b.length + e.lastBulk

lemma takes_cons {e : Item} {es : List Item} (he : TakesElement b c e) (hes : Takes b c es) :
    Takes b c (e :: es) := by
  intro pos rest x h hx
  rw [encodeAll, List.append_assoc] at h
  rw [List.length_cons, elements_succ] at hx
  obtain ⟨y, hy, hx⟩ := Option.bind_eq_some_iff.mp hx
  obtain ⟨z, hz, rfl⟩ := Option.map_eq_some_iff.mp hx
  obtain ⟨hypos, hyle⟩ := he pos _ y h hy
  have hdrop := drop_add_of_append h
  rw [← hypos] at hdrop
  obtain ⟨hzpos, hzle⟩ := hes y.2 rest z hdrop hz
  rw [encodeAll, List.length_append, lastBulkAll]
  dsimp only
  refine ⟨by omega, fun _ => ?_⟩
  cases es with
  | nil =>
    have hnil : (encodeAll []).length = 0 := rfl
    rw [List.isEmpty_nil, if_pos rfl]
    omega
  | cons f fs =>
    rw [List.isEmpty_cons, if_neg Bool.false_ne_true]
    exact hzle (List.cons_ne_nil f fs)

lemma takesElement_integer (n : Int32) : TakesElement b c (.integer n) := by
  intro pos rest x h hx
  obtain ⟨hchar, -, -⟩ := getNumber_header n.le_toInt n.toInt_lt h
  unfold parseElement at hx
  cases ht : DataType.ofChar? (charAt b pos) with
  | none =>
    rw [ht] at hx
    cases hx
  | some t =>
    rw [← ofChar?_append (c := c) ht, hchar, DataType.ofChar?_char] at hx
    obtain ⟨y, hy, rfl⟩ := Option.map_eq_some_iff.mp hx
    obtain ⟨rfl, hle, -⟩ := getNumber_header_take n.le_toInt n.toInt_lt h hy
    exact ⟨rfl, hle⟩

lemma takesElement_bulk (hlen : (b ++ c).length < 2 ^ 31) (d : Option QByteArray) :
    TakesElement b c (.bulk d) := by
  intro pos rest x h hx
  obtain ⟨hchar, -⟩ := parseBulkString_encode hlen h
  unfold parseElement at hx
  cases ht : DataType.ofChar? (charAt b pos) with
  | none =>
    rw [ht] at hx
    cases hx
  | some t =>
    rw [← ofChar?_append (c := c) ht, hchar, DataType.ofChar?_char] at hx
    obtain ⟨y, hy, rfl⟩ := Option.map_eq_some_iff.mp hx
    exact parseBulkString_take hlen h hy

lemma parseArray_take (hlen : (b ++ c).length < 2 ^ 31) {cs : List Item} (hne : cs ≠ [])
    (hcs : Takes b c cs) {x : QVariantList × ℕ}
    (h : (b ++ c).drop pos = (Item.array cs).encode ++ rest) (hx : parseArray b pos = some x) :
    x.2 = pos + (Item.array cs).encode.length ∧ x.2 ≤ b.length + (Item.array cs).lastBulk := by
  have hheads := heads_array cs
  have hcount : (cs.length : ℤ) < 2 ^ 31 := by
    have hlength := length_of_append (encode_ne_nil _) h
    have hle := length_le_encodeAll cs
    rw [hheads.encode, List.length_append] at hlength
    omega
  have hpos := List.length_pos_iff.mpr hne
  rw [parseArray_eq] at hx
  obtain ⟨y, hy, hx⟩ := Option.bind_eq_some_iff.mp hx
  rw [hheads.encode, List.append_assoc] at h
  obtain ⟨rfl, -, hdrop⟩ := getNumber_header_take hheads.lower hcount h hy
  rw [show max 1 (cs.length : ℤ).toNat = cs.length by omega] at hx
  obtain ⟨hxpos, hxle⟩ := hcs _ rest x hdrop hx
  rw [hheads.encode, List.length_append, Item.lastBulk]
  refine ⟨?_, hxle hne⟩
  rw [hxpos]
  exact Nat.add_assoc _ _ _

/-- **Elements of which a part has arrived** are not read, unless nothing but a part of the bulk
string at the end is missing. -/
theorem takes (hlen : (b ++ c).length < 2 ^ 31) {es : List Item} (h0 : emptiesAll es = 0) :
    Takes b c es := by
  induction es using forest_induction with
  | nil =>
    intro pos rest x _ hx
    cases hx
    exact ⟨rfl, fun h => absurd rfl h⟩
  | integer n es ih =>
    rw [emptiesAll, Item.empties, Nat.zero_add] at h0
    exact takes_cons (takesElement_integer n) (ih h0)
  | bulk d es ih =>
    rw [emptiesAll, Item.empties, Nat.zero_add] at h0
    exact takes_cons (takesElement_bulk hlen d) (ih h0)
  | array cs es ihc ihs =>
    rw [emptiesAll, Item.empties] at h0
    -- an array without elements counts among the empty ones
    have hne : cs ≠ [] := by
      rintro rfl
      simp at h0
    refine takes_cons ?_ (ihs (by omega))
    intro pos rest x h hx
    obtain ⟨hchar, -⟩ := parseArray_heads hlen (heads_array cs) h
    unfold parseElement at hx
    cases ht : DataType.ofChar? (charAt b pos) with
    | none =>
      rw [ht] at hx
      cases hx
    | some t =>
      rw [← ofChar?_append (c := c) ht, hchar, DataType.ofChar?_char] at hx
      obtain ⟨y, hy, rfl⟩ := Option.map_eq_some_iff.mp hx
      exact parseArray_take hlen hne (ihc (by omega)) h hy
  | nullArray es ih =>
    rw [emptiesAll, Item.empties] at h0
    omega

/-! ### The front of a reply -/

variable {r : Reply}

lemma getLine_take {t : DataType} {text : Line} (h : b ++ c = [t.char] ++ text ++ CRLF)
    (hc : c ≠ []) : getLine b 0 = none := by
  rw [getLine, Option.map_eq_none_iff]
  cases hidx : indexOf b CRLF 0 with
  | none => rfl
  | some idx =>
    have hCR : CR ∉ t.char :: text.val := by
      rw [List.mem_cons, not_or]
      exact ⟨by cases t <;> decide, text.property.1⟩
    have hdrop : (b ++ c).drop 0 = (t.char :: text.val) ++ (CRLF ++ []) := by simp [h]
    obtain ⟨rfl, hroom⟩ := indexOf_take hCR hdrop hidx
    have hlength := congrArg List.length h
    have hpos := List.length_pos_iff.mpr hc
    simp only [List.length_append, List.length_cons, List.length_nil,
      show CRLF.length = 2 from rfl] at hlength hroom
    omega

lemma charAt_take {b c t : QByteArray} (hb : b ≠ []) (h : b ++ c = t) :
    charAt b 0 = charAt t 0 := by
  obtain ⟨x, b, rfl⟩ := List.exists_cons_of_ne_nil hb
  rw [← h]
  rfl

lemma parse_take_item {e : Item} (hlen : e.encode.length < 2 ^ 31) (h0 : e.empties = 0)
    (hb : b ≠ []) (h : b ++ c = e.encode) (hc : e.lastBulk < c.length) (ret : Bool) :
    parse b 0 ret [] = .more ret [] := by
  have hchar := charAt_take hb h
  have hlength := congrArg List.length h
  rw [List.length_append] at hlength
  have hfront : (b ++ c).drop 0 = e.encode ++ [] := by simp [h]
  have hwhole : e.encode.drop 0 = e.encode ++ [] := by simp
  rw [← h] at hlen
  cases e with
  | integer n =>
    rw [parse, hchar, (getNumber_header n.le_toInt n.toInt_lt hwhole).1, DataType.ofChar?_char]
    dsimp only
    cases hx : getNumber b (0 + 1) with
    | none => rfl
    | some x =>
      obtain ⟨rfl, hle, -⟩ := getNumber_header_take n.le_toInt n.toInt_lt hfront hx
      rw [Item.encode] at hlength
      dsimp only at hle
      omega
  | bulk d =>
    rw [parse, hchar, (parseBulkString_encode (by rwa [← h]) hwhole).1, DataType.ofChar?_char]
    dsimp only
    cases hx : parseBulkString b 0 with
    | none => rfl
    | some x =>
      obtain ⟨hxpos, hxle⟩ := parseBulkString_take hlen hfront hx
      omega
  | array cs =>
    -- neither it nor an element of it is empty
    have hcs : emptiesAll cs = 0 ∧ cs ≠ [] := by
      rw [Item.empties] at h0
      refine ⟨by omega, ?_⟩
      rintro rfl
      simp at h0
    rw [parse, hchar, (parseArray_heads (by rwa [← h]) (heads_array cs) hwhole).1,
      DataType.ofChar?_char]
    dsimp only
    cases hx : parseArray b 0 with
    | none => rfl
    | some x =>
      obtain ⟨hxpos, hxle⟩ := parseArray_take hlen hcs.2 (takes hlen hcs.1) hfront hx
      omega
  | nullArray => cases h0

/-- **A reply of which a part has arrived** is not decoded, when more than the bulk string at its
end is missing. -/
theorem parse_take (hlen : r.encode.length < 2 ^ 31) (h0 : r.empties = 0) (hb : b ≠ [])
    (h : b ++ c = r.encode) (hc : r.lastBulk < c.length) (ret : Bool) :
    parse b 0 ret [] = .more (ret && !r.isError) [] := by
  have hne : c ≠ [] := by
    rintro rfl
    exact Nat.not_lt_zero _ hc
  cases r with
  | status text =>
    have hfirst : charAt b 0 = DataType.simpleString.char := charAt_take hb h
    rw [parse, hfirst, DataType.ofChar?_char]
    dsimp only
    rw [getLine_take h hne]
    simp [Reply.isError]
  | error text =>
    have hfirst : charAt b 0 = DataType.error.char := charAt_take hb h
    rw [parse, hfirst, DataType.ofChar?_char]
    dsimp only
    rw [getLine_take h hne]
    simp [Reply.isError]
  | item e =>
    rw [parse_take_item hlen h0 hb h hc]
    simp [Reply.isError]

/-! ### The request -/

def bytes (pieces : List Piece) : QByteArray := (pieces.map Subtype.val).flatten

/-- The reply, arrived in one piece, ends the loop of `request` with this result. -/
def Reads (r : Reply) (ret : Bool) (response : QVariantList) : Prop :=
  ∃ pos, parse r.encode 0 true [] = .done ret response pos

/-- The driver after requests, and the bytes of their replies that have not been read: a request
ends with what it has read, or in a timeout, and what is left is there for the request behind. -/
inductive After : TRedisDriver → QByteArray → Prop
  | opened : After opened []
  | request {d : TRedisDriver} {pending : QByteArray} (command : List QByteArray)
      (reply : QByteArray) (pieces : List Piece) (rest : QByteArray) (h : After d pending)
      (hcut : bytes pieces ++ rest = pending ++ reply) :
      After (d.request command [] pieces).driver
        (bytes (d.request command [] pieces).unread ++ rest)

/-- The result does not depend on the pieces. -/
def Same (d : TRedisDriver) (command : List QByteArray) (ret : Bool) (response : QVariantList)
    (pieces : List Piece) : Prop :=
  (d.request command [] pieces).ret = ret ∧ (d.request command [] pieces).response = response

/-- Nothing of an earlier reply is left; and the reply is one piece, or nothing has been decoded
before, and the last piece is longer than the bulk string at the end of the reply. -/
def Favourable (pending : QByteArray) (pos : ℕ) (pieces : List Piece) (r : Reply) : Prop :=
  pending = [] ∧
    (pieces.length = 1 ∨ pos = 0 ∧ ∀ piece ∈ pieces.getLast?, r.lastBulk < piece.val.length)

lemma isOpen_requestLoop (startpos : ℕ) (pieces : List Piece) (ret : Bool) (response : QVariantList)
    (d : TRedisDriver) : (requestLoop startpos pieces ret response d).driver.isOpen = d.isOpen := by
  induction pieces generalizing ret response d with
  | nil => rfl
  | cons piece pieces ih =>
    rw [requestLoop]
    split
    · rfl
    · rfl
    · exact ih _ _ _

lemma isOpen_request (d : TRedisDriver) (command : List QByteArray) (response : QVariantList)
    (pieces : List Piece) : (d.request command response pieces).driver.isOpen = d.isOpen := by
  rw [request]
  split_ifs
  · exact isOpen_requestLoop _ _ _ _ _
  · rfl

lemma After.isOpen {d : TRedisDriver} {pending : QByteArray} (h : After d pending) :
    d.isOpen = true := by
  induction h with
  | opened => rfl
  | request command reply pieces rest _ _ ih =>
    rw [isOpen_request]
    exact ih

lemma value_of_reads (hlen : r.encode.length < 2 ^ 31) {ret : Bool} {response : QVariantList}
    (h : Reads r ret response) : r.empties = 0 ∧ ret = !r.isError ∧ response = r.value := by
  obtain ⟨pos, hpos⟩ := h
  by_cases h0 : r.empties = 0
  · rw [parse_encode hlen h0, Bool.true_and] at hpos
    cases hpos
    exact ⟨h0, rfl, rfl⟩
  · rw [parse_encode_empty hlen h0] at hpos
    cases hpos

lemma length_le_bytes {piece : Piece} {pieces : List Piece} (h : piece ∈ pieces) :
    piece.val.length ≤ (bytes pieces).length :=
  (List.sublist_flatten_of_mem (List.mem_map_of_mem h)).length_le

/-- **The loop**: every turn but the last misses bytes. -/
theorem requestLoop_pieces (hlen : r.encode.length < 2 ^ 31) (h0 : r.empties = 0)
    {pieces : List Piece} (hne : pieces ≠ [])
    (hlast : ∀ piece ∈ pieces.getLast?, r.lastBulk < piece.val.length) {d : TRedisDriver}
    (hpos : d.pos = 0) (hd : d.buffer ++ bytes pieces = r.encode) {ret : Bool}
    (hret : (ret && !r.isError) = !r.isError) :
    (requestLoop 0 pieces ret [] d).ret = !r.isError ∧
      (requestLoop 0 pieces ret [] d).response = r.value := by
  induction pieces generalizing d ret with
  | nil => exact absurd rfl hne
  | cons piece pieces ih =>
    have hsplit : (d.buffer.drop d.pos ++ piece.val) ++ bytes pieces = r.encode := by
      rw [hpos, List.drop_zero, ← hd, bytes, bytes, List.map_cons, List.flatten_cons,
        List.append_assoc]
    cases pieces with
    | nil =>
      have hwhole : d.buffer.drop d.pos ++ piece.val = r.encode := by
        rw [← hsplit]
        exact (List.append_nil _).symm
      rw [requestLoop_done hwhole (parse_encode hlen h0 ret)]
      exact ⟨hret, rfl⟩
    | cons next pieces =>
      rw [List.getLast?_cons_cons] at hlast
      have hmissing : r.lastBulk < (bytes (next :: pieces)).length := by
        obtain ⟨last, hlast'⟩ := Option.isSome_iff_exists.mp
          (List.getLast?_isSome.mpr (List.cons_ne_nil next pieces))
        exact (hlast last hlast').trans_le (length_le_bytes (List.mem_of_getLast? hlast'))
      have hfront : d.buffer.drop d.pos ++ piece.val ≠ [] :=
        List.append_ne_nil_of_right_ne_nil _ piece.property
      rw [requestLoop_more rfl (parse_take hlen h0 hfront hsplit hmissing ret)]
      refine ih (List.cons_ne_nil _ _) hlast rfl hsplit ?_
      rw [hret, Bool.and_self]

/-- **The result of a request does not depend on the pieces in which its reply arrives**, after any
requests, when the pieces are favourable. -/
theorem same_of_favourable {d : TRedisDriver} {pending : QByteArray} (hafter : After d pending)
    (command : List QByteArray) (hlen : r.encode.length < 2 ^ 31) {ret : Bool}
    {response : QVariantList} (hreads : Reads r ret response) {pieces : List Piece}
    (hcut : bytes pieces = pending ++ r.encode) (h : Favourable pending d.pos pieces r) :
    Same d command ret response pieces := by
  obtain ⟨h0, rfl, rfl⟩ := value_of_reads hlen hreads
  have hopen := hafter.isOpen
  obtain ⟨rfl, hpieces⟩ := h
  rw [List.nil_append] at hcut
  rcases hpieces with hone | ⟨hpos, hlast⟩
  · obtain ⟨piece, rfl⟩ := List.length_eq_one_iff.mp hone
    have hpiece : piece.val = r.encode := by
      rw [← hcut]
      exact (List.append_nil _).symm
    rw [Same, request_opened hopen]
    set first : TRedisDriver := ⟨true, d.written ++ toMultiBulk command, [], 0⟩
    have hfirst : first.buffer.drop first.pos ++ piece.val = r.encode := hpiece
    rw [requestLoop_done hfirst (parse_encode hlen h0 true)]
    exact ⟨rfl, rfl⟩
  · have hne : pieces ≠ [] := by
      rintro rfl
      exact encode_reply_ne_nil r hcut.symm
    rw [Same, request_opened hopen, hpos]
    refine requestLoop_pieces hlen h0 hne hlast ?_ ?_ rfl
    · rfl
    · exact hcut

/-! ### Examples -/

def ping : List QByteArray := [ascii "PING"]

def incr : List QByteArray := [ascii "INCR", ascii "k"]

def get : List QByteArray := [ascii "GET", ascii "k"]

/-- Behind a request with an invalid reply, of which the reading has taken all. -/
def afterInvalid : TRedisDriver := (opened.request ping [] [⟨ascii "?\r\n", by decide⟩]).driver

lemma after_afterInvalid : After afterInvalid [] :=
  .request ping (ascii "?\r\n") [⟨ascii "?\r\n", by decide⟩] [] .opened (by decide)

/-- Two pieces, the border in the middle of the line. -/
theorem same_of_favourable_two :
    Same afterInvalid get true [.byteArray (some (ascii "hi"))]
      [⟨ascii "$", by decide⟩, ⟨ascii "2\r\nhi\r\n", by decide⟩] :=
  same_of_favourable after_afterInvalid get (r := .item (.bulk (some (ascii "hi"))))
    (by decide +kernel) ⟨_, parse_encode (by decide +kernel) rfl true⟩ (by decide +kernel)
    ⟨rfl, .inr ⟨rfl, by decide +kernel⟩⟩

/-- Behind a request with a status for its reply. -/
def afterStatus : TRedisDriver := (opened.request ping [] [⟨ascii "+PONG\r\n", by decide⟩]).driver

lemma after_afterStatus : After afterStatus [] :=
  .request ping (ascii "+PONG\r\n") [⟨ascii "+PONG\r\n", by decide⟩] [] .opened (by decide)

/-- Behind a request that has run out of time, the reply of which is late. -/
def afterTimeout : TRedisDriver := (opened.request ping [] []).driver

lemma after_afterTimeout : After afterTimeout (ascii "+PONG\r\n") :=
  .request ping (ascii "+PONG\r\n") [] (ascii "+PONG\r\n") .opened (by decide)

/-- A bulk string of which two bytes have arrived; a number in two pieces behind a status, of which
the position is left; and a number behind a status that was late. -/
theorem not_same_pieces :
    (After opened [] ∧
      Reads (.item (.bulk (some (ascii "hello")))) true [.byteArray (some (ascii "hello"))] ∧
      ¬ Same opened get true [.byteArray (some (ascii "hello"))]
        [⟨ascii "$5\r\nhe", by decide⟩, ⟨ascii "llo\r\n", by decide⟩]) ∧
    Reads (.item (.integer 42)) true [.int 42] ∧
    (After afterStatus [] ∧
      ¬ Same afterStatus incr true [.int 42]
        [⟨ascii ":4", by decide⟩, ⟨ascii "2\r\n", by decide⟩]) ∧
    After afterTimeout (ascii "+PONG\r\n") ∧
      ¬ Same afterTimeout incr true [.int 42]
        [⟨ascii "+PONG\r\n", by decide⟩, ⟨ascii ":42\r\n", by decide⟩] := by
  refine ⟨⟨.opened, ⟨_, parse_encode (by decide +kernel) rfl true⟩, fun h => ?_⟩,
    ⟨_, parse_encode (by decide +kernel) rfl true⟩, ⟨after_afterStatus, fun h => ?_⟩,
    after_afterTimeout, fun h => ?_⟩
  · have hresponse : (opened.request get []
        [⟨ascii "$5\r\nhe", by decide⟩, ⟨ascii "llo\r\n", by decide⟩]).response =
          [.byteArray (some (ascii "he"))] := rfl
    have hsame := h.2
    rw [hresponse] at hsame
    simp [ascii] at hsame
  · exact absurd h.1 (by decide +kernel)
  · have hresponse : (afterTimeout.request incr []
        [⟨ascii "+PONG\r\n", by decide⟩, ⟨ascii ":42\r\n", by decide⟩]).response = [] := rfl
    exact List.cons_ne_nil _ _ (h.2.symm.trans hresponse)

end TreeFrog.RedisPieces
