import TreeFrog.RedisDecode

/-!
A reply that has arrived completely: it is decoded unless there is an array without elements in it.

An array is read in as many turns as it has elements, but in one at least. An array without
elements thus takes the element behind it, and in the end there is one too few.
-/

namespace TreeFrog.RedisComplete

open Bytes Decimal RedisReply RedisDriver TRedisDriver RedisDecode

variable {b rest : QByteArray} {pos : ℕ}

/-! ### One element -/

lemma elements_succ (b : QByteArray) (n pos : ℕ) :
    elements b (n + 1) pos = (parseElement (parseArray b) b pos).bind fun x =>
      (elements b n x.2).map fun y => (x.1 :: y.1, y.2) := by
  rw [elements, parseElements]
  cases parseElement (parseArray b) b pos <;> rfl

lemma parseElement_integer {array : ℕ → Option (QVariantList × ℕ)} {n : Int32}
    (h : b.drop pos = (Item.integer n).encode ++ rest) :
    parseElement array b pos =
      some ((Item.integer n).value, pos + (Item.integer n).encode.length) := by
  obtain ⟨hchar, hnumber, -⟩ := getNumber_header n.le_toInt n.toInt_lt h
  rw [parseElement, hchar, DataType.ofChar?_char]
  dsimp only
  rw [hnumber]
  rfl

lemma charAt_toBulk {d : QByteArray} (h : b.drop pos = toBulk d ++ rest) :
    charAt b pos = DataType.bulkString.char :=
  charAt_of_cons (t := number d.length ++ CRLF ++ d ++ CRLF ++ rest) (by simpa [toBulk] using h)

lemma parseBulkString_encode (hlen : b.length < 2 ^ 31) {d : Option QByteArray}
    (h : b.drop pos = (Item.bulk d).encode ++ rest) :
    charAt b pos = DataType.bulkString.char ∧
      parseBulkString b pos = some (d, pos + (Item.bulk d).encode.length) := by
  cases d with
  | none => exact ⟨(getNumber_header (by decide) (by decide) h).1, parseBulkString_null h⟩
  | some d => exact ⟨charAt_toBulk h, parseBulkString_toBulk hlen h⟩

lemma parseElement_bulk (hlen : b.length < 2 ^ 31) {array : ℕ → Option (QVariantList × ℕ)}
    {d : Option QByteArray} (h : b.drop pos = (Item.bulk d).encode ++ rest) :
    parseElement array b pos = some ((Item.bulk d).value, pos + (Item.bulk d).encode.length) := by
  obtain ⟨hchar, hbulk⟩ := parseBulkString_encode hlen h
  rw [parseElement, hchar, DataType.ofChar?_char]
  dsimp only
  rw [hbulk, Option.map_some, Item.value]

/-- An array, empty or null ones included: its count, and the elements that follow. -/
structure Heads (e : Item) (count : ℤ) (cs : List Item) : Prop where
  encode : e.encode = arrayHeader count ++ encodeAll cs
  lower : -2 ^ 31 ≤ count
  upper : count ≤ cs.length
  enough : cs.length ≤ max 1 count.toNat
  turns : max 1 count.toNat + emptiesAll cs = cs.length + e.empties

lemma heads_array (cs : List Item) : Heads (.array cs) cs.length cs where
  encode := by rw [Item.encode]
  lower := by omega
  upper := le_rfl
  enough := by omega
  turns := by
    rw [Item.empties]
    cases cs with
    | nil => rfl
    | cons c cs =>
      simp only [List.isEmpty_cons, List.length_cons, Bool.false_eq_true, if_false]
      omega

lemma heads_nullArray : Heads .nullArray (-1) [] where
  encode := by rw [Item.encode, encodeAll, List.append_nil]
  lower := by decide
  upper := by decide
  enough := Nat.zero_le _
  turns := rfl

lemma parseArray_heads (hlen : b.length < 2 ^ 31) {e : Item} {count : ℤ} {cs : List Item}
    (he : Heads e count cs) (h : b.drop pos = e.encode ++ rest) :
    charAt b pos = DataType.array.char ∧
      parseArray b pos = elements b (max 1 count.toNat) (pos + (arrayHeader count).length) ∧
      b.drop (pos + (arrayHeader count).length) = encodeAll cs ++ rest := by
  have hcount : count < 2 ^ 31 := by
    have hlength := length_of_append (encode_ne_nil e) h
    have hcs := length_le_encodeAll cs
    have hupper := he.upper
    rw [he.encode, List.length_append] at hlength
    omega
  rw [he.encode, List.append_assoc] at h
  obtain ⟨hchar, hnumber, hdrop⟩ := getNumber_header he.lower hcount h
  refine ⟨hchar, ?_, hdrop⟩
  rw [parseArray_eq, hnumber, Option.bind_some]
  rfl

lemma parseElement_heads (hlen : b.length < 2 ^ 31) {e : Item} {count : ℤ} {cs : List Item}
    (he : Heads e count cs) (h : b.drop pos = e.encode ++ rest) :
    parseElement (parseArray b) b pos =
      (elements b (max 1 count.toNat) (pos + (arrayHeader count).length)).map fun x =>
        (.list x.1, x.2) := by
  obtain ⟨hchar, harray, -⟩ := parseArray_heads hlen he h
  rw [parseElement, hchar, DataType.ofChar?_char]
  dsimp only
  rw [harray]

/-! ### Arrays with elements -/

lemma elements_cons {e : Item} {es : List Item}
    (he : parseElement (parseArray b) b pos = some (e.value, pos + e.encode.length))
    (hes : elements b es.length (pos + e.encode.length) =
      some (values es, pos + e.encode.length + (encodeAll es).length)) :
    elements b (e :: es).length pos =
      some (values (e :: es), pos + (encodeAll (e :: es)).length) := by
  rw [List.length_cons, elements_succ, he, Option.bind_some, hes, Option.map_some, values,
    encodeAll, List.length_append, Nat.add_assoc]

/-- **Elements** are read in their order, whatever follows. -/
theorem elements_encodeAll (hlen : b.length < 2 ^ 31) {es : List Item} (h0 : emptiesAll es = 0)
    (h : b.drop pos = encodeAll es ++ rest) :
    elements b es.length pos = some (values es, pos + (encodeAll es).length) := by
  induction es using forest_induction generalizing pos rest with
  | nil => rfl
  | integer n es ih =>
    rw [encodeAll, List.append_assoc] at h
    rw [emptiesAll, Item.empties, Nat.zero_add] at h0
    exact elements_cons (parseElement_integer h) (ih h0 (drop_add_of_append h))
  | bulk d es ih =>
    rw [encodeAll, List.append_assoc] at h
    rw [emptiesAll, Item.empties, Nat.zero_add] at h0
    exact elements_cons (parseElement_bulk hlen h) (ih h0 (drop_add_of_append h))
  | array cs es ihc ihs =>
    have hheads := heads_array cs
    have hturns := hheads.turns
    rw [encodeAll, List.append_assoc] at h
    rw [emptiesAll] at h0
    have hcs : emptiesAll cs = 0 := by
      rw [Item.empties] at h0
      omega
    have hinner := ihc hcs (parseArray_heads hlen hheads h).2.2
    have helement : parseElement (parseArray b) b pos =
        some ((Item.array cs).value, pos + (Item.array cs).encode.length) := by
      rw [parseElement_heads hlen hheads h, show max 1 (cs.length : ℤ).toNat = cs.length by omega,
        hinner, Option.map_some, Item.value, hheads.encode, List.length_append, Nat.add_assoc]
    exact elements_cons helement (ihs (by omega) (drop_add_of_append h))
  | nullArray es ih =>
    rw [emptiesAll, Item.empties] at h0
    omega

/-! ### Arrays without elements -/

/-- So many turns at the elements `es`, behind which the buffer ends, take one element for each turn
and one more for each array without elements. -/
def Counts (b : QByteArray) (es : List Item) : Prop :=
  ∀ n pos r, b.drop pos = encodeAll es → elements b n pos = some r →
    ∃ taken left, es = taken ++ left ∧ taken.length = n + emptiesAll taken ∧
      r.2 = pos + (encodeAll taken).length

/-- What one turn takes behind the element at which it begins. -/
def CountsElement (b : QByteArray) (e : Item) (es : List Item) : Prop :=
  ∀ pos x, b.drop pos = e.encode ++ encodeAll es → parseElement (parseArray b) b pos = some x →
    ∃ taken left, es = taken ++ left ∧ taken.length = e.empties + emptiesAll taken ∧
      x.2 = pos + e.encode.length + (encodeAll taken).length

lemma counts_nil : Counts b [] := by
  intro n pos r h hr
  cases n with
  | zero =>
    cases hr
    exact ⟨[], [], rfl, rfl, rfl⟩
  | succ n =>
    have hnone : parseElement (parseArray b) b pos = none := by
      rw [parseElement, charAt_of_nil h]
      rfl
    rw [elements_succ, hnone] at hr
    cases hr

lemma counts_cons {e : Item} {es : List Item} (hes : ∀ d, d <:+ es → Counts b d)
    (he : CountsElement b e es) : Counts b (e :: es) := by
  intro n pos r h hr
  rw [encodeAll] at h
  cases n with
  | zero =>
    cases hr
    exact ⟨[], e :: es, rfl, rfl, rfl⟩
  | succ n =>
    rw [elements_succ] at hr
    obtain ⟨x, hx, hr⟩ := Option.bind_eq_some_iff.mp hr
    obtain ⟨y, hy, rfl⟩ := Option.map_eq_some_iff.mp hr
    obtain ⟨taken, left, rfl, htaken, hxpos⟩ := he pos x h hx
    have hleft : b.drop x.2 = encodeAll left := by
      rw [encodeAll_append, ← List.append_assoc, ← List.append_nil (encodeAll left),
        ← List.append_assoc] at h
      have hdrop : b.drop (pos + (e.encode ++ encodeAll taken).length) = encodeAll left :=
        drop_add_of_append (by simpa using h)
      rwa [List.length_append, ← Nat.add_assoc, ← hxpos] at hdrop
    obtain ⟨taken', left', rfl, htaken', hypos⟩ :=
      hes left (List.suffix_append _ _) n x.2 y hleft hy
    refine ⟨e :: (taken ++ taken'), left', by simp, ?_, ?_⟩
    · rw [List.length_cons, List.length_append, emptiesAll, emptiesAll_append]
      omega
    · rw [encodeAll, encodeAll_append, List.length_append, List.length_append]
      dsimp only
      omega

lemma countsElement_of_eq {e : Item} {es : List Item} (h0 : e.empties = 0)
    (h : ∀ pos, b.drop pos = e.encode ++ encodeAll es →
      parseElement (parseArray b) b pos = some (e.value, pos + e.encode.length)) :
    CountsElement b e es := by
  intro pos x hpos hx
  rw [h pos hpos] at hx
  cases hx
  exact ⟨[], es, rfl, by rw [h0]; rfl, rfl⟩

lemma countsElement_heads (hlen : b.length < 2 ^ 31) {e : Item} {count : ℤ} {cs es : List Item}
    (he : Heads e count cs) (hcounts : Counts b (cs ++ es)) : CountsElement b e es := by
  intro pos x hpos hx
  obtain ⟨-, -, hdrop⟩ := parseArray_heads hlen he hpos
  rw [parseElement_heads hlen he hpos] at hx
  obtain ⟨y, hy, rfl⟩ := Option.map_eq_some_iff.mp hx
  obtain ⟨taken, left, hsplit, htaken, hypos⟩ :=
    hcounts _ _ y (by rw [hdrop, encodeAll_append]) hy
  have hturns := he.turns
  have henough := he.enough
  -- the elements of the array are taken, all of them
  obtain ⟨m, rfl⟩ : cs <+: taken :=
    List.prefix_of_prefix_length_le ⟨es, hsplit⟩ (List.prefix_append taken left) (by omega)
  rw [List.append_assoc] at hsplit
  rw [List.length_append, emptiesAll_append] at htaken
  refine ⟨m, left, List.append_cancel_left hsplit, by omega, ?_⟩
  dsimp only
  rw [hypos, encodeAll_append, he.encode, List.length_append, List.length_append]
  omega

/-- **The count**: arrays without elements are paid for by the elements behind them. -/
theorem counts (hlen : b.length < 2 ^ 31) (es : List Item) : Counts b es := by
  have hall : ∀ fs, (∀ d, d <:+ fs → Counts b d) → ∀ d, d <:+ es ++ fs → Counts b d := by
    have hstep : ∀ e fs, (∀ d, d <:+ fs → Counts b d) → CountsElement b e fs →
        ∀ d, d <:+ e :: fs → Counts b d := by
      intro e fs hfs he d hd
      rcases List.suffix_cons_iff.mp hd with rfl | hd
      · exact counts_cons hfs he
      · exact hfs d hd
    induction es using forest_induction with
    | nil => exact fun fs hfs => hfs
    | integer n es ih =>
      exact fun fs hfs => hstep _ _ (ih fs hfs) (countsElement_of_eq rfl
        fun _ => parseElement_integer)
    | bulk d es ih =>
      exact fun fs hfs => hstep _ _ (ih fs hfs)
        (countsElement_of_eq rfl fun _ => parseElement_bulk hlen)
    | array cs es ihc ihs =>
      intro fs hfs
      have hrest := ihs fs hfs
      exact hstep _ _ hrest
        (countsElement_heads hlen (heads_array cs) (ihc _ hrest _ (List.suffix_refl _)))
    | nullArray es ih =>
      intro fs hfs
      have hrest := ih fs hfs
      exact hstep _ _ hrest
        (countsElement_heads hlen heads_nullArray (hrest _ (List.suffix_refl _)))
  refine hall [] ?_ es (by simp)
  intro d hd
  rw [List.suffix_nil.mp hd]
  exact counts_nil

lemma parseArray_eq_none (hlen : b.length < 2 ^ 31) {e : Item} {count : ℤ} {cs : List Item}
    (he : Heads e count cs) (h0 : e.empties ≠ 0) (h : b.drop pos = e.encode) :
    parseArray b pos = none := by
  have hnil : b.drop pos = e.encode ++ [] := by rw [h, List.append_nil]
  obtain ⟨-, harray, hdrop⟩ := parseArray_heads hlen he hnil
  rw [harray]
  cases hr : elements b (max 1 count.toNat) (pos + (arrayHeader count).length) with
  | none => rfl
  | some r =>
    obtain ⟨taken, left, hsplit, htaken, -⟩ :=
      counts hlen cs _ _ r (by rw [hdrop, List.append_nil]) hr
    have hlength := congrArg List.length hsplit
    rw [List.length_append] at hlength
    have henough := he.enough
    obtain rfl : left = [] := List.length_eq_zero_iff.mp (by omega)
    rw [List.append_nil] at hsplit
    subst hsplit
    have hturns := he.turns
    omega

/-! ### A reply -/

variable {r : Reply}

lemma encode_reply_ne_nil (r : Reply) : r.encode ≠ [] := by
  cases r with
  | item e => exact encode_ne_nil e
  | _ => simp [Reply.encode]

lemma getLine_line (t : DataType) (text : Line) :
    ∃ line, getLine ([t.char] ++ text ++ CRLF) 0 =
      some (line, ([t.char] ++ (text : QByteArray) ++ CRLF).length) := by
  have hCR : CR ∉ t.char :: text.val := by
    rw [List.mem_cons, not_or]
    exact ⟨by cases t <;> decide, text.property.1⟩
  have hidx : indexOf ([t.char] ++ text ++ CRLF) CRLF 0 = some (0 + (t.char :: text.val).length) :=
    indexOf_CRLF hCR (show _ = (t.char :: text.val) ++ (CRLF ++ []) by simp)
  rw [getLine, hidx]
  exact ⟨_, by simp [CRLF]; rfl⟩

lemma parse_line {t : DataType} {text : Line} {ret : Bool} {response : QVariantList}
    (ht : t = .error ∨ t = .simpleString) :
    parse ([t.char] ++ text ++ CRLF) 0 ret response =
      .done (ret && t ≠ .error) response ([t.char] ++ (text : QByteArray) ++ CRLF).length := by
  obtain ⟨line, hline⟩ := getLine_line t text
  rw [parse, show charAt ([t.char] ++ text ++ CRLF) 0 = t.char from rfl, DataType.ofChar?_char]
  rcases ht with rfl | rfl
  · dsimp only
    rw [hline]
    simp
  · dsimp only
    rw [hline]
    simp

/-- **A reply without such arrays** is decoded in one turn. -/
theorem parse_encode (hlen : r.encode.length < 2 ^ 31) (h0 : r.empties = 0) (ret : Bool) :
    parse r.encode 0 ret [] = .done (ret && !r.isError) r.value r.encode.length := by
  cases r with
  | status text =>
    rw [Reply.encode, parse_line (.inr rfl)]
    simp [Reply.isError, Reply.value]
  | error text =>
    rw [Reply.encode, parse_line (.inl rfl)]
    simp [Reply.isError, Reply.value]
  | item e =>
    have hdrop : e.encode.drop 0 = e.encode ++ [] := by simp
    rw [Reply.encode] at hlen ⊢
    rw [show (ret && !(Reply.item e).isError) = ret by simp [Reply.isError]]
    cases e with
    | integer n =>
      obtain ⟨hchar, hnumber, -⟩ := getNumber_header n.le_toInt n.toInt_lt hdrop
      rw [parse, hchar, DataType.ofChar?_char]
      dsimp only
      rw [hnumber]
      simp [Reply.value, Item.value, Item.encode]
    | bulk d =>
      obtain ⟨hchar, hbulk⟩ := parseBulkString_encode hlen hdrop
      rw [parse, hchar, DataType.ofChar?_char]
      dsimp only
      rw [hbulk]
      simp [Reply.value, Item.value]
    | array cs =>
      have hheads := heads_array cs
      have hcs : emptiesAll cs = 0 := by
        rw [Reply.empties, Item.empties] at h0
        omega
      have hturns := hheads.turns
      rw [Reply.empties] at h0
      obtain ⟨hchar, harray, helements⟩ := parseArray_heads hlen hheads hdrop
      rw [show max 1 (cs.length : ℤ).toNat = cs.length by omega,
        elements_encodeAll hlen hcs helements] at harray
      rw [parse, hchar, DataType.ofChar?_char]
      dsimp only
      rw [harray]
      simp [Reply.value, Item.encode]
    | nullArray => cases h0

/-- **A reply with such an array** is taken for one of which bytes are missing. -/
theorem parse_encode_empty (hlen : r.encode.length < 2 ^ 31) (h0 : r.empties ≠ 0) (ret : Bool) :
    parse r.encode 0 ret [] = .more ret [] := by
  have harray : ∀ {e : Item} {count : ℤ} {cs : List Item}, e.encode.length < 2 ^ 31 →
      Heads e count cs → e.empties ≠ 0 → parse e.encode 0 ret [] = .more ret [] := by
    intro e count cs hlen he h0
    have hnil : e.encode.drop 0 = e.encode ++ [] := by simp
    have hchar := (parseArray_heads hlen he hnil).1
    rw [parse, hchar, DataType.ofChar?_char]
    dsimp only
    rw [parseArray_eq_none hlen he h0 List.drop_zero]
  cases r with
  | status text => exact absurd rfl h0
  | error text => exact absurd rfl h0
  | item e =>
    cases e with
    | integer n => exact absurd rfl h0
    | bulk d => exact absurd rfl h0
    | array cs => exact harray hlen (heads_array cs) h0
    | nullArray => exact harray hlen heads_nullArray h0

/-! ### The request -/

/-- `request` returns true unless the reply is an error, gives its value, reads nothing more and
stays behind the reply. The list that is passed is empty. -/
def Decodes (d : TRedisDriver) (command : List QByteArray) (r : Reply)
    (later : List Piece) : Prop :=
  let x := d.request command [] (⟨r.encode, encode_reply_ne_nil r⟩ :: later)
  x.ret = !r.isError ∧ x.response = r.value ∧ x.unread = later ∧
    x.driver.buffer = r.encode ∧ x.driver.pos = r.encode.length

lemma unread_suffix (startpos : ℕ) (pieces : List Piece) (ret : Bool) (response : QVariantList)
    (d : TRedisDriver) : (requestLoop startpos pieces ret response d).unread <:+ pieces := by
  induction pieces generalizing ret response d with
  | nil => exact List.suffix_refl _
  | cons piece pieces ih =>
    rw [requestLoop]
    split
    · exact List.suffix_cons _ _
    · exact List.suffix_cons _ _
    · exact (ih _ _ _).trans (List.suffix_cons _ _)

lemma requestLoop_reads (startpos : ℕ) (pieces : List Piece) (ret : Bool) (response : QVariantList)
    (d : TRedisDriver) :
    (requestLoop startpos pieces ret response d).unread ≠ pieces ∨
      (requestLoop startpos pieces ret response d).driver.buffer = [] := by
  cases pieces with
  | nil => exact .inr rfl
  | cons piece pieces =>
    refine .inl fun h => ?_
    have hsuffix : (requestLoop startpos (piece :: pieces) ret response d).unread <:+ pieces := by
      rw [requestLoop]
      split
      · exact List.suffix_refl _
      · exact List.suffix_refl _
      · exact unread_suffix _ _ _ _ _
    rw [h] at hsuffix
    have hlength := hsuffix.length_le
    rw [List.length_cons] at hlength
    omega

lemma requestLoop_done {startpos : ℕ} {piece : Piece} {pieces : List Piece} {ret ret' : Bool}
    {response response' : QVariantList} {d : TRedisDriver} {p : ℕ}
    (hb : d.buffer.drop d.pos ++ piece = b) (h : parse b 0 ret response = .done ret' response' p) :
    requestLoop startpos (piece :: pieces) ret response d =
      ⟨ret', response', ⟨d.isOpen, d.written, b, p⟩, pieces⟩ := by
  rw [requestLoop, readReply]
  dsimp only
  rw [hb, h]

lemma requestLoop_more {startpos : ℕ} {piece : Piece} {pieces : List Piece} {ret ret' : Bool}
    {response response' : QVariantList} {d : TRedisDriver}
    (hb : d.buffer.drop d.pos ++ piece = b) (h : parse b 0 ret response = .more ret' response') :
    requestLoop startpos (piece :: pieces) ret response d =
      requestLoop startpos pieces ret' response' ⟨d.isOpen, d.written, b, startpos⟩ := by
  rw [requestLoop, readReply]
  dsimp only
  rw [hb, h]

lemma request_opened {d : TRedisDriver} (hopen : d.isOpen = true) (command : List QByteArray)
    (response : QVariantList) (pieces : List Piece) :
    d.request command response pieces = requestLoop d.pos pieces true response
      ⟨true, d.written ++ toMultiBulk command, [], 0⟩ := by
  rw [request, if_pos hopen, clearBuffer, hopen]

/-- **A complete reply is decoded exactly when there is no empty and no null array in it.** -/
theorem decodes_iff (hlen : r.encode.length < 2 ^ 31) {d : TRedisDriver} (hopen : d.isOpen = true)
    (command : List QByteArray) (later : List Piece) :
    Decodes d command r later ↔ r.empties = 0 := by
  unfold Decodes
  rw [request_opened hopen]
  set first : TRedisDriver := ⟨true, d.written ++ toMultiBulk command, [], 0⟩
  have hfirst : first.buffer.drop first.pos ++
      (⟨r.encode, encode_reply_ne_nil r⟩ : Piece).val = r.encode := rfl
  by_cases h0 : r.empties = 0
  · rw [requestLoop_done hfirst (parse_encode hlen h0 true)]
    exact ⟨fun _ => h0, fun _ => ⟨rfl, rfl, rfl, rfl, rfl⟩⟩
  · rw [requestLoop_more hfirst (parse_encode_empty hlen h0 true)]
    refine ⟨fun ⟨_, _, hunread, hbuffer, _⟩ => ?_, fun h => absurd h h0⟩
    rcases requestLoop_reads d.pos later true []
      ⟨true, d.written ++ toMultiBulk command, r.encode, d.pos⟩ with hreads | hreads
    · exact absurd hunread hreads
    · exact absurd (hbuffer.symm.trans hreads) (encode_reply_ne_nil r)

/-- An array of two arrays. -/
theorem decodes_iff_nested :
    Decodes opened [ascii "XRANGE", ascii "k", ascii "-", ascii "+"]
      (.item (.array [.array [.bulk (some (ascii "x")), .integer 7], .array [.bulk none]])) [] :=
  (decodes_iff (by decide +kernel) rfl _ _).mpr (by decide)

/-- The list of the elements of a key that does not exist. -/
theorem not_decodes_emptyArray :
    ¬ Decodes opened [ascii "LRANGE", ascii "k", ascii "0", ascii "-1"] (.item (.array [])) [] :=
  fun h => absurd h.2.2.2.1 (by decide +kernel)

end TreeFrog.RedisComplete
