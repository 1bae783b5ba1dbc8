import TreeFrog.WebSocketWire

/-!
The WebSocket parser: the received bytes are read into the last frame of the list, and a
completed frame is put in its place.
-/

namespace TreeFrog.WebSocketParse

open TreeFrog.Bytes TreeFrog.BigEndian TreeFrog.WebSocketFrame TreeFrog.WebSocketWire

/-- What reading a part of a frame header comes to. -/
inductive HeaderResult
  /-- More bytes are needed. -/
  | more (pfrm : TWebSocketFrame)
  | error (pfrm : TWebSocketFrame)
  | done (pfrm : TWebSocketFrame) (rest : QByteArray)
  deriving DecidableEq

/-- The payload length; a longer form than needed is an error. -/
def readLength (pfrm : TWebSocketFrame) (len : ℕ) (hdr : QByteArray) : HeaderResult :=
  if len = 126 then
    if hdr.length < 2 then .more pfrm
    else if ofBytes (hdr.take 2) < 126 then .error pfrm
    else .done { pfrm with payloadLength_ := ofBytes (hdr.take 2) } (hdr.drop 2)
  else if len = 127 then
    if hdr.length < 8 then .more pfrm
    else if ofBytes (hdr.take 8) ≤ 0xFFFF then .error pfrm
    else .done { pfrm with payloadLength_ := ofBytes (hdr.take 8) } (hdr.drop 8)
  else .done { pfrm with payloadLength_ := len } hdr

def readMaskKey (pfrm : TWebSocketFrame) (maskFlag : Bool) (hdr : QByteArray) : HeaderResult :=
  if maskFlag then
    if hdr.length < 4 then .more pfrm
    else .done { pfrm with maskKey_ := ofBytes (hdr.take 4) } (hdr.drop 4)
  else .done pfrm hdr

/-- The state behind the header. A frame of `2 ^ 31` bytes or more is thrown away. -/
def settle (pfrm : TWebSocketFrame) : TWebSocketFrame :=
  if pfrm.payloadLength_ = 0 then { pfrm with state_ := .Completed }
  else if 2 ^ 31 ≤ pfrm.payloadLength_ then pfrm.clear
  else { pfrm with state_ := .HeaderParsed }

/-- The header of a frame, from the bytes `hdr` that were peeked at. -/
def readHeader (pfrm : TWebSocketFrame) (hdr : QByteArray) : HeaderResult :=
  match hdr with
  | b₁ :: b₂ :: hdr =>
    match readLength { pfrm with firstByte_ := b₁ } (b₂ &&& 0x7f).toNat hdr with
    | .done pfrm hdr =>
      match readMaskKey pfrm (b₂ &&& 0x80 ≠ 0) hdr with
      | .done pfrm hdr => .done (settle pfrm) hdr
      | r => r
    | r => r
  | _ => .more pfrm

/-- What one turn of the loop does with the frame being read. -/
inductive Step
  /-- `goto parse_end` -/
  | stop (pfrm : TWebSocketFrame)
  | error (pfrm : TWebSocketFrame)
  /-- `Q_ASSERT(0)` -/
  | assertion
  | next (pfrm : TWebSocketFrame) (data : QByteArray)
  deriving DecidableEq

/-- The next bytes of the payload, with the mask taken off. -/
def readPayload (pfrm : TWebSocketFrame) (data : QByteArray) : Step :=
  let size := min (pfrm.payloadLength_ - pfrm.payload_.length) data.length
  if size = 0 then .assertion
  else
    let p := data.take size
    let p := if pfrm.maskKey_ ≠ 0 then mask pfrm.maskKey_ pfrm.payload_.length p else p
    let payload := pfrm.payload_ ++ p
    .next { pfrm with
        payload_ := payload
        state_ := if payload.length = pfrm.payloadLength_ then .Completed else .MoreData }
      (data.drop size)

def readFrame (pfrm : TWebSocketFrame) (data : QByteArray) : Step :=
  match pfrm.state_ with
  | .Empty =>
    let hdr := data.take 14
    match readHeader pfrm hdr with
    | .more pfrm => .stop pfrm
    | .error pfrm => .error pfrm
    | .done pfrm rest => .next pfrm (data.drop (hdr.length - rest.length))
  | .HeaderParsed | .MoreData => readPayload pfrm data
  | .Completed => .assertion

/-- A control frame is put behind the control frames in front and the frame after them. -/
def insertControlFrame (frm : TWebSocketFrame) : List TWebSocketFrame → List TWebSocketFrame
  | [] => [frm]
  | f :: fs => if f.isControlFrame then f :: insertControlFrame frm fs else f :: frm :: fs

/-- A continuation frame behind a final frame or a control frame. -/
def isMisplaced (frames : List TWebSocketFrame) (pfrm : TWebSocketFrame) : Bool :=
  pfrm.opCode = .Continuation &&
    match frames.getLast? with
    | none => false
    | some before => before.isFinalFrame || before.isControlFrame

/-- The list with a completed frame in its place. -/
def place (frames : List TWebSocketFrame) (pfrm : TWebSocketFrame) : List TWebSocketFrame :=
  if pfrm.isControlFrame then insertControlFrame pfrm frames else frames ++ [pfrm]

/-- What `parse` leaves behind: the frames, and the bytes that were not consumed. The loop is still
`running` when the turns it has been given are over. -/
inductive Outcome
  | parsed (frames : List TWebSocketFrame) (recvData : QByteArray)
  | error (frames : List TWebSocketFrame)
  | assertion
  | running
  deriving DecidableEq

/-- The loop, for so many turns at most, with the frames before the one being read. -/
def parseLoop : ℕ → List TWebSocketFrame → TWebSocketFrame → QByteArray → Outcome
  | 0, frames, pfrm, data => if data = [] then .parsed (frames ++ [pfrm]) data else .running
  | fuel + 1, frames, pfrm, data =>
    if data = [] then .parsed (frames ++ [pfrm]) data
    else
      match readFrame pfrm data with
      | .stop pfrm => .parsed (frames ++ [pfrm]) data
      | .error pfrm => .error (frames ++ [pfrm])
      | .assertion => .assertion
      | .next pfrm data =>
        if pfrm.state_ ≠ .Completed then parseLoop fuel frames pfrm data
        else if ¬ pfrm.validate.1 then parseLoop fuel frames pfrm.clear data
        else if isMisplaced frames pfrm.validate.2 then parseLoop fuel frames pfrm.clear data
        else if data ≠ [] then parseLoop fuel (place frames pfrm.validate.2) {} data
        else .parsed (place frames pfrm.validate.2) data

/-- The frames before the one to be read into, and that frame. -/
def lastFrame (frames : List TWebSocketFrame) : List TWebSocketFrame × TWebSocketFrame :=
  match frames.getLast? with
  | none => (frames, {})
  | some f => if f.state_ = .Completed then (frames, {}) else (frames.dropLast, f)

/-- `parse`, with one turn for each byte and one more, in which the end is seen. -/
def parse (frames : List TWebSocketFrame) (recvData : QByteArray) : Outcome :=
  parseLoop (recvData.length + 1) (lastFrame frames).1 (lastFrame frames).2 recvData

/-! ### A frame as the parser keeps it -/

/-- The frame that has been read and found valid. -/
def done (f : Frame) : TWebSocketFrame where
  firstByte_ := f.firstByte
  maskKey_ := f.keyVal
  payloadLength_ := f.payload.length
  payload_ := f.payload
  state_ := .Completed
  valid_ := true

/-- The frame when its last byte has been read. -/
def complete (f : Frame) : TWebSocketFrame := { done f with valid_ := false }

/-- The frame `f` with the first `n` bytes of its payload. -/
def partly (f : Frame) (n : ℕ) : TWebSocketFrame where
  firstByte_ := f.firstByte
  maskKey_ := f.keyVal
  payloadLength_ := f.payload.length
  payload_ := f.payload.take n
  state_ := if n = 0 then .HeaderParsed else .MoreData
  valid_ := false

/-- Nothing but the first bytes of a header may have been read into the frame. -/
structure Blank (pfrm : TWebSocketFrame) : Prop where
  state : pfrm.state_ = .Empty
  maskKey : pfrm.maskKey_ = 0
  payload : pfrm.payload_ = []
  valid : pfrm.valid_ = false

/-- The parser has been given the beginning `u` of the frame `f`: as long as the header is not
complete it keeps the bytes. -/
inductive Rests (f : Frame) (u : QByteArray) : TWebSocketFrame → QByteArray → Prop
  | head {pfrm : TWebSocketFrame} (hu : u <+: f.head) (hlt : u.length < f.head.length)
      (hb : Blank pfrm) : Rests f u pfrm u
  | payload (n : ℕ) (hu : u = f.head ++ mask f.keyVal 0 (f.payload.take n))
      (hn : n < f.payload.length) : Rests f u (partly f n) []

lemma blank_new : Blank {} := ⟨rfl, rfl, rfl, rfl⟩

lemma Rests.nil (f : Frame) : Rests f [] {} [] := by
  have := f.head_length_le
  exact .head List.nil_prefix (by rw [List.length_nil]; omega) blank_new

lemma partly_state (f : Frame) (n : ℕ) : (partly f n).state_ ≠ .Completed := by
  unfold partly
  simp only
  split_ifs <;> decide

lemma Rests.state {f : Frame} {u r : QByteArray} {pfrm : TWebSocketFrame} (h : Rests f u pfrm r) :
    pfrm.state_ ≠ .Completed := by
  rcases h with ⟨-, -, hb⟩ | ⟨n, -, -⟩
  · rw [hb.state]; decide
  · exact partly_state f n

lemma Rests.length_lt {f : Frame} {u r : QByteArray} {pfrm : TWebSocketFrame}
    (h : Rests f u pfrm r) : u.length < f.bytes.length := by
  rw [Frame.bytes_length]
  rcases h with ⟨-, hlt, -⟩ | ⟨n, rfl, hn⟩
  · omega
  · rw [List.length_append, length_mask, List.length_take]
    omega

/-! ### The first two bytes -/

lemma firstByte_bits (fin : Bool) (o : OpCode) :
    let b : UInt8 := (if fin then 0x80 else 0) ||| UInt8.ofNat o.code
    (b &&& 0x80 ≠ 0 ↔ fin = true) ∧ b &&& 0x40 = 0 ∧ b &&& 0x20 = 0 ∧ b &&& 0x10 = 0 ∧
      OpCode.ofCode (b &&& 0xF).toNat = o := by
  cases fin <;> cases o <;> decide

lemma secondByte_bits : ∀ (m : Bool) (n : Fin 128),
    let b : UInt8 := (if m then 0x80 else 0) ||| UInt8.ofNat n
    (b &&& 0x80 ≠ 0 ↔ m = true) ∧ (b &&& 0x7f).toNat = n := by
  decide +kernel

section
variable (f : Frame)

@[simp] lemma done_isFinalFrame : (done f).isFinalFrame = f.fin := by
  rw [Bool.eq_iff_iff]
  exact decide_eq_true_iff.trans (firstByte_bits f.fin f.opcode).1

@[simp] lemma done_opCode : (done f).opCode = f.opcode := (firstByte_bits f.fin f.opcode).2.2.2.2

@[simp] lemma done_isControlFrame : (done f).isControlFrame = f.isControl := by
  unfold TWebSocketFrame.isControlFrame
  rw [done_opCode]
  rfl

lemma isSound_complete : (complete f).isSound = true := by
  obtain ⟨hfin, h1, h2, h3, hop⟩ := firstByte_bits f.fin f.opcode
  have hcode : (complete f).opCode = f.opcode := hop
  have hdef : (OpCode.Continuation.code ≤ f.opcode.code ∧
      f.opcode.code ≤ OpCode.BinaryFrame.code) ∨
      (OpCode.Close.code ≤ f.opcode.code ∧ f.opcode.code ≤ OpCode.Pong.code) := by
    rcases f.opcode_defined with h | h | h | h | h | h <;> rw [h] <;> decide
  have hcontrol : f.opcode.isControl = true → f.payload.length ≤ 125 ∧
      (complete f).finBit = true := fun h =>
    ⟨(f.control_short h).2, decide_eq_true_iff.mpr (hfin.mpr (f.control_short h).1)⟩
  have hr1 : (complete f).rsv1Bit = false := decide_eq_false_iff_not.mpr (not_not_intro h1)
  have hr2 : (complete f).rsv2Bit = false := decide_eq_false_iff_not.mpr (not_not_intro h2)
  have hr3 : (complete f).rsv3Bit = false := decide_eq_false_iff_not.mpr (not_not_intro h3)
  have hlen : (complete f).payloadLength_ = f.payload.length := rfl
  unfold TWebSocketFrame.isSound TWebSocketFrame.isControlFrame
  rw [hr1, hr2, hr3, hcode, hlen]
  cases hc : f.opcode.isControl with
  | false => simpa [hc] using hdef
  | true => simpa [hc, hcontrol hc] using hdef

lemma validate_complete : (complete f).validate = (true, done f) := by
  have hs : ¬ (complete f).state_ ≠ .Completed := fun h => h rfl
  unfold TWebSocketFrame.validate
  rw [if_neg hs, isSound_complete]
  rfl

/-! ### The header -/

lemma shortLength_lt (n : ℕ) : shortLength n < 128 := by unfold shortLength; split_ifs <;> omega

lemma secondByte_mask : decide (f.secondByte &&& 0x80 ≠ 0) = f.key.isSome := by
  have h := (secondByte_bits f.key.isSome ⟨_, shortLength_lt f.payload.length⟩).1
  rw [Bool.eq_iff_iff]
  exact decide_eq_true_iff.trans h

lemma secondByte_length : (f.secondByte &&& 0x7f).toNat = shortLength f.payload.length :=
  (secondByte_bits f.key.isSome ⟨_, shortLength_lt f.payload.length⟩).2

end

lemma readLength_done {n : ℕ} (hn : n < 2 ^ 64) (pfrm : TWebSocketFrame) (t : QByteArray) :
    readLength pfrm (shortLength n) (extendedLength n ++ t) =
      .done { pfrm with payloadLength_ := n } t := by
  unfold shortLength extendedLength
  by_cases h1 : n ≤ 125
  · rw [if_pos h1, if_pos h1, readLength, if_neg (by omega), if_neg (by omega)]
    rfl
  rw [if_neg h1, if_neg h1]
  by_cases h2 : n ≤ 0xFFFF
  · have hval : ofBytes ((toBytes 2 n ++ t).take 2) = n := by
      rw [List.take_left' (length_toBytes 2 n), ofBytes_toBytes (by omega)]
    have hlong : ¬ (toBytes 2 n ++ t).length < 2 := by
      rw [List.length_append, length_toBytes]
      omega
    rw [if_pos h2, if_pos h2, readLength, if_pos rfl, if_neg hlong, hval, if_neg (by omega),
      List.drop_left' (length_toBytes 2 n)]
  · have hval : ofBytes ((toBytes 8 n ++ t).take 8) = n := by
      rw [List.take_left' (length_toBytes 8 n), ofBytes_toBytes (by omega)]
    have hlong : ¬ (toBytes 8 n ++ t).length < 8 := by
      rw [List.length_append, length_toBytes]
      omega
    rw [if_neg h2, if_neg h2, readLength, if_neg (by decide), if_pos rfl, if_neg hlong, hval,
      if_neg (by omega), List.drop_left' (length_toBytes 8 n)]

lemma readLength_more {n : ℕ} {v : QByteArray} (hv : v.length < (extendedLength n).length)
    (pfrm : TWebSocketFrame) : readLength pfrm (shortLength n) v = .more pfrm := by
  unfold shortLength
  unfold extendedLength at hv
  by_cases h1 : n ≤ 125
  · rw [if_pos h1] at hv; simp at hv
  rw [if_neg h1] at hv ⊢
  by_cases h2 : n ≤ 0xFFFF
  · rw [if_pos h2, length_toBytes] at hv
    rw [if_pos h2, readLength, if_pos rfl, if_pos hv]
  · rw [if_neg h2, length_toBytes] at hv
    rw [if_neg h2, readLength, if_neg (by decide), if_pos rfl, if_pos hv]

lemma readMaskKey_done (f : Frame) {pfrm : TWebSocketFrame} (hk : pfrm.maskKey_ = 0)
    (t : QByteArray) :
    readMaskKey pfrm f.key.isSome (f.keyBytes ++ t) =
      .done { pfrm with maskKey_ := f.keyVal } t := by
  unfold readMaskKey Frame.keyBytes
  cases hkey : f.key with
  | none =>
    have h0 : f.keyVal = pfrm.maskKey_ := by rw [hk, Frame.keyVal, hkey]; rfl
    rw [h0]
    rfl
  | some k =>
    have hlt : f.keyVal < 256 ^ 4 := by
      rw [Frame.keyVal, hkey]
      exact k.toNat_lt
    simp only [Option.isSome_some, if_true]
    rw [if_neg (by simp), List.take_left' (length_toBytes 4 _), ofBytes_toBytes hlt,
      List.drop_left' (length_toBytes 4 _)]

lemma readHeader_done (f : Frame) (hn : f.payload.length < 2 ^ 64) {pfrm : TWebSocketFrame}
    (hk : pfrm.maskKey_ = 0) (t : QByteArray) :
    readHeader pfrm (f.head ++ t) =
      .done (settle { pfrm with
        firstByte_ := f.firstByte, maskKey_ := f.keyVal,
        payloadLength_ := f.payload.length }) t := by
  rw [Frame.head, List.cons_append, List.cons_append, readHeader, secondByte_length,
    List.append_assoc, readLength_done hn]
  simp only
  have hk' : { pfrm with firstByte_ := f.firstByte, payloadLength_ := f.payload.length }.maskKey_ =
    0 := hk
  rw [secondByte_mask, readMaskKey_done f hk']

lemma readHeader_more (f : Frame) (hn : f.payload.length < 2 ^ 64) {u : QByteArray}
    (hu : u <+: f.head) (hlt : u.length < f.head.length) {pfrm : TWebSocketFrame}
    (hb : Blank pfrm) : ∃ pfrm', readHeader pfrm u = .more pfrm' ∧ Blank pfrm' := by
  obtain ⟨w, hw⟩ := hu
  match u, hw with
  | [], _ => exact ⟨pfrm, rfl, hb⟩
  | [b], _ => exact ⟨pfrm, rfl, hb⟩
  | b₁ :: b₂ :: v, hw =>
    simp only [Frame.head, List.cons_append, List.cons.injEq] at hw
    obtain ⟨rfl, rfl, hw⟩ := hw
    rw [readHeader, secondByte_length, secondByte_mask]
    rcases Nat.lt_or_ge v.length (extendedLength f.payload.length).length with hv | hv
    · rw [readLength_more hv]
      exact ⟨_, rfl, ⟨hb.state, hb.maskKey, hb.payload, hb.valid⟩⟩
    · -- the length is there, the key is not
      obtain ⟨x, rfl⟩ := List.prefix_of_prefix_length_le (List.prefix_append _ _) ⟨w, hw⟩ hv
      rw [readLength_done hn]
      have hx : x.length < f.keyBytes.length := by
        simp only [Frame.head, List.length_cons, List.length_append] at hlt
        omega
      have hkey : f.key.isSome = true := by
        by_contra hno
        rw [Frame.keyBytes, if_neg hno] at hx
        simp at hx
      rw [Frame.keyBytes, if_pos hkey, length_toBytes] at hx
      simp only
      rw [readMaskKey, if_pos hkey, if_pos hx]
      exact ⟨_, rfl, ⟨hb.state, hb.maskKey, hb.payload, hb.valid⟩⟩

/-! ### The payload -/

section
variable (f : Frame)

lemma settle_empty (h : f.payload = []) {pfrm : TWebSocketFrame} (hb : Blank pfrm) :
    settle { pfrm with
      firstByte_ := f.firstByte, maskKey_ := f.keyVal, payloadLength_ := f.payload.length } =
      complete f := by
  unfold settle complete done
  rw [h, hb.payload, hb.valid]
  rfl

lemma settle_nonempty (h : f.payload ≠ []) (hlt : f.payload.length < 2 ^ 31)
    {pfrm : TWebSocketFrame} (hb : Blank pfrm) :
    settle { pfrm with
      firstByte_ := f.firstByte, maskKey_ := f.keyVal, payloadLength_ := f.payload.length } =
      partly f 0 := by
  have h0 : f.payload.length ≠ 0 := by simpa using h
  unfold settle partly
  rw [hb.payload, hb.valid]
  simp only
  rw [if_neg h0, if_neg (by omega)]
  simp

lemma unmask_eq (key i : ℕ) (p : QByteArray) :
    (if key ≠ 0 then mask key i (mask key i p) else mask key i p) = p := by
  by_cases hk : key = 0
  · rw [if_neg (not_not_intro hk), hk, mask_zero]
  · rw [if_pos hk, mask_mask]

lemma readFrame_partly {n m : ℕ} (hm : 0 < m) (hnm : n + m ≤ f.payload.length)
    {t : QByteArray} (ht : n + m = f.payload.length ∨ t = []) :
    readFrame (partly f n) (mask f.keyVal n ((f.payload.drop n).take m) ++ t) =
      .next (if n + m = f.payload.length then complete f else partly f (n + m)) t := by
  have hlen : ((f.payload.drop n).take m).length = m := by
    rw [List.length_take, List.length_drop]; omega
  have hsize : min (f.payload.length - (f.payload.take n).length)
      (mask f.keyVal n ((f.payload.drop n).take m) ++ t).length = m := by
    rw [List.length_append, length_mask, hlen, List.length_take]
    rcases ht with h | h
    · omega
    · rw [h, List.length_nil]; omega
  have hread : readFrame (partly f n) (mask f.keyVal n ((f.payload.drop n).take m) ++ t) =
      readPayload (partly f n) (mask f.keyVal n ((f.payload.drop n).take m) ++ t) := by
    unfold readFrame partly
    by_cases h0 : n = 0 <;> simp [h0]
  have hpos : (f.payload.take n).length = n := by rw [List.length_take]; omega
  have hsplit : f.payload.take n ++ (f.payload.drop n).take m = f.payload.take (n + m) :=
    (List.take_add ..).symm
  have hnext : (f.payload.take (n + m)).length = n + m := by rw [List.length_take]; omega
  rw [hread, readPayload]
  unfold partly
  simp only [hsize, if_neg (Nat.ne_of_gt hm)]
  rw [List.take_left' (by rw [length_mask, hlen]), List.drop_left' (by rw [length_mask, hlen]),
    hpos, unmask_eq, hsplit, hnext]
  by_cases hend : n + m = f.payload.length
  · rw [if_pos hend, if_pos hend, hend, List.take_length]
    rfl
  · rw [if_neg hend, if_neg hend, if_neg (by omega)]

end

/-! ### The loop on one frame -/

section
variable {f : Frame} {frames : List TWebSocketFrame}

/-- **A frame whose last byte has arrived** is put in its place, unless it is misplaced, and
the loop goes on with the bytes behind it. -/
def goOn (fuel : ℕ) (frames : List TWebSocketFrame) (f : Frame) (t : QByteArray) : Outcome :=
  if isMisplaced frames (done f) then parseLoop fuel frames {} t
  else if t ≠ [] then parseLoop fuel (place frames (done f)) {} t
  else .parsed (place frames (done f)) t

lemma parseLoop_next_complete {fuel : ℕ} {pfrm : TWebSocketFrame} {data t : QByteArray}
    (hd : data ≠ []) (h : readFrame pfrm data = .next (complete f) t) :
    parseLoop (fuel + 1) frames pfrm data = goOn fuel frames f t := by
  have hs : ¬ (complete f).state_ ≠ .Completed := fun h => h rfl
  rw [parseLoop, if_neg hd, h]
  simp only [validate_complete, not_true_eq_false, if_false]
  rw [if_neg hs]
  rfl

lemma parseLoop_next_partly {fuel n : ℕ} {pfrm : TWebSocketFrame} {data t : QByteArray}
    (hd : data ≠ []) (h : readFrame pfrm data = .next (partly f n) t) :
    parseLoop (fuel + 1) frames pfrm data = parseLoop fuel frames (partly f n) t := by
  rw [parseLoop, if_neg hd, h]
  simp only
  rw [if_pos (partly_state f n)]

lemma parseLoop_partly {fuel n : ℕ} (hn : n < f.payload.length) (t : QByteArray) :
    parseLoop (fuel + 1) frames (partly f n) (mask f.keyVal n (f.payload.drop n) ++ t) =
      goOn fuel frames f t := by
  have hread := readFrame_partly f (n := n) (m := f.payload.length - n) (t := t) (by omega)
    (by omega) (Or.inl (by omega))
  have hall : (f.payload.drop n).take (f.payload.length - n) = f.payload.drop n :=
    List.take_of_length_le (by rw [List.length_drop])
  rw [hall, if_pos (by omega)] at hread
  refine parseLoop_next_complete (fun h => ?_) hread
  have := congrArg List.length h
  rw [List.length_append, length_mask, List.length_drop, List.length_nil] at this
  omega

lemma parseLoop_partly_more {fuel n m : ℕ} (hnm : n + m < f.payload.length) (hf : m < fuel) :
    parseLoop fuel frames (partly f n) (mask f.keyVal n ((f.payload.drop n).take m)) =
      .parsed (frames ++ [partly f (n + m)]) [] := by
  obtain ⟨fuel, rfl⟩ := Nat.exists_eq_succ_of_ne_zero (Nat.ne_of_gt (Nat.zero_lt_of_lt hf))
  rcases Nat.eq_zero_or_pos m with rfl | hm
  · simp [parseLoop]
  · have hread := readFrame_partly f (n := n) (t := []) hm (by omega) (Or.inr rfl)
    rw [List.append_nil, if_neg (by omega)] at hread
    have hne : mask f.keyVal n ((f.payload.drop n).take m) ≠ [] := fun h => by
      have := congrArg List.length h
      rw [length_mask, List.length_take, List.length_drop, List.length_nil] at this
      omega
    rw [parseLoop_next_partly hne hread]
    obtain ⟨fuel, rfl⟩ := Nat.exists_eq_succ_of_ne_zero (show fuel ≠ 0 by omega)
    rw [parseLoop, if_pos rfl]

lemma parseLoop_head {fuel : ℕ} (hlt : f.payload.length < 2 ^ 31) {pfrm : TWebSocketFrame}
    (hb : Blank pfrm) (t : QByteArray) :
    parseLoop (fuel + 1) frames pfrm (f.head ++ t) =
      if f.payload = [] then goOn fuel frames f t else parseLoop fuel frames (partly f 0) t := by
  have hlen := f.head_length_le
  have hd : f.head ++ t ≠ [] := by simp [Frame.head]
  have hpeek : (f.head ++ t).take 14 = f.head ++ t.take (14 - f.head.length) := by
    rw [List.take_append, List.take_of_length_le hlen.2]
  have hskip : (f.head ++ t).drop ((f.head ++ t.take (14 - f.head.length)).length -
      (t.take (14 - f.head.length)).length) = t := by
    rw [List.length_append, Nat.add_sub_cancel, List.drop_left]
  have hread : readFrame pfrm (f.head ++ t) = .next (settle { pfrm with
      firstByte_ := f.firstByte, maskKey_ := f.keyVal, payloadLength_ := f.payload.length }) t := by
    unfold readFrame
    simp only [hb.state, hpeek, readHeader_done f (by omega) hb.maskKey, hskip]
  by_cases h : f.payload = []
  · rw [if_pos h]
    rw [settle_empty f h hb] at hread
    exact parseLoop_next_complete hd hread
  · rw [if_neg h]
    rw [settle_nonempty f h hlt hb] at hread
    exact parseLoop_next_partly hd hread

/-- **The bytes that complete a frame**: the frame is put in its place. -/
lemma parseLoop_complete (frames : List TWebSocketFrame) {fuel : ℕ} {u r d t : QByteArray}
    {pfrm : TWebSocketFrame}
    (hlt : f.payload.length < 2 ^ 31) (h : Rests f u pfrm r) (hd : u ++ d = f.bytes ++ t)
    (hf : (r ++ d).length < fuel) :
    ∃ fuel', t.length < fuel' ∧ parseLoop fuel frames pfrm (r ++ d) = goOn fuel' frames f t := by
  obtain ⟨fuel, rfl⟩ := Nat.exists_eq_succ_of_ne_zero (Nat.ne_of_gt (Nat.zero_lt_of_lt hf))
  have hlen := f.head_length_le
  rcases h with ⟨-, -, hb⟩ | ⟨n, rfl, hn⟩
  · rw [hd, Frame.bytes, List.append_assoc] at hf ⊢
    rw [List.length_append, List.length_append, length_mask] at hf
    rw [parseLoop_head hlt hb]
    by_cases h : f.payload = []
    · refine ⟨fuel, by omega, ?_⟩
      rw [if_pos h, h, mask_nil, List.nil_append]
    · obtain ⟨fuel, rfl⟩ := Nat.exists_eq_succ_of_ne_zero (show fuel ≠ 0 by omega)
      have h0 := List.length_pos_iff.mpr h
      have hrest : parseLoop (fuel + 1) frames (partly f 0)
          (mask f.keyVal 0 (f.payload.drop 0) ++ t) = goOn fuel frames f t :=
        parseLoop_partly h0 t
      refine ⟨fuel, by omega, ?_⟩
      rw [if_neg h]
      exact hrest
  · -- the bytes still missing from the payload
    have hmissing : d = mask f.keyVal n (f.payload.drop n) ++ t := by
      have hsplit : mask f.keyVal 0 f.payload =
          mask f.keyVal 0 (f.payload.take n) ++ mask f.keyVal n (f.payload.drop n) := by
        have := mask_append f.keyVal 0 (f.payload.take n) (f.payload.drop n)
        rw [List.take_append_drop, List.length_take, Nat.zero_add,
          Nat.min_eq_left (by omega)] at this
        exact this
      rw [Frame.bytes, hsplit] at hd
      simp only [List.append_assoc] at hd
      exact List.append_cancel_left (List.append_cancel_left hd)
    rw [List.nil_append, hmissing] at hf ⊢
    rw [List.length_append, length_mask, List.length_drop] at hf
    exact ⟨fuel, by omega, parseLoop_partly hn t⟩

/-- **The bytes that do not complete a frame**: they are kept, or read into it. -/
lemma parseLoop_incomplete (frames : List TWebSocketFrame) {fuel : ℕ} {u r d : QByteArray}
    {pfrm : TWebSocketFrame}
    (hlt : f.payload.length < 2 ^ 31) (h : Rests f u pfrm r) (hd : u ++ d <+: f.bytes)
    (hshort : (u ++ d).length < f.bytes.length) (hf : (r ++ d).length < fuel) :
    ∃ pfrm' r', parseLoop fuel frames pfrm (r ++ d) = .parsed (frames ++ [pfrm']) r' ∧
      Rests f (u ++ d) pfrm' r' := by
  obtain ⟨fuel, rfl⟩ := Nat.exists_eq_succ_of_ne_zero (Nat.ne_of_gt (Nat.zero_lt_of_lt hf))
  rw [Frame.bytes_length] at hshort
  have hlen := f.head_length_le
  rcases h with ⟨hu, hul, hb⟩ | ⟨n, rfl, hn⟩
  · rcases Nat.lt_or_ge (u ++ d).length f.head.length with hhead | hhead
    · have hpre : u ++ d <+: f.head := List.prefix_of_prefix_length_le hd
        (List.prefix_append _ _) (by omega)
      by_cases hnil : u ++ d = []
      · exact ⟨pfrm, u ++ d, by rw [parseLoop, if_pos hnil, hnil], .head hpre hhead hb⟩
      obtain ⟨pfrm', hread, hb'⟩ := readHeader_more f (by omega) hpre hhead hb
      refine ⟨pfrm', u ++ d, ?_, .head hpre hhead hb'⟩
      have hpeek : (u ++ d).take 14 = u ++ d := List.take_of_length_le (by omega)
      rw [parseLoop, if_neg hnil, readFrame]
      simp only [hb.state, hpeek, hread]
    · -- the header and a part of the payload
      obtain ⟨v, hv⟩ := List.prefix_of_prefix_length_le (List.prefix_append _ _) hd hhead
      rw [← hv] at hd hshort hf ⊢
      rw [List.length_append] at hshort hf
      have hv' : v <+: mask f.keyVal 0 f.payload := (List.prefix_append_right_inj _).mp hd
      have hvm : v = mask f.keyVal 0 ((f.payload.drop 0).take v.length) := by
        rw [List.drop_zero, ← take_mask]
        exact List.prefix_iff_eq_take.mp hv'
      have hne : f.payload ≠ [] := fun h => by rw [h, List.length_nil] at hshort; omega
      have hmore : parseLoop fuel frames (partly f 0)
          (mask f.keyVal 0 ((f.payload.drop 0).take v.length)) =
            .parsed (frames ++ [partly f (0 + v.length)]) [] :=
        parseLoop_partly_more (by omega) (by omega)
      rw [← hvm, Nat.zero_add] at hmore
      refine ⟨partly f v.length, [], ?_, .payload v.length ?_ (by omega)⟩
      · rw [parseLoop_head hlt hb, if_neg hne, hmore]
      · rw [List.drop_zero] at hvm
        rw [← hvm]
  · rw [List.length_append, List.length_append, length_mask, List.length_take] at hshort
    have hd' : mask f.keyVal 0 (f.payload.take n) ++ d <+: mask f.keyVal 0 f.payload := by
      rw [Frame.bytes, List.append_assoc] at hd
      exact (List.prefix_append_right_inj _).mp hd
    have hall : mask f.keyVal 0 (f.payload.take n) ++ d =
        mask f.keyVal 0 (f.payload.take (n + d.length)) := by
      have := List.prefix_iff_eq_take.mp hd'
      rw [List.length_append, length_mask, List.length_take, Nat.min_eq_left (by omega),
        take_mask] at this
      exact this
    have hpiece : d = mask f.keyVal n ((f.payload.drop n).take d.length) := by
      rw [List.take_add, mask_append, List.length_take, Nat.zero_add,
        Nat.min_eq_left (by omega)] at hall
      exact List.append_cancel_left hall
    rw [List.nil_append] at hf ⊢
    have hmore : parseLoop (fuel + 1) frames (partly f n)
        (mask f.keyVal n ((f.payload.drop n).take d.length)) =
          .parsed (frames ++ [partly f (n + d.length)]) [] :=
      parseLoop_partly_more (by omega) (by omega)
    rw [← hpiece] at hmore
    refine ⟨partly f (n + d.length), [], hmore, .payload (n + d.length) ?_ (by omega)⟩
    rw [List.append_assoc, hall]

end

end TreeFrog.WebSocketParse
