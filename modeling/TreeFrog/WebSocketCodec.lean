import TreeFrog.WebSocketParse

/-!
The frames that the server writes, read by its own parser. The writer announces a mask key but
leaves the payload as it is.
-/

namespace TreeFrog.WebSocketCodec

open TreeFrog.Bytes TreeFrog.BigEndian TreeFrog.WebSocketFrame TreeFrog.WebSocketWire
open TreeFrog.WebSocketParse

def toByteArray (f : TWebSocketFrame) : QByteArray :=
  let plen := f.payload_.length
  let first := f.firstByte_ ||| 0x80
  let first := if f.opCode = .Continuation then first ||| 0x1 else first
  let maskBit : UInt8 := if f.maskKey_ ≠ 0 then 0x80 else 0
  let length :=
    if plen ≤ 125 then [maskBit ||| UInt8.ofNat plen]
    else if plen ≤ 0xFFFF then (maskBit ||| 126) :: toBytes 2 plen
    else (maskBit ||| 127) :: toBytes 8 plen
  first :: (length ++ (if f.maskKey_ ≠ 0 then toBytes 4 f.maskKey_ else []) ++ f.payload_)

/-- A frame that may be sent in one piece. -/
structure Sendable (f : TWebSocketFrame) : Prop where
  fin : f.finBit = true
  rsv1 : f.rsv1Bit = false
  rsv2 : f.rsv2Bit = false
  rsv3 : f.rsv3Bit = false
  opcode : isDefined f.opCode
  first : f.opCode ≠ .Continuation
  short : f.isControlFrame = true → f.payload_.length ≤ 125
  small : f.payload_.length < 2 ^ 31
  maskKey : f.maskKey_ < 2 ^ 32

variable {f : TWebSocketFrame}

/-- The frame that these bytes are for a reader: the payload is taken for a masked one. -/
def Sendable.frame (h : Sendable f) : Frame where
  fin := true
  opcode := f.opCode
  key := if f.maskKey_ = 0 then none else some (UInt32.ofNat f.maskKey_)
  payload := mask f.maskKey_ 0 f.payload_
  opcode_defined := h.opcode
  control_short hc := ⟨rfl, by rw [length_mask]; exact h.short hc⟩

lemma firstByte_eq (b : UInt8) (hfin : b &&& 0x80 ≠ 0) (h1 : b &&& 0x40 = 0)
    (h2 : b &&& 0x20 = 0) (h3 : b &&& 0x10 = 0) :
    b ||| 0x80 = 0x80 ||| UInt8.ofNat (OpCode.ofCode (b &&& 0xF).toNat).code := by
  have hall : ∀ n : Fin 256, UInt8.ofNat n &&& 0x80 ≠ 0 → UInt8.ofNat n &&& 0x40 = 0 →
      UInt8.ofNat n &&& 0x20 = 0 → UInt8.ofNat n &&& 0x10 = 0 → UInt8.ofNat n ||| 0x80 =
        0x80 ||| UInt8.ofNat (OpCode.ofCode (UInt8.ofNat n &&& 0xF).toNat).code := by
    decide +kernel
  have hb := hall ⟨b.toNat, b.toNat_lt⟩
  rw [UInt8.ofNat_toNat] at hb
  exact hb hfin h1 h2 h3

lemma Sendable.keyVal (h : Sendable f) : h.frame.keyVal = f.maskKey_ := by
  unfold Frame.keyVal Sendable.frame
  dsimp only
  split_ifs with hkey
  · exact hkey.symm
  · exact UInt32.toNat_ofNat_of_lt' h.maskKey

lemma Sendable.isSome_key (h : Sendable f) : h.frame.key.isSome = true ↔ f.maskKey_ ≠ 0 := by
  unfold Sendable.frame
  dsimp only
  split_ifs with hkey
  · simp [hkey]
  · simp [hkey]

lemma Sendable.secondByte (h : Sendable f) : h.frame.secondByte =
    (if f.maskKey_ ≠ 0 then 0x80 else 0) ||| UInt8.ofNat (shortLength f.payload_.length) := by
  have hlen : h.frame.payload.length = f.payload_.length := length_mask _ _ _
  rw [Frame.secondByte, hlen]
  exact congrArg (· ||| _) (if_congr h.isSome_key rfl rfl)

lemma Sendable.keyBytes (h : Sendable f) :
    h.frame.keyBytes = if f.maskKey_ ≠ 0 then toBytes 4 f.maskKey_ else [] := by
  rw [Frame.keyBytes, h.keyVal]
  exact if_congr h.isSome_key rfl rfl

/-- **The bytes that are written** are those of a frame whose masked payload they hold. -/
lemma Sendable.toByteArray_eq (h : Sendable f) : toByteArray f = h.frame.bytes := by
  have hfirst : h.frame.firstByte = f.firstByte_ ||| 0x80 :=
    (firstByte_eq f.firstByte_ (of_decide_eq_true h.fin)
      (not_not.mp (of_decide_eq_false h.rsv1)) (not_not.mp (of_decide_eq_false h.rsv2))
      (not_not.mp (of_decide_eq_false h.rsv3))).symm
  have hpayload : mask f.maskKey_ 0 h.frame.payload = f.payload_ := mask_mask _ _ _
  have hlen : h.frame.payload.length = f.payload_.length := length_mask _ _ _
  unfold toByteArray
  dsimp only
  rw [Frame.bytes, Frame.head, h.keyVal, hpayload, h.secondByte, h.keyBytes, hfirst, hlen,
    if_neg h.first, shortLength, extendedLength]
  split_ifs <;> simp

lemma Sendable.parse_toByteArray (h : Sendable f) :
    parse [] (toByteArray f) = .parsed [done h.frame] [] := by
  have hsmall : h.frame.payload.length < 2 ^ 31 := by
    have hlen : h.frame.payload.length = f.payload_.length := length_mask _ _ _
    rw [hlen]
    exact h.small
  have hplaced : isMisplaced [] (done h.frame) = false := by
    have hop : (done h.frame).opCode = f.opCode := done_opCode _
    rw [isMisplaced, hop, decide_eq_false h.first, Bool.false_and]
  obtain ⟨fuel, -, hloop⟩ := parseLoop_complete [] (d := h.frame.bytes) (t := []) hsmall
    (Rests.nil h.frame) (List.append_nil _).symm (Nat.lt_succ_self _)
  rw [h.toByteArray_eq, parse]
  change parseLoop _ [] {} ([] ++ h.frame.bytes) = _
  rw [List.nil_append] at hloop ⊢
  rw [hloop, goOn, hplaced, if_neg Bool.false_ne_true, if_neg (not_not_intro rfl)]
  unfold place
  split_ifs <;> rfl

/-! ### Payloads that a mask leaves alone -/

lemma mask_eq_self {key i : ℕ} {p : QByteArray} :
    mask key i p = p ↔ ∀ j < p.length, maskByte key (i + j) = 0 := by
  induction p generalizing i with
  | nil => simp
  | cons b p ih =>
    have hxor : b ^^^ maskByte key i = b ↔ maskByte key i = 0 := by
      refine ⟨fun h => ?_, fun h => by rw [h, UInt8.xor_zero]⟩
      calc maskByte key i = b ^^^ (b ^^^ maskByte key i) := by
            rw [← UInt8.xor_assoc, UInt8.xor_self, UInt8.zero_xor]
        _ = 0 := by rw [h, UInt8.xor_self]
    rw [mask, List.cons.injEq, hxor, ih, List.length_cons, Nat.forall_lt_succ_left, Nat.add_zero]
    refine and_congr_right fun _ => forall₂_congr fun j _ => ?_
    rw [Nat.add_right_comm, Nat.add_assoc]

lemma maskByte_eq_zero (key i : ℕ) : maskByte key i = 0 ↔ key / 256 ^ (3 - i % 4) % 256 = 0 := by
  rw [maskByte, ← UInt8.toNat_inj, UInt8.toNat_ofNat']
  rfl

lemma first_bytes_zero {key n : ℕ} (hkey : key < 2 ^ 32) (hn : n ≤ 4) :
    (∀ j < n, key / 256 ^ (3 - j % 4) % 256 = 0) ↔ key < 256 ^ (4 - n) := by
  have hcases : n = 0 ∨ n = 1 ∨ n = 2 ∨ n = 3 ∨ n = 4 := by omega
  rcases hcases with rfl | rfl | rfl | rfl | rfl
  · simpa using hkey
  all_goals
    simp only [Nat.forall_lt_succ_left, Nat.not_lt_zero, IsEmpty.forall_iff, forall_const, and_true,
      Nat.zero_mod, Nat.reduceAdd, Nat.reduceMod, Nat.reduceSub, Nat.reducePow, Nat.pow_zero,
      Nat.div_one]
    omega

lemma mask_eq_self_iff {key : ℕ} (hkey : key < 2 ^ 32) (p : QByteArray) :
    mask key 0 p = p ↔ key < 256 ^ (4 - p.length) := by
  simp only [mask_eq_self, Nat.zero_add, maskByte_eq_zero]
  rcases Nat.le_total p.length 4 with hle | hge
  · exact first_bytes_zero hkey hle
  · -- each byte of the key falls on the payload
    have hall : (∀ j < p.length, key / 256 ^ (3 - j % 4) % 256 = 0) ↔
        ∀ j < 4, key / 256 ^ (3 - j % 4) % 256 = 0 := by
      refine ⟨fun h j hj => h j (by omega), fun h j _ => ?_⟩
      have hj := h (j % 4) (Nat.mod_lt _ (by decide))
      rwa [Nat.mod_mod] at hj
    rw [hall, first_bytes_zero hkey le_rfl, Nat.sub_eq_zero_of_le hge]

/-- The frame comes back as it was written. -/
def RoundTrips (f : TWebSocketFrame) : Prop :=
  ∃ g, parse [] (toByteArray f) = .parsed [g] [] ∧ g.state_ = .Completed ∧ g.opCode = f.opCode ∧
    g.finBit = f.finBit ∧ g.payload_ = f.payload_

/-- **A frame comes back** exactly when the mask key does not touch its payload: there is none, or
so many of its first bytes are zero as the payload is long. -/
theorem codec_iff (h : Sendable f) :
    RoundTrips f ↔ f.maskKey_ < 256 ^ (4 - f.payload_.length) := by
  rw [← mask_eq_self_iff h.maskKey]
  constructor
  · rintro ⟨g, hparse, -, -, -, hpayload⟩
    rw [h.parse_toByteArray] at hparse
    obtain ⟨hframes, -⟩ := Outcome.parsed.inj hparse
    obtain ⟨rfl, -⟩ := List.cons.inj hframes
    exact hpayload
  · intro hmask
    refine ⟨done h.frame, h.parse_toByteArray, rfl, done_opCode _, ?_, hmask⟩
    rw [h.fin]
    exact done_isFinalFrame h.frame

/-- A text frame, without a mask. -/
def hello : TWebSocketFrame := { firstByte_ := 0x81, payload_ := ascii "hello" }

theorem codec_iff_hello : RoundTrips hello ↔ hello.maskKey_ < 256 ^ (4 - hello.payload_.length) :=
  codec_iff ⟨rfl, rfl, rfl, rfl, by decide, by decide, by decide, by decide, by decide⟩

/-- **A masked frame** does not come back. -/
theorem not_codec_masked :
    Sendable { hello with maskKey_ := 0x01020304 } ∧
      ¬ RoundTrips { hello with maskKey_ := 0x01020304 } := by
  have h : Sendable { hello with maskKey_ := 0x01020304 } :=
    ⟨rfl, rfl, rfl, rfl, by decide, by decide, by decide, by decide, by decide⟩
  refine ⟨h, ?_⟩
  rintro ⟨g, hparse, -, -, -, hpayload⟩
  rw [h.parse_toByteArray] at hparse
  obtain ⟨hframes, -⟩ := Outcome.parsed.inj hparse
  obtain ⟨rfl, -⟩ := List.cons.inj hframes
  have hmask : mask 0x01020304 0 (ascii "hello") = ascii "hello" := hpayload
  exact absurd hmask (by decide)

end TreeFrog.WebSocketCodec
