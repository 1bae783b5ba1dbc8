import TreeFrog.BigEndian
import TreeFrog.Bytes

/-!
The frame that the WebSocket parser fills in.
-/

namespace TreeFrog.WebSocketFrame

open TreeFrog.Bytes

inductive OpCode
  | Continuation | TextFrame | BinaryFrame | Reserve3 | Reserve4 | Reserve5 | Reserve6 | Reserve7
  | Close | Ping | Pong | ReserveB | ReserveC | ReserveD | ReserveE | ReserveF
  deriving DecidableEq

namespace OpCode

def all : List OpCode :=
  [Continuation, TextFrame, BinaryFrame, Reserve3, Reserve4, Reserve5, Reserve6, Reserve7,
    Close, Ping, Pong, ReserveB, ReserveC, ReserveD, ReserveE, ReserveF]

/-- The code of an operation, four bits. -/
def code (o : OpCode) : ℕ := all.idxOf o

def ofCode (n : ℕ) : OpCode := all.getD n ReserveF

/-- The codes with the fourth bit set are those of control frames. -/
def isControl (o : OpCode) : Bool := o.code &&& 8 ≠ 0

end OpCode

inductive ProcessingState
  | Empty | HeaderParsed | MoreData | Completed
  deriving DecidableEq

structure TWebSocketFrame where
  firstByte_ : UInt8 := 0x80
  maskKey_ : ℕ := 0
  payloadLength_ : ℕ := 0
  payload_ : QByteArray := []
  state_ : ProcessingState := .Empty
  valid_ : Bool := false
  deriving DecidableEq

namespace TWebSocketFrame

def finBit (f : TWebSocketFrame) : Bool := f.firstByte_ &&& 0x80 ≠ 0
def rsv1Bit (f : TWebSocketFrame) : Bool := f.firstByte_ &&& 0x40 ≠ 0
def rsv2Bit (f : TWebSocketFrame) : Bool := f.firstByte_ &&& 0x20 ≠ 0
def rsv3Bit (f : TWebSocketFrame) : Bool := f.firstByte_ &&& 0x10 ≠ 0
def isFinalFrame (f : TWebSocketFrame) : Bool := f.finBit
def opCode (f : TWebSocketFrame) : OpCode := .ofCode (f.firstByte_ &&& 0xF).toNat
def isControlFrame (f : TWebSocketFrame) : Bool := f.opCode.isControl

def clear (_ : TWebSocketFrame) : TWebSocketFrame := {}

/-- What `validate` finds: the reserved bits are clear, the operation is defined, and a control
frame is short and not fragmented. -/
def isSound (f : TWebSocketFrame) : Bool :=
  !f.rsv1Bit && !f.rsv2Bit && !f.rsv3Bit &&
    ((OpCode.Continuation.code ≤ f.opCode.code && f.opCode.code ≤ OpCode.BinaryFrame.code) ||
      (OpCode.Close.code ≤ f.opCode.code && f.opCode.code ≤ OpCode.Pong.code)) &&
    (!f.isControlFrame || (f.payloadLength_ ≤ 125 && f.finBit))

/-- The frame with its `valid_` set, and whether it is valid. -/
def validate (f : TWebSocketFrame) : Bool × TWebSocketFrame :=
  if f.state_ ≠ .Completed then (false, f) else (f.isSound, { f with valid_ := f.isSound })

end TWebSocketFrame

/-! ### Masking -/

/-- The byte of the mask for position `i` of the payload. -/
def maskByte (key i : ℕ) : UInt8 := UInt8.ofNat (key / 256 ^ (3 - i % 4))

/-- The masked bytes of a payload from position `i` on; masking again takes the mask off. -/
def mask (key : ℕ) : ℕ → QByteArray → QByteArray
  | _, [] => []
  | i, b :: bs => (b ^^^ maskByte key i) :: mask key (i + 1) bs

@[simp] lemma mask_nil (key i : ℕ) : mask key i [] = [] := rfl

@[simp] lemma length_mask (key i : ℕ) (bs : QByteArray) : (mask key i bs).length = bs.length := by
  induction bs generalizing i with
  | nil => rfl
  | cons b bs ih => simp [mask, ih]

lemma mask_append (key i : ℕ) (as bs : QByteArray) :
    mask key i (as ++ bs) = mask key i as ++ mask key (i + as.length) bs := by
  induction as generalizing i with
  | nil => simp
  | cons a as ih =>
    rw [List.cons_append, mask, mask, ih, List.cons_append, List.length_cons,
      show i + 1 + as.length = i + (as.length + 1) by omega]

/-- **Masking twice** gives the payload back. -/
theorem mask_mask (key i : ℕ) (bs : QByteArray) : mask key i (mask key i bs) = bs := by
  induction bs generalizing i with
  | nil => rfl
  | cons b bs ih => rw [mask, mask, ih, UInt8.xor_assoc, UInt8.xor_self, UInt8.xor_zero]

lemma mask_zero (i : ℕ) (bs : QByteArray) : mask 0 i bs = bs := by
  induction bs generalizing i with
  | nil => rfl
  | cons b bs ih =>
    have : maskByte 0 i = 0 := by simp [maskByte]
    rw [mask, ih, this, UInt8.xor_zero]

lemma take_mask (key i n : ℕ) (bs : QByteArray) :
    (mask key i bs).take n = mask key i (bs.take n) := by
  induction bs generalizing i n with
  | nil => simp
  | cons b bs ih =>
    cases n with
    | zero => rfl
    | succ n => simp [mask, ih]

end TreeFrog.WebSocketFrame
