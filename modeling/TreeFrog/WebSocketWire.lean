import TreeFrog.WebSocketFrame

/-!
WebSocket frames as a peer sends them, and the messages they carry.

A `Frame` can only be built when its operation is defined and when, being a control frame, it
is short and not fragmented. The length of the payload is written in the shortest of its
three forms.
-/

namespace TreeFrog.WebSocketWire

open TreeFrog.Bytes TreeFrog.BigEndian TreeFrog.WebSocketFrame

/-- The operations of data frames and of control frames. -/
def isDefined (o : OpCode) : Prop :=
  o = .Continuation ∨ o = .TextFrame ∨ o = .BinaryFrame ∨ o = .Close ∨ o = .Ping ∨ o = .Pong

instance (o : OpCode) : Decidable (isDefined o) := by unfold isDefined; infer_instance

structure Frame where
  fin : Bool
  opcode : OpCode
  /-- The mask key; `none` for a frame that is not masked. -/
  key : Option UInt32
  payload : QByteArray
  opcode_defined : isDefined opcode
  control_short : opcode.isControl = true → fin = true ∧ payload.length ≤ 125
  deriving DecidableEq

/-- The seven bits of the length, or `126` and `127` for the longer forms. -/
def shortLength (n : ℕ) : ℕ := if n ≤ 125 then n else if n ≤ 0xFFFF then 126 else 127

def extendedLength (n : ℕ) : QByteArray :=
  if n ≤ 125 then [] else if n ≤ 0xFFFF then toBytes 2 n else toBytes 8 n

namespace Frame

def isControl (f : Frame) : Bool := f.opcode.isControl

/-- The key as the parser keeps it. -/
def keyVal (f : Frame) : ℕ := (f.key.map UInt32.toNat).getD 0

def firstByte (f : Frame) : UInt8 := (if f.fin then 0x80 else 0) ||| UInt8.ofNat f.opcode.code

def secondByte (f : Frame) : UInt8 :=
  (if f.key.isSome then 0x80 else 0) ||| UInt8.ofNat (shortLength f.payload.length)

def keyBytes (f : Frame) : QByteArray := if f.key.isSome then toBytes 4 f.keyVal else []

/-- The header of the frame. -/
def head (f : Frame) : QByteArray :=
  f.firstByte :: f.secondByte :: (extendedLength f.payload.length ++ f.keyBytes)

def bytes (f : Frame) : QByteArray := f.head ++ mask f.keyVal 0 f.payload

lemma head_length_le (f : Frame) : 2 ≤ f.head.length ∧ f.head.length ≤ 14 := by
  have h1 : (extendedLength f.payload.length).length ≤ 8 := by
    unfold extendedLength; split_ifs <;> simp
  have h2 : f.keyBytes.length ≤ 4 := by unfold keyBytes; split_ifs <;> simp
  unfold head
  rw [List.length_cons, List.length_cons, List.length_append]
  omega

lemma bytes_length (f : Frame) : f.bytes.length = f.head.length + f.payload.length := by
  rw [bytes, List.length_append, length_mask]

lemma bytes_length_pos (f : Frame) : 0 < f.bytes.length := by
  have := f.head_length_le
  rw [bytes_length]
  omega

end Frame

/-! ### Messages -/

/-- What is handed over: an operation and a payload. -/
abbrev Message := OpCode × QByteArray

/-- Frames that one peer may send, with a message in progress or not. -/
def Valid : Bool → List Frame → Prop
  | _, [] => True
  | inProgress, f :: fs =>
    if f.isControl then Valid inProgress fs
    else (f.opcode = .Continuation ↔ inProgress = true) ∧ Valid (!f.fin) fs

instance decidableValid : (b : Bool) → (fs : List Frame) → Decidable (Valid b fs)
  | _, [] => .isTrue trivial
  | b, f :: fs =>
    have := decidableValid b fs
    have := decidableValid (!f.fin) fs
    by unfold Valid; infer_instance

/-- The message made of fragments: the operation of the first, and all the payloads. -/
def messageOf (fs : List Frame) : Message :=
  ((fs.head?.map Frame.opcode).getD .Continuation, fs.flatMap Frame.payload)

/-- The messages completed so far, and the fragments of the one in progress. -/
structure Assembly where
  messages : List Message := []
  fragments : List Frame := []

/-- What a frame adds: control frames are not part of messages. -/
def Assembly.add (s : Assembly) (f : Frame) : Assembly :=
  if f.isControl then s
  else if f.fin then ⟨s.messages ++ [messageOf (s.fragments ++ [f])], []⟩
  else { s with fragments := s.fragments ++ [f] }

/-- The messages of a sequence of frames. -/
def assemble (fs : List Frame) : Assembly := fs.foldl Assembly.add {}

/-- The control frames of a sequence of frames. -/
def controls (fs : List Frame) : List Message :=
  (fs.filter Frame.isControl).map fun f => (f.opcode, f.payload)

lemma controls_append (fs gs : List Frame) : controls (fs ++ gs) = controls fs ++ controls gs := by
  simp [controls]

/-- The bytes of a sequence of frames. -/
def stream (fs : List Frame) : QByteArray := fs.flatMap Frame.bytes

@[simp] lemma stream_nil : stream [] = [] := rfl
@[simp] lemma stream_cons (f : Frame) (fs : List Frame) :
    stream (f :: fs) = f.bytes ++ stream fs := by
  simp [stream]

end TreeFrog.WebSocketWire
