import TreeFrog.Pipeline

/-!
Receiving a request in the thread server.

Small bodies are kept in a buffer. A large one, and a multipart one, goes to a temporary
file: the buffer then keeps the header and the first part of the body, the file the body.
-/

namespace TreeFrog.ThreadSocket

open TreeFrog.Bytes TreeFrog.Search TreeFrog.MessageHeader TreeFrog.RequestHeader
open TreeFrog.Generate TreeFrog.Wire TreeFrog.Pipeline

def READ_THRESHOLD_LENGTH : ℕ := 2 * 1024 * 1024

/-- A temporary file. It is empty whenever it is opened, so that writing is appending. -/
structure TTemporaryFile where
  isOpen : Bool := false
  content : QByteArray := []
  deriving DecidableEq

structure THttpSocket where
  lengthToRead : ℤ := -1
  readBuffer : QByteArray := []
  fileBuffer : TTemporaryFile := {}
  deriving DecidableEq

def isMultipart (header : THttpRequestHeader) : Bool :=
  (ascii "multipart/form-data").isPrefixOf (trimmed header.contentType)

/-- The body goes to the file. -/
def spills (header : THttpRequestHeader) : Bool :=
  isMultipart header || READ_THRESHOLD_LENGTH < header.contentLength

namespace THttpSocket

def canReadRequest (s : THttpSocket) : Bool := s.lengthToRead = 0

/-- One turn of the loop of `readRequest`, with the bytes that were available. Opening and
writing the file is taken to succeed. -/
def readRequest (limitBodyBytes : ℕ) (s : THttpSocket) (buf : QByteArray) :
    Except ClientErrorException THttpSocket :=
  if 0 < s.lengthToRead then
    let lengthToRead : ℤ := max (s.lengthToRead - buf.length) 0
    if s.fileBuffer.isOpen then
      .ok { s with
        lengthToRead, fileBuffer := { s.fileBuffer with content := s.fileBuffer.content ++ buf } }
    else .ok { s with lengthToRead, readBuffer := s.readBuffer ++ buf }
  else if s.lengthToRead < 0 then
    let s := { s with readBuffer := s.readBuffer ++ buf }
    match indexOf s.readBuffer CRLFCRLF 0 with
    | none => .ok s
    | some idx =>
      if 0 < idx then
        let header := THttpRequestHeader.ofBytes s.readBuffer
        if 0 < limitBodyBytes ∧ limitBodyBytes < header.contentLength then .error ⟨413⟩
        else
          let lengthToRead : ℤ :=
            max (idx + 4 + header.contentLength - s.readBuffer.length) 0
          if spills header then
            .ok { s with
              lengthToRead
              fileBuffer := ⟨true, s.fileBuffer.content ++ s.readBuffer.drop (idx + 4)⟩ }
          else .ok { s with lengthToRead }
      else .ok s
  else
    -- a request is waiting to be read: the bytes are dropped
    .ok s

/-- The requests that have been received, and the socket made ready for the next ones. The
file is cut to nothing when its request has been built. -/
def read {QHostAddress : Type} (fuel : ℕ) (s : THttpSocket) (address : QHostAddress) :
    Option (List (THttpRequest QHostAddress) × THttpSocket) :=
  if s.canReadRequest then
    if s.fileBuffer.isOpen then
      some ([.ofFile s.readBuffer s.fileBuffer.content address], {})
    else
      (generate fuel s.readBuffer address).map fun reqList =>
        (reqList, { s with lengthToRead := -1, readBuffer := [] })
  else some ([], s)

end THttpSocket

/-! ### What one piece does -/

section
variable {limit : ℕ} {r : Request}

/-- The socket holds the part `b` of a text that begins with the request `r`. -/
inductive Holds (r : Request) (b : QByteArray) : THttpSocket → Prop
  | short (h : b.length < r.head.length) : Holds r b { readBuffer := b }
  | memory (h : r.head.length ≤ b.length) (hs : spills r.header = false) :
      Holds r b { readBuffer := b, lengthToRead := max (r.bytes.length - b.length) 0 }
  /-- The buffer has kept what came up to the piece that completed the header. -/
  | file (u : QByteArray) (h : r.head.length ≤ b.length) (hs : spills r.header = true) :
      Holds r b
        { readBuffer := r.head ++ u, lengthToRead := max (r.bytes.length - b.length) 0
          fileBuffer := ⟨true, b.drop r.head.length⟩ }

lemma Holds.nil (r : Request) : Holds r [] {} :=
  .short (by have := head_length_pos r; simp; omega)

lemma Holds.canReadRequest {b : QByteArray} {s : THttpSocket} (h : Holds r b s) :
    s.canReadRequest = decide (r.bytes.length ≤ b.length) := by
  have := head_length_le r
  unfold THttpSocket.canReadRequest
  rcases h with h | ⟨h, -⟩ | ⟨-, h, -⟩ <;> simp only [decide_eq_decide] <;> omega

lemma readRequest_head (hf : r.fields ≠ []) (hlimit : limit = 0 ∨ r.body.length ≤ limit)
    {b c u : QByteArray} (hu : b ++ c = r.head ++ u) :
    ∃ s', ({ readBuffer := b } : THttpSocket).readRequest limit c = .ok s' ∧
      Holds r (b ++ c) s' := by
  have hpos := head_length_pos r
  have hleft : (((r.head.length - 4 : ℕ) : ℤ) + 4 + r.body.length - (r.head ++ u).length) =
      (r.bytes.length : ℤ) - (r.head ++ u).length := by
    rw [Request.bytes, List.length_append, List.length_append]; push_cast; omega
  have hdrop : r.head.length - 4 + 4 = r.head.length := by omega
  unfold THttpSocket.readRequest
  rw [if_neg (show ¬ (0 : ℤ) < -1 by decide), if_pos (show (-1 : ℤ) < 0 by decide)]
  simp only [hu, indexOf_zero, search_head, ofBytes_head r u (Or.inl hf),
    Request.header_contentLength, hleft, hdrop, List.nil_append]
  rw [if_pos (by omega), if_neg (by omega)]
  have hle : r.head.length ≤ (r.head ++ u).length := by simp
  cases hs : spills r.header with
  | false => exact ⟨_, rfl, .memory hle hs⟩
  | true => exact ⟨_, rfl, .file u hle hs⟩

/-- **One piece of a request**: what was held is extended by it. -/
lemma Holds.readRequest (hf : r.fields ≠ []) (hlimit : limit = 0 ∨ r.body.length ≤ limit)
    {b c t : QByteArray} {s : THttpSocket} (h : Holds r b s) (hlt : b.length < r.bytes.length)
    (hpre : b ++ c <+: r.head ++ t) :
    ∃ s', s.readRequest limit c = .ok s' ∧ Holds r (b ++ c) s' := by
  have hleft : max (max ((r.bytes.length : ℤ) - b.length) 0 - c.length) 0 =
      max ((r.bytes.length : ℤ) - (b ++ c).length) 0 := by
    rw [List.length_append]; push_cast; omega
  rcases h with h | ⟨h, hs⟩ | ⟨u, h, hs⟩
  · rcases Nat.lt_or_ge (b ++ c).length r.head.length with hshort | hlong
    · refine ⟨{ readBuffer := b ++ c }, ?_, .short hshort⟩
      unfold THttpSocket.readRequest
      rw [if_neg (show ¬ (0 : ℤ) < -1 by decide), if_pos (show (-1 : ℤ) < 0 by decide)]
      simp only [indexOf_zero, search_short hpre hshort]
    · obtain ⟨u, hu, -⟩ := eq_head_append hpre hlong
      exact readRequest_head hf hlimit hu
  · refine ⟨_, ?_, .memory (by rw [List.length_append]; omega) hs⟩
    unfold THttpSocket.readRequest
    rw [if_pos (show (0 : ℤ) < max ((r.bytes.length : ℤ) - b.length) 0 by omega)]
    simp only [hleft]
    rfl
  · refine ⟨_, ?_, .file u (by rw [List.length_append]; omega) hs⟩
    unfold THttpSocket.readRequest
    rw [if_pos (show (0 : ℤ) < max ((r.bytes.length : ℤ) - b.length) 0 by omega)]
    simp only [hleft, if_true]
    rw [List.drop_append_of_le_length h]

end

end TreeFrog.ThreadSocket
