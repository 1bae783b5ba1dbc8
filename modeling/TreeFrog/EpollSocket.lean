import TreeFrog.Pipeline

/-!
Receiving a request in the epoll server.

The socket appends what arrives to one buffer. When the header is complete it computes how
many bytes are missing, and from then on only counts them down.
-/

namespace TreeFrog.EpollSocket

open TreeFrog.Bytes TreeFrog.Search TreeFrog.MessageHeader TreeFrog.RequestHeader
open TreeFrog.Wire TreeFrog.Pipeline

structure TEpollHttpSocket where
  httpBuffer : QByteArray := []
  lengthToRead : ℤ := -1
  deriving DecidableEq

/-- What happens to the connection when the request asks for another protocol. -/
inductive Switch
  | switchToWebSocket (header : THttpRequestHeader)
  | disconnect
  | ignored
  deriving DecidableEq

/-- The value of the `Connection` field asks for an upgrade. -/
def isUpgrade (header : THttpRequestHeader) : Bool :=
  contains (toLower ((header.rawHeader (ascii "Connection")).getD [])) (ascii "upgrade")

namespace TEpollHttpSocket

def canReadRequest (s : TEpollHttpSocket) : Bool := s.lengthToRead = 0

def clear (_ : TEpollHttpSocket) : TEpollHttpSocket := {}

def readRequest (s : TEpollHttpSocket) : QByteArray × TEpollHttpSocket :=
  if s.canReadRequest then (s.httpBuffer, s.clear) else ([], s)

/-- The limit is on the declared length of the body. -/
def parse (limitBodyBytes : ℤ) (s : TEpollHttpSocket) :
    Except ClientErrorException TEpollHttpSocket :=
  if s.lengthToRead < 0 then
    match indexOf s.httpBuffer CRLFCRLF 0 with
    | none => .ok s
    | some idx =>
      if 0 < idx then
        let header := THttpRequestHeader.ofBytes s.httpBuffer
        if 0 < limitBodyBytes ∧ limitBodyBytes < header.contentLength then .error ⟨413⟩
        else
          .ok { s with
            lengthToRead := max (idx + 4 + header.contentLength - s.httpBuffer.length) 0 }
      else .ok s
  else .ok s

/-- The check for another protocol, made when the request is complete. -/
def checkUpgrade (searchEndpoint : THttpRequestHeader → Bool) (s : TEpollHttpSocket) :
    TEpollHttpSocket × Option Switch :=
  if s.lengthToRead = 0 then
    let header := THttpRequestHeader.ofBytes s.httpBuffer
    if isUpgrade header then
      if toLower ((header.rawHeader (ascii "Upgrade")).getD []) = ascii "websocket" then
        if searchEndpoint header then (s.clear, some (.switchToWebSocket header))
        else (s.clear, some .disconnect)
      else (s.clear, some .ignored)
    else (s, none)
  else (s, none)

/-- The bytes `pos` have been received behind the buffer. For a later piece the limit is on
the whole buffer. -/
def seekRecvBuffer (limitBodyBytes : ℤ) (searchEndpoint : THttpRequestHeader → Bool)
    (s : TEpollHttpSocket) (pos : QByteArray) :
    Except ClientErrorException (TEpollHttpSocket × Option Switch) :=
  if pos = [] then .ok (s, none)
  else
    let s := { s with httpBuffer := s.httpBuffer ++ pos }
    if s.lengthToRead < 0 then
      match s.parse limitBodyBytes with
      | .error e => .error e
      | .ok s => .ok (s.checkUpgrade searchEndpoint)
    else if 0 < limitBodyBytes ∧ limitBodyBytes < s.httpBuffer.length then .error ⟨413⟩
    else
      .ok ({ s with lengthToRead := max (s.lengthToRead - pos.length) 0 }.checkUpgrade
        searchEndpoint)

end TEpollHttpSocket

/-! ### What one piece does

The buffer is a beginning of the text of a request and what follows it. -/

section
variable (limit : ℤ) (ep : THttpRequestHeader → Bool) {r : Request} {t : QByteArray}

/-- The socket with the part `b` of a text that begins with the request `r`. -/
def holding (r : Request) (b : QByteArray) : TEpollHttpSocket where
  httpBuffer := b
  lengthToRead := if b.length < r.head.length then -1 else max (r.bytes.length - b.length : ℤ) 0

/-- **A piece that does not complete the header** is kept. -/
lemma seekRecvBuffer_short {b c : QByteArray} (hb : b ++ c <+: r.head ++ t)
    (hlt : (b ++ c).length < r.head.length) (hc : c ≠ []) :
    (holding r b).seekRecvBuffer limit ep c = .ok (holding r (b ++ c), none) := by
  have hlen : b.length < r.head.length := by rw [List.length_append] at hlt; omega
  have hs := search_short hb hlt
  unfold TEpollHttpSocket.seekRecvBuffer holding
  rw [if_neg hc]
  simp only [if_pos hlen, if_pos hlt]
  rw [if_pos (by decide), TEpollHttpSocket.parse, if_pos (show (-1 : ℤ) < 0 by decide)]
  simp only [indexOf_zero, hs]
  rfl

/-- **The piece that completes the header**: the declared length is held against the limit. -/
lemma seekRecvBuffer_head {b c u : QByteArray} (hb : b ++ c = r.head ++ u)
    (hu : r.fields ≠ [] ∨ u = []) (hlt : b.length < r.head.length) (hc : c ≠ []) :
    (holding r b).seekRecvBuffer limit ep c =
      if 0 < limit ∧ limit < r.body.length then .error ⟨413⟩
      else .ok ((holding r (b ++ c)).checkUpgrade ep) := by
  have hpos := head_length_pos r
  have hlen : ¬ (b ++ c).length < r.head.length := by rw [hb]; simp
  have hleft : ((r.head.length - 4 : ℕ) + 4 + r.body.length - (r.head ++ u).length : ℤ) =
      (r.bytes.length : ℤ) - (r.head ++ u).length := by
    rw [Request.bytes, List.length_append, List.length_append]; push_cast; omega
  unfold TEpollHttpSocket.seekRecvBuffer holding
  rw [if_neg hc]
  simp only [if_pos hlt, if_neg hlen]
  rw [if_pos (by decide), TEpollHttpSocket.parse, if_pos (show (-1 : ℤ) < 0 by decide)]
  simp only [hb, indexOf_zero, search_head, ofBytes_head r u hu, Request.header_contentLength]
  rw [if_pos (by omega), hleft]
  split_ifs <;> rfl

/-- **A later piece**: the whole buffer is held against the limit. -/
lemma seekRecvBuffer_more {b c : QByteArray} (hle : r.head.length ≤ b.length) (hc : c ≠ []) :
    (holding r b).seekRecvBuffer limit ep c =
      if 0 < limit ∧ limit < (b ++ c).length then .error ⟨413⟩
      else .ok ((holding r (b ++ c)).checkUpgrade ep) := by
  have h1 : ¬ b.length < r.head.length := by omega
  have h2 : ¬ (b ++ c).length < r.head.length := by rw [List.length_append]; omega
  have hleft : max (max ((r.bytes.length : ℤ) - b.length) 0 - c.length) 0 =
      max ((r.bytes.length : ℤ) - (b ++ c).length) 0 := by
    rw [List.length_append]; push_cast; omega
  unfold TEpollHttpSocket.seekRecvBuffer holding
  rw [if_neg hc]
  simp only [if_neg h1, if_neg h2, hleft]
  rw [if_neg (by omega)]

lemma checkUpgrade_incomplete {b : QByteArray} (h : b.length < r.bytes.length) :
    (holding r b).checkUpgrade ep = (holding r b, none) := by
  unfold TEpollHttpSocket.checkUpgrade
  have : (holding r b).lengthToRead ≠ 0 := by
    unfold holding; simp only; split_ifs <;> omega
  rw [if_neg this]

lemma holding_complete {b : QByteArray} (h : r.bytes.length ≤ b.length) :
    holding r b = ⟨b, 0⟩ := by
  have : r.head.length ≤ r.bytes.length := by rw [Request.bytes, List.length_append]; omega
  unfold holding
  rw [if_neg (by omega), Int.max_eq_right (by omega)]

lemma holding_nil : holding r [] = {} := by
  have := head_length_pos r
  unfold holding
  rw [if_pos (by simp; omega)]

lemma canReadRequest_holding {b : QByteArray} (h : b.length < r.bytes.length) :
    (holding r b).canReadRequest = false := by
  unfold TEpollHttpSocket.canReadRequest holding
  simp only [decide_eq_false_iff_not]
  split_ifs
  · decide
  · omega

end

end TreeFrog.EpollSocket
