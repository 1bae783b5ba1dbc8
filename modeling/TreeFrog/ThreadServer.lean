import TreeFrog.KeepAlive

/-!
One connection of the thread server: `TActionThread::run` and its socket. While the thread waits,
for a request or for bytes to be written, pieces of requests arrive; what has been written is sent
when the kernel takes it. What executing a request does with the socket is open.
-/

namespace TreeFrog.ThreadServer

open Bytes Wire Pipeline RequestHeader Generate ThreadSocket KeepAlive

variable {QHostAddress : Type}

/-! ### The connection -/

def WRITE_LENGTH : ℕ := 1408

def WRITE_BUFFER_LENGTH : ℕ := WRITE_LENGTH * 512

def SEND_BUF_SIZE : ℕ := 16 * 1024

/-- The body of a response. One in memory is written as a whole, another one as it is read. -/
structure QIODevice where
  opens : Bool
  isBuffer : Bool
  content : QByteArray
  deriving DecidableEq

/-- What executing a request does with the socket. -/
inductive Output where
  | write (header : QByteArray) (body : Option QIODevice)
  | closeHttpSocket
  deriving DecidableEq

/-- The bytes to be written. -/
def Output.bytes : Output → QByteArray
  | .write header none => header
  | .write header (some body) => if body.opens then header ++ body.content else []
  | .closeHttpSocket => []

structure Server (QHostAddress : Type) where
  limitBodyBytes : ℕ
  fuel : ℕ
  peerAddress : QHostAddress
  keepAliveTimeout : ℕ
  searchEndpoint : THttpRequestHeader → Bool

/-- Where the thread is. -/
inductive Pc where
  | readRequest
  | execute
  /-- In `writeRawData`, with what it has still to write of the header or of a piece of the body. -/
  | writeRawData (isHeader : Bool) (data : QByteArray)
  | waitForReadyRead
  | cleanup
  | deleted
  /-- An exception has left `run`. -/
  | thrown
  deriving DecidableEq

/-- The socket and the thread, and what has happened: the pieces that have arrived, the bytes sent,
and the requests that were executed with what that did. -/
structure Connection (QHostAddress : Type) where
  socket : THttpSocket := {}
  connected : Bool := true
  pc : Pc := .readRequest
  reqs : List (THttpRequest QHostAddress) := []
  outputs : List Output := []
  /-- What of the body has not been read, and how much of it is read at a time. -/
  body : QByteArray := []
  bufSize : ℕ := 0
  toWrite : QByteArray := []
  wire : QByteArray := []
  arrived : List QByteArray := []
  executed : List (THttpRequest QHostAddress × List Output) := []
  /-- A piece has arrived behind a complete request that had not been read. -/
  dropped : Bool := false
  /-- Nothing was written for so long that a response has been given up. -/
  gaveUp : Bool := false

inductive Act where
  | receive (p : QByteArray)
  | sent (n : ℕ)
  | disconnected
  | checkRequest (timedOut : Bool)
  | next
  | execute (outputs : List Output)
  | output
  /-- Whether `waitForBytesWritten` succeeds, if it is called. -/
  | writeRawData (written : Bool)
  | checkConnection (timedOut : Bool)
  | deleteLater

namespace Connection

def closeHttpSocket (c : Connection QHostAddress) : Connection QHostAddress :=
  { c with connected := false }

/-- What has not been sent is lost. -/
def abort (c : Connection QHostAddress) : Connection QHostAddress :=
  { c with connected := false, toWrite := [] }

/-- The slot that reads what is available. -/
def receive (v : Server QHostAddress) (c : Connection QHostAddress) (p : QByteArray) :
    Connection QHostAddress :=
  match c.socket.readRequest v.limitBodyBytes p with
  | .error _ => { c with connected := false, pc := .thrown }
  | .ok socket =>
    { c with
      socket := socket
      arrived := c.arrived ++ [p]
      dropped := c.dropped || c.socket.canReadRequest
      pc := if c.pc = .waitForReadyRead then .readRequest else c.pc }

/-- `TActionThread::readRequest` when it has waited, and what `run` does with the requests. -/
def checkRequest (v : Server QHostAddress) (c : Connection QHostAddress) (timedOut : Bool) :
    Option (Connection QHostAddress) :=
  if c.socket.canReadRequest then
    (c.socket.read v.fuel v.peerAddress).map fun r =>
      if r.1 = [] then { c.closeHttpSocket with socket := r.2, pc := .cleanup }
      else { c with socket := r.2, reqs := r.1, pc := .execute }
  else if (0 < v.keepAliveTimeout ∧ timedOut) ∨ !c.connected then
    some { c.abort with pc := .cleanup }
  else some c

def isWebSocket (header : THttpRequestHeader) : Bool :=
  toLower ((header.rawHeader (ascii "Upgrade")).getD []) = ascii "websocket"

/-- Behind a request: the next one, if it is not executed, or the end of the loop. -/
def next (v : Server QHostAddress) (c : Connection QHostAddress) :
    Option (Connection QHostAddress) :=
  match c.reqs with
  | [] =>
    if v.keepAliveTimeout = 0 then some { c.closeHttpSocket with pc := .cleanup }
    else some { c with pc := .waitForReadyRead }
  | req :: _ =>
    if EpollSocket.isUpgrade req.header then
      if isWebSocket req.header && !v.searchEndpoint req.header then
        some { c.abort with pc := .deleted }
      else some { c with pc := .cleanup }
    else none

def execute (c : Connection QHostAddress) (outputs : List Output) :
    Option (Connection QHostAddress) :=
  match c.reqs with
  | [] => none
  | req :: reqs =>
    if EpollSocket.isUpgrade req.header then none
    else some { c with
      reqs := reqs, outputs := outputs, executed := c.executed ++ [(req, outputs)] }

/-- The next thing that executing the request does; `write` begins with the header. -/
def output (c : Connection QHostAddress) : Option (Connection QHostAddress) :=
  match c.outputs with
  | [] => none
  | .closeHttpSocket :: outputs => some { c.closeHttpSocket with outputs := outputs }
  | .write header none :: outputs =>
    some { c with outputs := outputs, pc := .writeRawData true header }
  | .write header (some body) :: outputs =>
    if body.opens then
      some { c with
        outputs := outputs, pc := .writeRawData true header, body := body.content
        bufSize := if body.isBuffer then body.content.length else WRITE_BUFFER_LENGTH }
    else some { c with outputs := outputs }

/-- `write` goes on with the body. -/
def writeBody (c : Connection QHostAddress) : Connection QHostAddress :=
  if c.body = [] then { c with pc := .execute }
  else { c with
    pc := .writeRawData false (c.body.take c.bufSize), body := c.body.drop c.bufSize }

/-- `write` fails. -/
def writeFails (c : Connection QHostAddress) : Connection QHostAddress :=
  { c with pc := .execute, body := [] }

/-- One round of the loop in `writeRawData`. When waiting fails, the header is taken for written. -/
def writeRawData (c : Connection QHostAddress) (isHeader : Bool) (data : QByteArray)
    (written : Bool) : Connection QHostAddress :=
  if data = [] then c.writeBody
  else if SEND_BUF_SIZE * 3 / 4 < c.toWrite.length ∧ !written then
    let c := { c with gaveUp := c.gaveUp || c.connected }
    if isHeader then c.writeBody else c.writeFails
  else if c.connected then
    let c := { c with toWrite := c.toWrite ++ data.take WRITE_LENGTH }
    if data.drop WRITE_LENGTH = [] then c.writeBody
    else { c with pc := .writeRawData isHeader (data.drop WRITE_LENGTH) }
  else c.writeFails

/-- The thread handles the events of the socket. -/
def handlesEvents (c : Connection QHostAddress) : Bool :=
  match c.pc with
  | .readRequest | .writeRawData _ _ | .waitForReadyRead | .cleanup => true
  | .execute | .deleted | .thrown => false

/-- One step of the thread, of the client or of the kernel; none if it is not possible. -/
def step (v : Server QHostAddress) (c : Connection QHostAddress) :
    Act → Option (Connection QHostAddress)
  | .receive p => if c.connected && c.handlesEvents then some (c.receive v p) else none
  | .sent n => some { c with wire := c.wire ++ c.toWrite.take n, toWrite := c.toWrite.drop n }
  | .disconnected => some { c with connected := false }
  | .checkRequest timedOut => if c.pc = .readRequest then c.checkRequest v timedOut else none
  | .next => if c.pc = .execute ∧ c.outputs = [] then c.next v else none
  | .execute outputs => if c.pc = .execute ∧ c.outputs = [] then c.execute outputs else none
  | .output => if c.pc = .execute then c.output else none
  | .writeRawData written =>
    match c.pc with
    | .writeRawData isHeader data => some (c.writeRawData isHeader data written)
    | _ => none
  | .checkConnection timedOut =>
    if c.pc = .waitForReadyRead then
      some (if !c.connected || timedOut then { c.closeHttpSocket with pc := .cleanup } else c)
    else none
  | .deleteLater => if c.pc = .cleanup then some { c.abort with pc := .deleted } else none

/-- Steps from the beginning; none if one of them is not possible. -/
def run (v : Server QHostAddress) (acts : List Act) : Option (Connection QHostAddress) :=
  acts.foldlM (step v) {}

end Connection

/-! ### Responses -/

/-- The responses to the requests that were executed, one after another. -/
def responses (executed : List (THttpRequest QHostAddress × List Output)) : QByteArray :=
  executed.flatMap fun e => e.2.flatMap Output.bytes

/-- What `write` has been given and has not written. -/
def Pc.data : Pc → QByteArray
  | .writeRawData _ data => data
  | _ => []

/-- What is still to be written for the request that is executed. -/
def pending (c : Connection QHostAddress) : QByteArray :=
  c.pc.data ++ c.body ++ c.outputs.flatMap Output.bytes

/-- What there is where the thread is. -/
def Knows (c : Connection QHostAddress) : Prop :=
  match c.pc with
  | .readRequest | .waitForReadyRead => c.reqs = [] ∧ c.outputs = [] ∧ c.body = []
  | .execute => c.body = []
  | .writeRawData _ _ | .thrown => True
  | .cleanup | .deleted => c.outputs = [] ∧ c.body = []

/-- What is written is owed, and while the connection lasts nothing is left out. -/
structure Inv (c : Connection QHostAddress) : Prop where
  knows : Knows c
  owed : c.gaveUp = false → ∃ rest, c.wire ++ c.toWrite ++ rest = responses c.executed ∧
    (c.connected → rest = pending c)

variable {v : Server QHostAddress} {c d : Connection QHostAddress}

lemma inv_init : Inv ({} : Connection QHostAddress) :=
  ⟨⟨rfl, rfl, rfl⟩, fun _ => ⟨[], rfl, fun _ => rfl⟩⟩

lemma Inv.goOn (h : Inv c) (hknows : Knows d) (hconn : d.connected → c.connected)
    (hwire : d.wire ++ d.toWrite = c.wire ++ c.toWrite) (hexec : d.executed = c.executed)
    (hgave : d.gaveUp = c.gaveUp) (hpending : pending d = pending c) : Inv d := by
  refine ⟨hknows, fun hg => ?_⟩
  obtain ⟨rest, hrest, heq⟩ := h.owed (hgave ▸ hg)
  exact ⟨rest, by rw [hwire, hrest, hexec], fun hd => by rw [heq (hconn hd), hpending]⟩

lemma Inv.stop (h : Inv c) (hknows : Knows d) (hconn : d.gaveUp = false → d.connected = false)
    (hwire : d.wire ++ d.toWrite <+: c.wire ++ c.toWrite) (hexec : d.executed = c.executed)
    (hgave : d.gaveUp = false → c.gaveUp = false) : Inv d := by
  refine ⟨hknows, fun hg => ?_⟩
  obtain ⟨rest, hrest, -⟩ := h.owed (hgave hg)
  obtain ⟨t, ht⟩ := hwire
  refine ⟨t ++ rest, ?_, fun hd => ?_⟩
  · rw [← List.append_assoc, ht, hrest, hexec]
  · rw [hconn hg] at hd
    cases hd

lemma Inv.disconnect (h : Inv c) (hknows : Knows d) (hconn : d.connected = false)
    (hwire : d.wire ++ d.toWrite <+: c.wire ++ c.toWrite) (hexec : d.executed = c.executed)
    (hgave : d.gaveUp = c.gaveUp) : Inv d :=
  h.stop hknows (fun _ => hconn) hwire hexec fun hg => hgave ▸ hg

lemma Inv.abort (h : Inv c) {pc : Pc} (hknows : Knows { c.abort with pc := pc }) :
    Inv { c.abort with pc := pc } :=
  h.disconnect hknows rfl (by simp [Connection.abort]) rfl rfl

lemma Inv.receive (h : Inv c) (p : QByteArray) : Inv (c.receive v p) := by
  unfold Connection.receive
  split
  · exact h.disconnect trivial rfl (List.prefix_refl _) rfl rfl
  · have hknows := h.knows
    unfold Knows at hknows
    split_ifs with hwait
    · rw [hwait] at hknows
      exact h.goOn hknows id rfl rfl rfl (by simp [pending, Pc.data, hwait])
    · exact h.goOn h.knows id rfl rfl rfl rfl

lemma Inv.checkRequest (h : Inv c) (hpc : c.pc = .readRequest) {timedOut : Bool}
    (hstep : c.checkRequest v timedOut = some d) : Inv d := by
  have hknows := h.knows
  rw [Knows, hpc] at hknows
  obtain ⟨-, hout, hbody⟩ := hknows
  unfold Connection.checkRequest at hstep
  split_ifs at hstep
  · obtain ⟨r, -, rfl⟩ := Option.map_eq_some_iff.mp hstep
    split_ifs
    · exact h.disconnect ⟨hout, hbody⟩ rfl (List.prefix_refl _) rfl rfl
    · exact h.goOn hbody id rfl rfl rfl (by simp [pending, Pc.data, hpc])
  · obtain rfl := Option.some.inj hstep
    exact h.abort ⟨hout, hbody⟩
  · obtain rfl := Option.some.inj hstep
    exact h

lemma Inv.next (h : Inv c) (hpc : c.pc = .execute) (hout : c.outputs = [])
    (hstep : c.next v = some d) : Inv d := by
  have hbody := h.knows
  rw [Knows, hpc] at hbody
  unfold Connection.next at hstep
  split at hstep
  · rename_i hreqs
    split_ifs at hstep
    · obtain rfl := Option.some.inj hstep
      exact h.disconnect ⟨hout, hbody⟩ rfl (List.prefix_refl _) rfl rfl
    · obtain rfl := Option.some.inj hstep
      exact h.goOn ⟨hreqs, hout, hbody⟩ id rfl rfl rfl (by simp [pending, Pc.data, hpc])
  · split_ifs at hstep
    · obtain rfl := Option.some.inj hstep
      exact h.abort ⟨hout, hbody⟩
    · obtain rfl := Option.some.inj hstep
      exact h.goOn ⟨hout, hbody⟩ id rfl rfl rfl (by simp [pending, Pc.data, hpc])

lemma Inv.execute (h : Inv c) (hpc : c.pc = .execute) (hout : c.outputs = [])
    {outputs : List Output} (hstep : c.execute outputs = some d) : Inv d := by
  have hbody := h.knows
  rw [Knows, hpc] at hbody
  unfold Connection.execute at hstep
  split at hstep
  · cases hstep
  split_ifs at hstep
  obtain rfl := Option.some.inj hstep
  refine ⟨by rw [Knows, hpc]; exact hbody, fun hg => ?_⟩
  obtain ⟨rest, hrest, heq⟩ := h.owed hg
  refine ⟨rest ++ outputs.flatMap Output.bytes, ?_, fun hd => ?_⟩
  · rw [← List.append_assoc, hrest]
    simp [responses]
  · rw [heq hd]
    simp [pending, hpc, hout, hbody, Pc.data]

lemma Inv.output (h : Inv c) (hpc : c.pc = .execute) (hstep : c.output = some d) : Inv d := by
  have hbody := h.knows
  rw [Knows, hpc] at hbody
  unfold Connection.output at hstep
  split at hstep
  · cases hstep
  · obtain rfl := Option.some.inj hstep
    exact h.disconnect (by rw [Knows]; simpa [Connection.closeHttpSocket, hpc] using hbody) rfl
      (List.prefix_refl _) rfl rfl
  · rename_i hout
    obtain rfl := Option.some.inj hstep
    exact h.goOn trivial id rfl rfl rfl (by simp [pending, Pc.data, Output.bytes, hpc, hout, hbody])
  · rename_i body _ hout
    by_cases hopens : body.opens
    · rw [if_pos hopens] at hstep
      obtain rfl := Option.some.inj hstep
      refine h.goOn trivial id rfl rfl rfl ?_
      simp [pending, Pc.data, Output.bytes, hpc, hout, hbody, hopens]
    · rw [if_neg hopens] at hstep
      obtain rfl := Option.some.inj hstep
      refine h.goOn (by rw [Knows, hpc]; exact hbody) id rfl rfl rfl ?_
      simp [pending, Output.bytes, hout, hopens]

lemma writeBody_eq (c : Connection QHostAddress) :
    ∃ pc body, c.writeBody = { c with pc := pc, body := body } ∧
      Knows { c with pc := pc, body := body } ∧ pc.data ++ body = c.body := by
  unfold Connection.writeBody
  split_ifs with hbody
  · exact ⟨.execute, c.body, rfl, hbody, rfl⟩
  · exact ⟨_, _, rfl, trivial, List.take_append_drop _ _⟩

lemma Inv.writeBody {isHeader : Bool} (h : Inv { c with pc := .writeRawData isHeader [] }) :
    Inv c.writeBody := by
  obtain ⟨pc, body, heq, hknows, hbody⟩ := writeBody_eq c
  rw [heq]
  refine h.goOn hknows id rfl rfl rfl ?_
  rw [pending, pending]
  dsimp only
  rw [hbody]
  rfl

lemma Inv.written (h : Inv c) {isHeader : Bool} {data : QByteArray}
    (hpc : c.pc = .writeRawData isHeader data) (hconn : c.connected) (n : ℕ) :
    Inv { c with
      toWrite := c.toWrite ++ data.take n, pc := .writeRawData isHeader (data.drop n) } := by
  refine ⟨trivial, fun hg => ?_⟩
  obtain ⟨rest, hrest, heq⟩ := h.owed hg
  refine ⟨data.drop n ++ (c.body ++ c.outputs.flatMap Output.bytes), ?_, fun _ => ?_⟩
  · have hdata : rest = data.take n ++ (data.drop n ++
        (c.body ++ c.outputs.flatMap Output.bytes)) := by
      rw [heq hconn, pending, hpc, ← List.append_assoc (data.take n), List.take_append_drop,
        List.append_assoc]
      rfl
    rw [← hrest, hdata]
    simp only [List.append_assoc]
  · rw [pending, List.append_assoc]
    rfl

lemma Inv.writeRawData (h : Inv c) {isHeader : Bool} {data : QByteArray}
    (hpc : c.pc = .writeRawData isHeader data) (written : Bool) :
    Inv (c.writeRawData isHeader data written) := by
  have hsame : Inv { c with pc := .writeRawData isHeader data } := by rwa [← hpc]
  have hgave (pc : Pc) (body : QByteArray)
      (hknows : Knows { c with gaveUp := c.gaveUp || c.connected, pc := pc, body := body }) :
      Inv { c with gaveUp := c.gaveUp || c.connected, pc := pc, body := body } :=
    h.stop hknows (fun hg => (Bool.or_eq_false_iff.mp hg).2) (List.prefix_refl _) rfl
      fun hg => (Bool.or_eq_false_iff.mp hg).1
  unfold Connection.writeRawData
  split_ifs with hdata hwait hheader hconn hrest
  · rw [hdata] at hsame
    exact hsame.writeBody
  · exact Inv.writeBody (hgave (.writeRawData isHeader []) c.body trivial)
  · exact hgave _ [] rfl
  · have hall := h.written hpc hconn WRITE_LENGTH
    rw [hrest] at hall
    exact hall.writeBody
  · exact h.written hpc hconn WRITE_LENGTH
  · exact h.disconnect rfl (Bool.eq_false_of_not_eq_true hconn) (List.prefix_refl _) rfl rfl

lemma Inv.step (h : Inv c) {a : Act} (hstep : c.step v a = some d) : Inv d := by
  cases a with
  | receive p =>
    simp only [Connection.step, Option.ite_none_right_eq_some, Option.some.injEq] at hstep
    obtain ⟨-, rfl⟩ := hstep
    exact h.receive p
  | sent n =>
    obtain rfl := Option.some.inj hstep
    exact h.goOn h.knows id (by simp) rfl rfl rfl
  | disconnected =>
    obtain rfl := Option.some.inj hstep
    exact h.disconnect h.knows rfl (List.prefix_refl _) rfl rfl
  | checkRequest timedOut =>
    simp only [Connection.step, Option.ite_none_right_eq_some] at hstep
    exact h.checkRequest hstep.1 hstep.2
  | next =>
    simp only [Connection.step, Option.ite_none_right_eq_some] at hstep
    exact h.next hstep.1.1 hstep.1.2 hstep.2
  | execute outputs =>
    simp only [Connection.step, Option.ite_none_right_eq_some] at hstep
    exact h.execute hstep.1.1 hstep.1.2 hstep.2
  | output =>
    simp only [Connection.step, Option.ite_none_right_eq_some] at hstep
    exact h.output hstep.1 hstep.2
  | writeRawData written =>
    simp only [Connection.step] at hstep
    split at hstep
    · rename_i isHeader data hpc
      obtain rfl := Option.some.inj hstep
      exact h.writeRawData hpc written
    · cases hstep
  | checkConnection timedOut =>
    simp only [Connection.step, Option.ite_none_right_eq_some, Option.some.injEq] at hstep
    obtain ⟨hpc, rfl⟩ := hstep
    have hknows := h.knows
    rw [Knows, hpc] at hknows
    split_ifs
    · exact h.disconnect hknows.2 rfl (List.prefix_refl _) rfl rfl
    · exact h
  | deleteLater =>
    simp only [Connection.step, Option.ite_none_right_eq_some, Option.some.injEq] at hstep
    obtain ⟨hpc, rfl⟩ := hstep
    have hknows := h.knows
    rw [Knows, hpc] at hknows
    exact h.abort hknows

/-! ### The requests of the client -/

/-- A complete request that has not been read, and what is behind it. -/
def held (v : Server QHostAddress) (socket : THttpSocket) :
    List (THttpRequest QHostAddress) × THttpSocket :=
  if socket.canReadRequest then (socket.read v.fuel v.peerAddress).getD ([], socket)
  else ([], socket)

/-- The requests that have been executed, that have been read, and that are held. -/
def found (v : Server QHostAddress) (c : Connection QHostAddress) :
    List (THttpRequest QHostAddress) :=
  c.executed.map Prod.fst ++ c.reqs ++ (held v c.socket).1

/-- The socket as a receiver that is read as soon as a request is complete. -/
def receiver (v : Server QHostAddress) : Receiver THttpSocket QHostAddress :=
  threadServer v.limitBodyBytes v.fuel v.peerAddress

def Tracks (v : Server QHostAddress) (c : Connection QHostAddress) : Prop :=
  c.dropped = false → ∀ reqs s, (receiver v).run {} c.arrived = .ok (reqs, s) →
    reqs = found v c ∧ s = (held v c.socket).2

lemma tracks_init (v : Server QHostAddress) : Tracks v {} := by
  intro _ reqs s hrun
  obtain ⟨rfl, rfl⟩ := Prod.mk.inj (Except.ok.inj hrun)
  exact ⟨rfl, rfl⟩

lemma Tracks.of_eq (h : Tracks v c) (hdropped : d.dropped = c.dropped)
    (harrived : d.arrived = c.arrived) (hsocket : d.socket = c.socket)
    (hread : d.executed.map Prod.fst ++ d.reqs = c.executed.map Prod.fst ++ c.reqs) :
    Tracks v d := by
  rw [Tracks, hdropped, harrived, hsocket, found, hread, hsocket]
  exact h

lemma feed_eq (v : Server QHostAddress) (s : THttpSocket) (p : QByteArray) :
    (receiver v).feed s p =
      match s.readRequest v.limitBodyBytes p with
      | .error e => .error (.clientError e)
      | .ok s => .ok s := rfl

lemma run_piece {s s' : THttpSocket} {p : QByteArray} {reqs : List (THttpRequest QHostAddress)}
    (h : (receiver v).run s [p] = .ok (reqs, s')) :
    ∃ socket, s.readRequest v.limitBodyBytes p = .ok socket ∧ held v socket = (reqs, s') := by
  rw [Receiver.run, feed_eq] at h
  cases hfeed : s.readRequest v.limitBodyBytes p with
  | error e =>
    rw [hfeed] at h
    cases h
  | ok socket =>
    refine ⟨socket, rfl, ?_⟩
    rw [hfeed] at h
    dsimp only at h
    rw [held]
    by_cases hcan : socket.canReadRequest
    · rw [if_pos (show (receiver v).canReadRequest socket = true from hcan)] at h
      rw [if_pos hcan]
      simp only [receiver, threadServer] at h
      cases hread : socket.read v.fuel v.peerAddress with
      | none =>
        rw [hread] at h
        cases h
      | some r =>
        rw [hread] at h
        obtain ⟨rfl, rfl⟩ := Prod.mk.inj (Except.ok.inj h)
        rw [Option.getD_some, List.append_nil]
    · rw [if_neg (show ¬ (receiver v).canReadRequest socket = true from hcan)] at h
      rw [if_neg hcan]
      exact Except.ok.inj h

lemma Tracks.receive (h : Tracks v c) (p : QByteArray) : Tracks v (c.receive v p) := by
  unfold Connection.receive
  split
  · exact h.of_eq rfl rfl rfl rfl
  rename_i socket hfeed
  intro hdropped reqs s hrun
  obtain ⟨hdropped, hwait⟩ := Bool.or_eq_false_iff.mp hdropped
  obtain ⟨before, t, after, hbefore, hafter, rfl⟩ := Receiver.run_append hrun
  obtain ⟨rfl, rfl⟩ := h hdropped before t hbefore
  have hheld : held v c.socket = ([], c.socket) := if_neg (Bool.not_eq_true _ ▸ hwait)
  rw [hheld] at hafter
  obtain ⟨socket', hfeed', heq⟩ := run_piece hafter
  obtain rfl := Except.ok.inj (hfeed.symm.trans hfeed')
  refine ⟨?_, by rw [heq]⟩
  simp only [found, hheld, heq, List.append_nil]

lemma canReadRequest_read {s : THttpSocket} {r : List (THttpRequest QHostAddress) × THttpSocket}
    (hcan : s.canReadRequest) (hread : s.read v.fuel v.peerAddress = some r) :
    r.2.canReadRequest = false := by
  unfold THttpSocket.read at hread
  rw [if_pos hcan] at hread
  split_ifs at hread
  · obtain rfl := Option.some.inj hread
    rfl
  · obtain ⟨reqs, -, rfl⟩ := Option.map_eq_some_iff.mp hread
    rfl

lemma Tracks.checkRequest (h : Tracks v c) (hreqs : c.reqs = []) {timedOut : Bool}
    (hstep : c.checkRequest v timedOut = some d) : Tracks v d := by
  unfold Connection.checkRequest at hstep
  by_cases hcan : c.socket.canReadRequest
  · rw [if_pos hcan] at hstep
    obtain ⟨r, hread, rfl⟩ := Option.map_eq_some_iff.mp hstep
    have hheld : held v c.socket = r := by rw [held, if_pos hcan, hread, Option.getD_some]
    have hnone : held v r.2 = ([], r.2) :=
      if_neg (Bool.not_eq_true _ ▸ canReadRequest_read hcan hread)
    rw [Tracks, found, hreqs, hheld, List.append_nil] at h
    split_ifs with hnil
    · rw [Tracks, found, hnone]
      rw [hnil, List.append_nil] at h
      simpa [Connection.closeHttpSocket, hreqs] using h
    · rw [Tracks, found, hnone]
      simpa using h
  · rw [if_neg hcan] at hstep
    split_ifs at hstep <;> obtain rfl := Option.some.inj hstep <;> exact h.of_eq rfl rfl rfl rfl

/-- What is not about the requests leaves them alone. -/
structure Unread (c d : Connection QHostAddress) : Prop where
  socket : d.socket = c.socket
  arrived : d.arrived = c.arrived
  dropped : d.dropped = c.dropped
  reqs : d.executed.map Prod.fst ++ d.reqs = c.executed.map Prod.fst ++ c.reqs

lemma Unread.writeBody (h : Unread c d) : Unread c d.writeBody := by
  obtain ⟨pc, body, heq, -, -⟩ := writeBody_eq d
  rw [heq]
  exact ⟨h.socket, h.arrived, h.dropped, h.reqs⟩

lemma unread_writeRawData (c : Connection QHostAddress) (isHeader : Bool) (data : QByteArray)
    (written : Bool) : Unread c (c.writeRawData isHeader data written) := by
  unfold Connection.writeRawData
  split_ifs
  · exact Unread.writeBody ⟨rfl, rfl, rfl, rfl⟩
  · exact Unread.writeBody ⟨rfl, rfl, rfl, rfl⟩
  · exact ⟨rfl, rfl, rfl, rfl⟩
  · exact Unread.writeBody ⟨rfl, rfl, rfl, rfl⟩
  · exact ⟨rfl, rfl, rfl, rfl⟩
  · exact ⟨rfl, rfl, rfl, rfl⟩

lemma unread_step {a : Act} (hstep : c.step v a = some d) :
    (∃ p, d = c.receive v p) ∨
      (∃ timedOut, c.pc = .readRequest ∧ c.checkRequest v timedOut = some d) ∨ Unread c d := by
  cases a with
  | receive p =>
    simp only [Connection.step, Option.ite_none_right_eq_some, Option.some.injEq] at hstep
    exact .inl ⟨p, hstep.2.symm⟩
  | checkRequest timedOut =>
    simp only [Connection.step, Option.ite_none_right_eq_some] at hstep
    exact .inr (.inl ⟨timedOut, hstep⟩)
  | sent | disconnected =>
    obtain rfl := Option.some.inj hstep
    exact .inr (.inr ⟨rfl, rfl, rfl, rfl⟩)
  | next =>
    simp only [Connection.step, Option.ite_none_right_eq_some] at hstep
    obtain ⟨-, hstep⟩ := hstep
    unfold Connection.next at hstep
    refine .inr (.inr ?_)
    split at hstep <;> split_ifs at hstep <;> obtain rfl := Option.some.inj hstep <;>
      exact ⟨rfl, rfl, rfl, rfl⟩
  | execute outputs =>
    simp only [Connection.step, Option.ite_none_right_eq_some] at hstep
    obtain ⟨-, hstep⟩ := hstep
    unfold Connection.execute at hstep
    split at hstep
    · cases hstep
    · rename_i hreqs
      split_ifs at hstep
      obtain rfl := Option.some.inj hstep
      exact .inr (.inr ⟨rfl, rfl, rfl, by simp [hreqs]⟩)
  | output =>
    simp only [Connection.step, Option.ite_none_right_eq_some] at hstep
    obtain ⟨-, hstep⟩ := hstep
    unfold Connection.output at hstep
    refine .inr (.inr ?_)
    split at hstep
    · cases hstep
    · obtain rfl := Option.some.inj hstep
      exact ⟨rfl, rfl, rfl, rfl⟩
    · obtain rfl := Option.some.inj hstep
      exact ⟨rfl, rfl, rfl, rfl⟩
    · rename_i body _ _
      by_cases hopens : body.opens
      · rw [if_pos hopens] at hstep
        obtain rfl := Option.some.inj hstep
        exact ⟨rfl, rfl, rfl, rfl⟩
      · rw [if_neg hopens] at hstep
        obtain rfl := Option.some.inj hstep
        exact ⟨rfl, rfl, rfl, rfl⟩
  | writeRawData written =>
    simp only [Connection.step] at hstep
    split at hstep
    · obtain rfl := Option.some.inj hstep
      exact .inr (.inr (unread_writeRawData ..))
    · cases hstep
  | checkConnection timedOut =>
    simp only [Connection.step, Option.ite_none_right_eq_some, Option.some.injEq] at hstep
    obtain ⟨-, rfl⟩ := hstep
    refine .inr (.inr ?_)
    split_ifs <;> exact ⟨rfl, rfl, rfl, rfl⟩
  | deleteLater =>
    simp only [Connection.step, Option.ite_none_right_eq_some, Option.some.injEq] at hstep
    obtain ⟨-, rfl⟩ := hstep
    exact .inr (.inr ⟨rfl, rfl, rfl, rfl⟩)

lemma Tracks.step (h : Tracks v c) (hinv : Inv c) {a : Act} (hstep : c.step v a = some d) :
    Tracks v d := by
  obtain ⟨p, rfl⟩ | ⟨timedOut, hpc, hcheck⟩ | ⟨hsocket, harrived, hdropped, hreqs⟩ :=
    unread_step hstep
  · exact h.receive p
  · have hknows := hinv.knows
    rw [Knows, hpc] at hknows
    exact h.checkRequest hknows.1 hcheck
  · exact h.of_eq hdropped harrived hsocket hreqs

lemma inv_run {acts : List Act} (h : Inv c) (htracks : Tracks v c)
    (hrun : acts.foldlM (Connection.step v) c = some d) : Inv d ∧ Tracks v d := by
  induction acts generalizing c with
  | nil =>
    obtain rfl := Option.some.inj hrun
    exact ⟨h, htracks⟩
  | cons a acts ih =>
    obtain ⟨b, hstep, hrun⟩ := Option.bind_eq_some_iff.mp hrun
    exact ih (h.step hstep) (htracks.step h hstep) hrun

lemma Inv.responses (h : Inv c) (hgave : c.gaveUp = false) :
    c.wire <+: responses c.executed ∧
      (c.connected → c.pc = .readRequest ∨ c.pc = .waitForReadyRead → c.toWrite = [] →
        c.wire = responses c.executed) := by
  obtain ⟨rest, hrest, heq⟩ := h.owed hgave
  refine ⟨⟨c.toWrite ++ rest, by rw [← List.append_assoc, hrest]⟩, fun hconn hpc hempty => ?_⟩
  have hknows := h.knows
  unfold Knows at hknows
  have hpending : pending c = [] := by
    rcases hpc with hpc | hpc <;> rw [hpc] at hknows <;>
      simp [pending, Pc.data, hpc, hknows.2.1, hknows.2.2]
  rw [heq hconn, hpending, hempty, List.append_nil, List.append_nil] at hrest
  exact hrest

def sampleServer : Server Unit where
  limitBodyBytes := 0
  fuel := 3
  peerAddress := ()
  keepAliveTimeout := 10
  searchEndpoint := fun _ => false

/-- A request in two pieces; its response is sent in part when the thread waits for the next one. -/
def sampleActs : List Act :=
  [.receive postRequest.head, .checkRequest false, .receive postRequest.body, .checkRequest false,
    .execute [.write (ascii "ok ") (some ⟨true, false, postRequest.body⟩)], .output,
    .writeRawData true, .writeRawData true, .sent 4, .next, .checkConnection false,
    .receive getRequest.bytes, .sent 9, .checkRequest false, .execute [.write (ascii "no") none],
    .output, .writeRawData true, .sent 2, .next]

/-- The thread waits, or is done with the connection. -/
def Waits (c : Connection QHostAddress) : Prop :=
  c.pc = .waitForReadyRead ∧ c.socket.canReadRequest ∨
    c.pc = .cleanup ∨ c.pc = .deleted ∨ c.pc = .thrown

lemma Waits.pc_ne (h : Waits c) : c.pc ≠ .readRequest ∧ c.pc ≠ .execute ∧
    ∀ isHeader data, c.pc ≠ .writeRawData isHeader data := by
  rcases h with ⟨hpc, -⟩ | hpc | hpc | hpc <;> simp [hpc]

lemma dropped_step {a : Act} (hdropped : c.dropped) (hstep : c.step v a = some d) : d.dropped := by
  obtain ⟨p, rfl⟩ | ⟨timedOut, -, hcheck⟩ | hunread := unread_step hstep
  · unfold Connection.receive
    split
    · exact hdropped
    · simp [hdropped]
  · unfold Connection.checkRequest at hcheck
    split_ifs at hcheck
    · obtain ⟨r, -, rfl⟩ := Option.map_eq_some_iff.mp hcheck
      split_ifs <;> exact hdropped
    · obtain rfl := Option.some.inj hcheck
      exact hdropped
    · obtain rfl := Option.some.inj hcheck
      exact hdropped
  · rw [hunread.dropped]
    exact hdropped

lemma Waits.step (h : Waits c) {a : Act} (hstep : c.step v a = some d) :
    Waits d ∧ d.executed = c.executed ∨ d.dropped := by
  obtain ⟨hread, hexec, hwrite⟩ := h.pc_ne
  cases a with
  | receive p =>
    simp only [Connection.step, Option.ite_none_right_eq_some, Option.some.injEq] at hstep
    obtain ⟨-, rfl⟩ := hstep
    unfold Connection.receive
    split
    · exact .inl ⟨.inr (.inr (.inr rfl)), rfl⟩
    · obtain ⟨-, hcan⟩ | hpc := h
      · exact .inr (by simp [hcan])
      · refine .inl ⟨.inr ?_, rfl⟩
        rcases hpc with hpc | hpc | hpc <;> simp [hpc]
  | sent | disconnected =>
    obtain rfl := Option.some.inj hstep
    exact .inl ⟨h, rfl⟩
  | checkRequest timedOut =>
    simp only [Connection.step, Option.ite_none_right_eq_some] at hstep
    exact absurd hstep.1 hread
  | next | execute =>
    simp only [Connection.step, Option.ite_none_right_eq_some] at hstep
    exact absurd hstep.1.1 hexec
  | output =>
    simp only [Connection.step, Option.ite_none_right_eq_some] at hstep
    exact absurd hstep.1 hexec
  | writeRawData written =>
    simp only [Connection.step] at hstep
    cases hstep
  | checkConnection timedOut =>
    simp only [Connection.step, Option.ite_none_right_eq_some, Option.some.injEq] at hstep
    obtain ⟨hpc, rfl⟩ := hstep
    split_ifs
    · exact .inl ⟨.inr (.inl rfl), rfl⟩
    · exact .inl ⟨h, rfl⟩
  | deleteLater =>
    simp only [Connection.step, Option.ite_none_right_eq_some, Option.some.injEq] at hstep
    obtain ⟨-, rfl⟩ := hstep
    exact .inl ⟨.inr (.inr (.inl rfl)), rfl⟩

lemma dropped_run {acts : List Act} (hdropped : c.dropped)
    (hrun : acts.foldlM (Connection.step v) c = some d) : d.dropped := by
  induction acts generalizing c with
  | nil =>
    obtain rfl := Option.some.inj hrun
    exact hdropped
  | cons a acts ih =>
    obtain ⟨b, hstep, hrun⟩ := Option.bind_eq_some_iff.mp hrun
    exact ih (dropped_step hdropped hstep) hrun

lemma Waits.run (h : Waits c) {acts : List Act}
    (hrun : acts.foldlM (Connection.step v) c = some d) :
    d.executed = c.executed ∨ d.dropped := by
  induction acts generalizing c with
  | nil =>
    obtain rfl := Option.some.inj hrun
    exact .inl rfl
  | cons a acts ih =>
    obtain ⟨b, hstep, hrun⟩ := Option.bind_eq_some_iff.mp hrun
    obtain ⟨hwaits, heq⟩ | hdropped := h.step hstep
    · rw [← heq]
      exact ih hwaits hrun
    · exact .inr (dropped_run hdropped hrun)

/-- A request that is complete when the thread begins to wait for the next one is not executed
before more arrives, and what arrives then is dropped. What has been dropped before does not
count. -/
theorem not_executed_unless_dropped {acts : List Act} (hpc : c.pc = .waitForReadyRead)
    (hcan : c.socket.canReadRequest)
    (hrun : acts.foldlM (Connection.step v) { c with dropped := false } = some d) :
    d.executed = c.executed ∨ d.dropped := by
  have hwaits : Waits { c with dropped := false } := .inl ⟨hpc, hcan⟩
  exact hwaits.run hrun

/-- The second request comes while the response to the first one is written. -/
def pipelinedActs : List Act :=
  [.receive postRequest.bytes, .checkRequest false, .execute [.write (ascii "ok") none], .output,
    .receive getRequest.bytes, .writeRawData true, .next]

/-- The thread waits until it is too late. -/
def waitingActs : List Act := [.checkConnection false, .checkConnection true, .deleteLater]

theorem not_executed_unless_dropped_sample :
    ∃ c d, Connection.run sampleServer pipelinedActs = some c ∧ c.executed.length = 1 ∧
      waitingActs.foldlM (Connection.step sampleServer) { c with dropped := false } = some d ∧
        (d.executed = c.executed ∨ d.dropped) := by
  have hrun : (Connection.run sampleServer pipelinedActs).map
      (fun c => (c.executed.length, c.pc, c.socket.canReadRequest)) =
        some (1, .waitForReadyRead, true) := by
    decide +kernel
  have hlater : ((Connection.run sampleServer pipelinedActs).bind fun c =>
      waitingActs.foldlM (Connection.step sampleServer) { c with dropped := false }).isSome := by
    decide +kernel
  obtain ⟨c, hc, heq⟩ := Option.map_eq_some_iff.mp hrun
  obtain ⟨hlength, heq⟩ := Prod.mk.inj heq
  obtain ⟨hpc, hcan⟩ := Prod.mk.inj heq
  rw [hc, Option.bind_some] at hlater
  obtain ⟨d, hd⟩ := Option.isSome_iff_exists.mp hlater
  exact ⟨c, d, hc, hlength, hd, not_executed_unless_dropped hpc hcan hd⟩

end TreeFrog.ThreadServer
