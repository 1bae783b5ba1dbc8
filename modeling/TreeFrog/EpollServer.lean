import TreeFrog.KeepAlive
import TreeFrog.SendBuffer

/-!
One connection of the epoll server: the event loop of `TMultiplexingServer`, the workers that
execute the requests of the connection, and the main thread that releases them. Their steps come in
any order; what the kernel answers, and what the loop does with other connections, is open.
-/

namespace TreeFrog.EpollServer

open Bytes RequestHeader Generate EpollSocket SendBuffer

variable {QHostAddress : Type}

/-! ### The connection -/

/-- What executing a request does with the socket. -/
inductive Output where
  | sendData (response : QByteArray) (file : Option QByteArray)
  | disconnect
  deriving DecidableEq

/-- The bytes of a response. -/
def Output.bytes : Output → Option QByteArray
  | .sendData response file => some (response ++ file.getD [])
  | .disconnect => none

/-- What the server is run with, and what executing a request does, which depends on nothing but the
request. -/
structure Server (QHostAddress : Type) where
  limitBodyBytes : ℤ
  searchEndpoint : THttpRequestHeader → Bool
  fuel : ℕ
  peerAddress : QHostAddress
  sendBufSize : ℤ
  execute : THttpRequest QHostAddress → List Output
  sendBufSize_pos : 0 < sendBufSize := by decide

/-- A worker, which first cuts `httpRequest` into requests. `checked` is what it is about to do,
having found the socket not deleting. The application may stop its context. -/
structure TActionWorker (QHostAddress : Type) where
  httpRequest : Option QByteArray
  reqs : List (THttpRequest QHostAddress) := []
  started : Bool := false
  outputs : List Output := []
  checked : Option Output := none
  stopped : Bool := false

def TActionWorker.finished (w : TActionWorker QHostAddress) : Bool :=
  w.httpRequest.isNone && w.reqs.isEmpty && w.outputs.isEmpty && w.checked.isNone

/-- What is in `sendRequests` of the connection. -/
inductive SendRequest where
  | disconnect
  | switchToWebSocket (header : THttpRequestHeader)

/-- Where the event loop is. -/
inductive LoopPc where
  /-- It waits, or is at another connection. -/
  | away
  | count (canReceive : Bool)
  | checkDeleting (canReceive : Bool)
  | sending (canReceive : Bool)
  | countWorker
  | setPollIn
  | recv
  | startWorker
  | close
  | deleteLater
  | release
  /-- An exception has left `run`. -/
  | thrown
  deriving DecidableEq

/-- The socket, the threads at it, and what has happened: the pieces that have arrived, the requests
the workers have found, the responses that were enqueued and the bytes that were sent. -/
structure Connection (QHostAddress : Type) where
  http : TEpollHttpSocket := {}
  sendBuf : List TSendBuffer := []
  sendRequests : List SendRequest := []
  opened : Bool := true
  polled : Bool := true
  deleting : Bool := false
  /-- The object goes. -/
  released : Bool := false
  pollIn : Bool := false
  pollOut : Bool := false
  myWorkerCounter : ℕ := 0
  workers : List (TActionWorker QHostAddress) := []
  loop : LoopPc := .away
  /-- The main thread has counted a worker down, and goes on with the socket. -/
  releasing : Bool := false
  arrived : List QByteArray := []
  given : List (THttpRequest QHostAddress) := []
  enqueued : List QByteArray := []
  wire : QByteArray := []

/-- What `tf_send` says. -/
inductive Sent where
  | bytes (n : ℕ)
  | again
  | failed

/-- What `tf_recv` says. -/
inductive Received where
  | piece (c : QByteArray)
  | again
  /-- The end, or an error. -/
  | failed

inductive Act where
  | event (canSend canReceive : Bool)
  | dispatchSendData
  | keepAliveTimeout
  /-- Whether `sendBuf.count()` is zero: the counter of a queue may be late. -/
  | count (zero : Bool)
  | checkDeleting
  | send (readError : Bool) (sent : Sent)
  /-- Whether there are too many workers, of all connections. -/
  | countWorker (tooMany : Bool)
  | setPollIn
  | recv (received : Received)
  | startWorker
  | close
  | deleteLater
  | release
  | work (i : ℕ)
  | releaseWorker (i : ℕ)
  | checkReleased
  | stop (i : ℕ)

namespace Connection

/-- Behind `send`. -/
def afterSend (canReceive : Bool) : LoopPc := if canReceive then .countWorker else .away

/-- The buffer is left in the queue until it is at its end. -/
def settle (b : TSendBuffer) (bufs : List TSendBuffer) : List TSendBuffer :=
  if b.atEnd then bufs else b :: bufs

/-- One round of the loops in `TEpollSocket::send`. -/
def send (v : Server QHostAddress) (c : Connection QHostAddress) (canReceive readError : Bool)
    (sent : Sent) : Connection QHostAddress :=
  match c.sendBuf with
  | [] => { c with loop := afterSend canReceive }
  | buf :: bufs =>
    let data := buf.getData v.sendBufSize readError
    match data.1 with
    | none => { c with sendBuf := settle data.2 bufs }
    | some bytes =>
      match sent with
      | .bytes n =>
        if n = 0 then { c with sendBuf := settle data.2 bufs }
        else
          { c with
            sendBuf := (data.2.seekData (min n bytes.length)).2 :: bufs
            wire := c.wire ++ bytes.take n }
      | .again => { c with sendBuf := settle data.2 bufs, loop := afterSend canReceive }
      | .failed => { c with sendBuf := settle data.2 bufs, loop := .close }

/-- One round of the loop in `TEpollSocket::recv`. -/
def recv (v : Server QHostAddress) (c : Connection QHostAddress) :
    Received → Connection QHostAddress
  | .again => { c with loop := .startWorker }
  | .failed => { c with loop := .close }
  | .piece p =>
    match c.http.seekRecvBuffer v.limitBodyBytes v.searchEndpoint p with
    | .error _ => { c with loop := .thrown }
    | .ok (http, switch) =>
      let requests :=
        match switch with
        | some (.switchToWebSocket header) => [.switchToWebSocket header]
        | some .disconnect => [.disconnect]
        | _ => []
      { c with
        http := http
        sendRequests := if c.deleting then c.sendRequests else c.sendRequests ++ requests
        arrived := c.arrived ++ [p] }

/-- `startWorker`, if there is a request. -/
def startWorker (c : Connection QHostAddress) : Connection QHostAddress :=
  if c.http.canReadRequest then
    { c with
      http := c.http.readRequest.2
      myWorkerCounter := c.myWorkerCounter + 1
      workers := c.workers ++ [{ httpRequest := some c.http.readRequest.1 }]
      loop := .away }
  else { c with loop := .away }

/-- `sendData` and `disconnect`, behind the test of `deleting`. -/
def output (c : Connection QHostAddress) : Output → Connection QHostAddress
  | .sendData response file =>
    { c with
      sendBuf := c.sendBuf ++ [.create response file]
      enqueued := c.enqueued ++ [response ++ file.getD []] }
  | .disconnect => { c with sendRequests := c.sendRequests ++ [.disconnect] }

/-- The next step of a worker; none if it has finished, or hangs. -/
def work (v : Server QHostAddress) (c : Connection QHostAddress) (i : ℕ)
    (w : TActionWorker QHostAddress) : Option (Connection QHostAddress) :=
  let put (w : TActionWorker QHostAddress) := { c with workers := c.workers.set i w }
  match w.checked, w.httpRequest, w.outputs, w.reqs with
  | some o, _, _, _ => some ((put { w with checked := none }).output o)
  | none, some bytes, _, _ =>
    (generate v.fuel bytes v.peerAddress).map fun reqs =>
      { put { w with httpRequest := none, reqs := reqs } with given := c.given ++ reqs }
  | none, none, o :: outputs, _ =>
    if w.stopped || c.deleting then some (put { w with outputs := outputs })
    else some (put { w with outputs := outputs, checked := some o })
  | none, none, [], req :: reqs =>
    if w.started && w.stopped then some (put { w with reqs := [] })
    else some (put { w with reqs := reqs, started := true, outputs := v.execute req })
  | none, none, [], [] => none

/-- `releaseWorker`, behind the counting down. -/
def checkReleased (c : Connection QHostAddress) : Connection QHostAddress :=
  if c.deleting then
    { c with released := c.released || c.myWorkerCounter = 0, releasing := false }
  else { c with pollIn := false, releasing := false }

/-- One step of the loop, of a worker or of the main thread; none if it is not there. -/
def step (v : Server QHostAddress) (c : Connection QHostAddress) :
    Act → Option (Connection QHostAddress)
  | .event canSend canReceive =>
    if c.loop = .away ∧ c.polled then
      some { c with loop := if canSend then .count canReceive else afterSend canReceive }
    else none
  | .dispatchSendData =>
    match c.loop, c.sendRequests with
    | .away, request :: requests =>
      if !c.opened then some { c with sendRequests := requests }
      else
        match request with
        | .disconnect => some { c with sendRequests := requests, loop := .close }
        | .switchToWebSocket _ =>
          some { c with sendRequests := requests, polled := false, loop := .deleteLater }
    | _, _ => none
  | .keepAliveTimeout => if c.loop = .away then some { c with loop := .close } else none
  | .count zero =>
    match c.loop with
    | .count canReceive =>
      some { c with
        pollOut := zero
        loop := if zero then afterSend canReceive else .checkDeleting canReceive }
    | _ => none
  | .checkDeleting =>
    match c.loop with
    | .checkDeleting canReceive =>
      some { c with loop := if c.deleting then afterSend canReceive else .sending canReceive }
    | _ => none
  | .send readError sent =>
    match c.loop with
    | .sending canReceive => some (c.send v canReceive readError sent)
    | _ => none
  | .countWorker tooMany =>
    if c.loop = .countWorker then
      some { c with
        loop := if tooMany then .away else if 0 < c.myWorkerCounter then .setPollIn else .recv }
    else none
  | .setPollIn =>
    if c.loop = .setPollIn then some { c with pollIn := true, loop := .away } else none
  | .recv received => if c.loop = .recv then some (c.recv v received) else none
  | .startWorker => if c.loop = .startWorker then some c.startWorker else none
  | .close =>
    if c.loop = .close then some { c with polled := false, opened := false, loop := .deleteLater }
    else none
  | .deleteLater =>
    if c.loop = .deleteLater then some { c with deleting := true, loop := .release } else none
  | .release =>
    if c.loop = .release then
      some { c with released := c.released || c.myWorkerCounter = 0, loop := .away }
    else none
  | .work i => (c.workers[i]?).bind (c.work v i)
  | .releaseWorker i =>
    if !c.releasing && (c.workers[i]?).any TActionWorker.finished then
      some { c with
        workers := c.workers.eraseIdx i
        myWorkerCounter := c.myWorkerCounter - 1
        releasing := true }
    else none
  | .checkReleased => if c.releasing then some c.checkReleased else none
  | .stop i =>
    (c.workers[i]?).map fun w => { c with workers := c.workers.set i { w with stopped := true } }

/-- Steps from the beginning; none if one of them is not possible. -/
def run (v : Server QHostAddress) (acts : List Act) : Option (Connection QHostAddress) :=
  acts.foldlM (step v) {}

end Connection

/-! ### What holds at every step -/

/-- What the loop has found where it is: while it deals with an event, the socket is polled. -/
def LoopPc.Knows (workers : List (TActionWorker QHostAddress)) (polled deleting : Bool) :
    LoopPc → Prop
  | .count _ | .checkDeleting _ | .sending _ | .countWorker | .setPollIn => polled
  | .recv | .startWorker => polled ∧ workers = []
  | .deleteLater => polled = false
  | .release => deleting
  | .away | .close | .thrown => True

/-- What a worker has still to do. -/
def TActionWorker.remaining (v : Server QHostAddress) (w : TActionWorker QHostAddress) :
    List Output :=
  w.checked.toList ++ w.outputs ++ w.reqs.flatMap v.execute

/-- One worker at a time, and none when the socket goes. -/
structure Threads (c : Connection QHostAddress) : Prop where
  counter : c.myWorkerCounter = c.workers.length
  single : c.workers.length ≤ 1
  loop : c.loop.Knows c.workers c.polled c.deleting
  polled : c.polled → c.deleting = false
  released : c.released → c.deleting ∧ c.workers = []

/-- Of what the requests make, `past` has been done; responses are left out of the queue only once
the socket is deleting, and from then on all of them are. -/
structure Answered (v : Server QHostAddress) (c : Connection QHostAddress)
    (past : List Output) : Prop where
  given : c.given.flatMap v.execute = past ++ c.workers.flatMap (TActionWorker.remaining v)
  enqueued : c.enqueued <+: past.filterMap Output.bytes
  all : c.enqueued = past.filterMap Output.bytes ∨
    c.deleting ∧ ∀ w ∈ c.workers, w.checked = none
  fresh : ∀ w ∈ c.workers, w.httpRequest.isSome → w.reqs = []
  running : ∀ w ∈ c.workers, w.stopped = false

/-- What is sent and what is to be sent. -/
def Balanced (c : Connection QHostAddress) : Prop :=
  c.wire ++ c.sendBuf.flatMap pending = c.enqueued.flatten

variable {v : Server QHostAddress} {c d : Connection QHostAddress}
  {w : TActionWorker QHostAddress} {i : ℕ} {past : List Output}

lemma Threads.worker (h : Threads c) (hw : c.workers[i]? = some w) : c.workers = [w] ∧ i = 0 := by
  have hsingle := h.single
  cases hworkers : c.workers with
  | nil =>
    rw [hworkers] at hw
    cases hw
  | cons x xs =>
    rw [hworkers] at hw hsingle
    obtain rfl : xs = [] := List.length_eq_zero_iff.mp (by simpa using hsingle)
    cases i with
    | zero => exact ⟨by rw [Option.some.inj hw], rfl⟩
    | succ i => cases hw

lemma Threads.move (h : Threads c) (hw : d.workers = c.workers)
    (hc : d.myWorkerCounter = c.myWorkerCounter) (hp : d.polled = c.polled)
    (hd : d.deleting = c.deleting) (hr : d.released = c.released)
    (hl : d.loop.Knows c.workers c.polled c.deleting) : Threads d where
  counter := by rw [hc, hw, h.counter]
  single := by rw [hw]; exact h.single
  loop := by rw [hw, hp, hd]; exact hl
  polled hpoll := by rw [hd]; exact h.polled (hp ▸ hpoll)
  released hrel := by rw [hd, hw]; exact h.released (hr ▸ hrel)

lemma Threads.set (h : Threads c) (hi : c.workers[i]? = some w)
    {w' : TActionWorker QHostAddress} (hw : d.workers = c.workers.set i w')
    (hc : d.myWorkerCounter = c.myWorkerCounter) (hp : d.polled = c.polled)
    (hd : d.deleting = c.deleting) (hr : d.released = c.released) (hl : d.loop = c.loop) :
    Threads d := by
  obtain ⟨hworkers, rfl⟩ := h.worker hi
  have hne : c.workers ≠ [] := hworkers ▸ List.cons_ne_nil w []
  rw [hworkers, List.set_cons_zero] at hw
  refine ⟨?_, ?_, ?_, ?_, ?_⟩
  · rw [hc, hw, h.counter, hworkers]
    rfl
  · rw [hw]
    exact Nat.le_refl 1
  · have hloop := h.loop
    rw [hp, hd, hl]
    cases hloc : c.loop with
    | recv | startWorker =>
      rw [hloc] at hloop
      exact absurd hloop.2 hne
    | _ =>
      rw [hloc] at hloop
      exact hloop
  · rw [hp, hd]
    exact h.polled
  · intro hrel
    rw [hr] at hrel
    exact absurd (h.released hrel).2 hne

lemma afterSend_knows {workers : List (TActionWorker QHostAddress)} {polled deleting : Bool}
    (canReceive : Bool) (h : polled) :
    (Connection.afterSend canReceive).Knows workers polled deleting := by
  cases canReceive with
  | false => trivial
  | true => exact h

lemma work_cases (h : c.work v i w = some d) :
    (∃ o, w.checked = some o ∧
      d = ({ c with workers := c.workers.set i { w with checked := none } }).output o) ∨
    (∃ bytes reqs, w.checked = none ∧ w.httpRequest = some bytes ∧
      generate v.fuel bytes v.peerAddress = some reqs ∧
      d = { c with
        workers := c.workers.set i { w with httpRequest := none, reqs := reqs }
        given := c.given ++ reqs }) ∨
    (∃ o outputs, w.checked = none ∧ w.httpRequest = none ∧ w.outputs = o :: outputs ∧
      (w.stopped || c.deleting) ∧
      d = { c with workers := c.workers.set i { w with outputs := outputs } }) ∨
    (∃ o outputs, w.checked = none ∧ w.httpRequest = none ∧ w.outputs = o :: outputs ∧
      (w.stopped || c.deleting) = false ∧
      d = { c with workers := c.workers.set i { w with outputs := outputs, checked := some o } }) ∨
    (∃ req reqs, w.checked = none ∧ w.httpRequest = none ∧ w.outputs = [] ∧ w.reqs = req :: reqs ∧
      w.stopped ∧ d = { c with workers := c.workers.set i { w with reqs := [] } }) ∨
    ∃ req reqs, w.checked = none ∧ w.httpRequest = none ∧ w.outputs = [] ∧ w.reqs = req :: reqs ∧
      d = { c with
        workers := c.workers.set i
          { w with reqs := reqs, started := true, outputs := v.execute req } } := by
  obtain ⟨httpRequest, reqs, started, outputs, checked, stopped⟩ := w
  cases checked with
  | some o => exact .inl ⟨o, rfl, (Option.some.inj h).symm⟩
  | none =>
    cases httpRequest with
    | some bytes =>
      obtain ⟨reqs', hgen, rfl⟩ := Option.map_eq_some_iff.mp h
      exact .inr (.inl ⟨bytes, reqs', rfl, rfl, hgen, rfl⟩)
    | none =>
      cases outputs with
      | cons o outputs =>
        simp only [Connection.work] at h
        split at h
        · rename_i hflags
          exact .inr (.inr (.inl ⟨o, outputs, rfl, rfl, rfl, hflags, (Option.some.inj h).symm⟩))
        · rename_i hflags
          exact .inr (.inr (.inr (.inl ⟨o, outputs, rfl, rfl, rfl,
            Bool.eq_false_of_not_eq_true hflags, (Option.some.inj h).symm⟩)))
      | nil =>
        cases reqs with
        | nil => cases h
        | cons req reqs =>
          simp only [Connection.work] at h
          split at h
          · rename_i hflags
            exact .inr (.inr (.inr (.inr (.inl ⟨req, reqs, rfl, rfl, rfl, rfl,
              (Bool.and_eq_true_iff.mp hflags).2, (Option.some.inj h).symm⟩))))
          · exact .inr (.inr (.inr (.inr (.inr ⟨req, reqs, rfl, rfl, rfl, rfl,
              (Option.some.inj h).symm⟩))))

lemma answered_one {w : TActionWorker QHostAddress} (hworkers : c.workers = [w])
    (hgiven : c.given.flatMap v.execute = past ++ w.remaining v)
    (henq : c.enqueued <+: past.filterMap Output.bytes)
    (hall : c.enqueued = past.filterMap Output.bytes ∨
      c.deleting ∧ w.checked = none)
    (hfresh : w.httpRequest.isSome → w.reqs = []) (hrunning : w.stopped = false) :
    Answered v c past where
  given := by rw [hworkers, List.flatMap_singleton, hgiven]
  enqueued := henq
  all := by
    rw [hworkers]
    exact hall.imp_right fun h => ⟨h.1, List.forall_mem_singleton.mpr h.2⟩
  fresh := by
    rw [hworkers]
    exact List.forall_mem_singleton.mpr hfresh
  running := by
    rw [hworkers]
    exact List.forall_mem_singleton.mpr hrunning

lemma filterMap_done {l : List Output} (h : c.enqueued <+: past.filterMap Output.bytes) :
    c.enqueued <+: (past ++ l).filterMap Output.bytes := by
  rw [List.filterMap_append]
  exact h.trans (List.prefix_append _ _)

lemma Answered.output {o : Output} (hworkers : c.workers = [w]) (h : Answered v c past)
    (hchecked : w.checked = some o) :
    Answered v (({ c with workers := [{ w with checked := none }] }).output o) (past ++ [o]) := by
  obtain ⟨hgiven, -, hall, hfresh, hrunning⟩ := h
  rw [hworkers] at hgiven hall hfresh hrunning
  have henq : c.enqueued = past.filterMap Output.bytes := by
    refine hall.resolve_right fun h => ?_
    have hnone := h.2 w (List.mem_singleton_self w)
    rw [hchecked] at hnone
    cases hnone
  have hgiven' : c.given.flatMap v.execute =
      (past ++ [o]) ++ TActionWorker.remaining v { w with checked := none } := by
    rw [hgiven, List.flatMap_singleton, TActionWorker.remaining, TActionWorker.remaining, hchecked]
    simp
  have hfresh' := hfresh w (List.mem_singleton_self w)
  have hrunning' := hrunning w (List.mem_singleton_self w)
  cases o with
  | sendData response file =>
    have heq : c.enqueued ++ [response ++ file.getD []] =
        (past ++ [Output.sendData response file]).filterMap Output.bytes := by
      rw [List.filterMap_append, henq]
      rfl
    exact answered_one rfl hgiven' (heq ▸ List.prefix_refl _) (.inl heq) hfresh' hrunning'
  | disconnect =>
    have heq : c.enqueued = (past ++ [Output.disconnect]).filterMap Output.bytes := by
      rw [List.filterMap_append, henq]
      exact (List.append_nil _).symm
    exact answered_one rfl hgiven' (heq ▸ List.prefix_refl _) (.inl heq) hfresh' hrunning'

lemma Answered.work (h : Answered v c past) (ht : Threads c) (hi : c.workers[i]? = some w)
    (hstep : c.work v i w = some d) : ∃ past', Answered v d past' := by
  obtain ⟨hworkers, rfl⟩ := ht.worker hi
  have hset (w' : TActionWorker QHostAddress) : c.workers.set 0 w' = [w'] := by
    rw [hworkers, List.set_cons_zero]
  have hw : w ∈ c.workers := hworkers ▸ List.mem_singleton_self w
  have hfresh := h.fresh w hw
  have hrunning := h.running w hw
  have hall : c.enqueued = past.filterMap Output.bytes ∨
      c.deleting ∧ w.checked = none :=
    h.all.imp_right fun hlossy => ⟨hlossy.1, hlossy.2 w hw⟩
  have hgiven := h.given
  rw [hworkers, List.flatMap_singleton, TActionWorker.remaining] at hgiven
  obtain ⟨o, hchecked, rfl⟩ | ⟨bytes, reqs, hchecked, hreq, -, rfl⟩ |
    ⟨o, outputs, hchecked, hreq, hout, hflags, rfl⟩ |
    ⟨o, outputs, hchecked, hreq, hout, hflags, rfl⟩ |
    ⟨req, reqs, hchecked, hreq, hout, hreqs, hflags, rfl⟩ |
    ⟨req, reqs, hchecked, hreq, hout, hreqs, rfl⟩ := work_cases hstep
  · rw [hset]
    exact ⟨_, h.output hworkers hchecked⟩
  · -- the requests are found
    have hnil := hfresh (by rw [hreq]; rfl)
    refine ⟨past, answered_one (hset _) ?_ h.enqueued hall nofun hrunning⟩
    rw [List.flatMap_append, hgiven, TActionWorker.remaining, hnil, List.flatMap_nil,
      List.append_nil, List.append_assoc]
  · -- left out
    refine ⟨past ++ [o], answered_one (hset _) ?_ (filterMap_done h.enqueued)
      (.inr ⟨by simpa [hrunning] using hflags, hchecked⟩) hfresh hrunning⟩
    rw [hgiven, hout, TActionWorker.remaining, hchecked]
    simp
  · -- found not deleting
    have henq := hall.resolve_right fun hlossy => by
      rw [hlossy.1, Bool.or_true] at hflags
      cases hflags
    refine ⟨past, answered_one (hset _) ?_ h.enqueued (.inl henq) hfresh hrunning⟩
    rw [hgiven, hout, hchecked]
    rfl
  · -- no worker leaves its requests
    rw [hrunning] at hflags
    cases hflags
  · -- the next request is executed
    refine ⟨past, answered_one (hset _) ?_ h.enqueued hall (fun hsome => ?_) hrunning⟩
    · dsimp only [TActionWorker.remaining]
      rw [hgiven, hout, hreqs, hchecked, List.flatMap_cons]
      simp
    · rw [hreq] at hsome
      cases hsome

/-! ### Sending -/

lemma pending_settle (b : TSendBuffer) (bufs : List TSendBuffer) :
    (Connection.settle b bufs).flatMap pending = pending b ++ bufs.flatMap pending := by
  rw [Connection.settle]
  split_ifs with hend
  · rw [(atEnd_iff b).mp hend, List.nil_append]
  · exact List.flatMap_cons

lemma take_getData (b : TSendBuffer) {size : ℤ} (hsize : 0 < size) {bytes : QByteArray}
    (hbytes : (b.getData size false).1 = some bytes) (n : ℕ) :
    bytes.take n ++ pending ((b.getData size false).2.seekData (min n bytes.length)).2 =
      pending b := by
  obtain ⟨hpending, hbegin⟩ := getData_spec b hsize
  rw [hbytes, Option.getD_some] at hbegin
  have hseek := seekData_spec (b.getData size false).2 (n := min n bytes.length) (by omega)
  have hnat : (min (n : ℤ) bytes.length).toNat = min n bytes.length := by omega
  have htake : ((b.getData size false).2.arrayBuffer.drop
      (b.getData size false).2.startPos).take (min n bytes.length) = bytes.take n := by
    rw [← List.take_take, ← List.prefix_iff_eq_take.mp hbegin]
  rwa [hnat, htake, hpending] at hseek

lemma Balanced.send (h : Balanced c) (canReceive : Bool) (sent : Sent) :
    Balanced (c.send v canReceive false sent) := by
  rw [Connection.send]
  split
  · exact h
  rename_i buf bufs hbuf
  rw [Balanced, hbuf, List.flatMap_cons] at h
  have hpending := (getData_spec buf v.sendBufSize_pos).1
  have hsettle : c.wire ++
      (Connection.settle (buf.getData v.sendBufSize false).2 bufs).flatMap pending =
        c.enqueued.flatten := by
    rw [pending_settle, hpending, h]
  dsimp only
  cases hbytes : (buf.getData v.sendBufSize false).1 with
  | none => exact hsettle
  | some bytes =>
    cases sent with
    | again | failed => exact hsettle
    | bytes n =>
      dsimp only
      split_ifs
      · exact hsettle
      · have htake := take_getData buf v.sendBufSize_pos hbytes n
        rw [Balanced, List.flatMap_cons]
        dsimp only
        rw [List.append_assoc, ← List.append_assoc (bytes.take n)]
        rw [htake, h]

lemma Balanced.output (h : Balanced c) (o : Output) : Balanced (c.output o) := by
  cases o with
  | disconnect => exact h
  | sendData response file =>
    rw [Balanced] at h
    simp only [Balanced, Connection.output]
    rw [List.flatMap_append, List.flatMap_singleton, pending_create, List.flatten_append,
      List.flatten_singleton, ← h, List.append_assoc]

/-! ### Runs -/

structure Inv (v : Server QHostAddress) (c : Connection QHostAddress) : Prop where
  threads : Threads c
  answered : ∃ past, Answered v c past
  balanced : Balanced c

lemma inv_init (v : Server QHostAddress) : Inv v {} where
  threads := ⟨rfl, Nat.zero_le 1, trivial, fun _ => rfl, nofun⟩
  answered := ⟨[], rfl, List.prefix_refl [], .inl rfl, nofun, nofun⟩
  balanced := rfl

lemma Inv.goOn (h : Inv v c) {l : LoopPc} (hl : l.Knows c.workers c.polled c.deleting)
    {http : TEpollHttpSocket} {requests : List SendRequest} {pollIn pollOut : Bool}
    {arrived : List QByteArray} :
    Inv v { c with
      http := http, sendRequests := requests, pollIn := pollIn, pollOut := pollOut, loop := l
      arrived := arrived } where
  threads := h.threads.move rfl rfl rfl rfl rfl hl
  answered := by
    obtain ⟨past, hpast⟩ := h.answered
    exact ⟨past, hpast.given, hpast.enqueued, hpast.all, hpast.fresh, hpast.running⟩
  balanced := h.balanced

lemma Inv.flags (h : Inv v c) {l : LoopPc} {polled opened deleting released : Bool}
    {requests : List SendRequest} {pollIn releasing : Bool}
    (hl : l.Knows c.workers polled deleting) (hpolled : polled → deleting = false)
    (hdel : c.deleting → deleting)
    (hrel : released → deleting ∧ c.workers = []) :
    Inv v { c with
      loop := l, polled := polled, opened := opened, deleting := deleting, released := released
      sendRequests := requests, pollIn := pollIn, releasing := releasing } where
  threads := ⟨h.threads.counter, h.threads.single, hl, hpolled, hrel⟩
  answered := by
    obtain ⟨past, hgiven, henq, hall, hfresh, hrunning⟩ := h.answered
    exact ⟨past, hgiven, henq, hall.imp_right fun hlossy => ⟨hdel hlossy.1, hlossy.2⟩, hfresh,
      hrunning⟩
  balanced := h.balanced

lemma send_frame (v : Server QHostAddress) (c : Connection QHostAddress)
    (canReceive readError : Bool) (sent : Sent) :
    ∃ bufs wire l, c.send v canReceive readError sent =
      { c with sendBuf := bufs, wire := wire, loop := l } ∧
        (l = c.loop ∨ l = Connection.afterSend canReceive ∨ l = .close) := by
  rw [Connection.send]
  split
  · exact ⟨_, _, _, rfl, .inr (.inl rfl)⟩
  dsimp only
  split
  · exact ⟨_, _, _, rfl, .inl rfl⟩
  cases sent with
  | again => exact ⟨_, _, _, rfl, .inr (.inl rfl)⟩
  | failed => exact ⟨_, _, _, rfl, .inr (.inr rfl)⟩
  | bytes n =>
    dsimp only
    split_ifs <;> exact ⟨_, _, _, rfl, .inl rfl⟩

lemma Inv.send (h : Inv v c) {canReceive : Bool} (hl : c.loop = .sending canReceive) (sent : Sent) :
    Inv v (c.send v canReceive false sent) := by
  have hbal := h.balanced.send (v := v) canReceive sent
  obtain ⟨past, hpast⟩ := h.answered
  obtain ⟨bufs, wire, l, heq, hcases⟩ := send_frame v c canReceive false sent
  rw [heq] at hbal ⊢
  refine ⟨?_, ⟨past, hpast.given, hpast.enqueued, hpast.all, hpast.fresh, hpast.running⟩,
    hbal⟩
  have hloop := h.threads.loop
  obtain rfl | rfl | rfl := hcases
  · exact h.threads.move rfl rfl rfl rfl rfl hloop
  · rw [hl] at hloop
    exact h.threads.move rfl rfl rfl rfl rfl (afterSend_knows canReceive hloop)
  · exact h.threads.move rfl rfl rfl rfl rfl trivial

lemma Inv.recv (h : Inv v c) (hl : c.loop = .recv) (received : Received) :
    Inv v (c.recv v received) := by
  have hloop := h.threads.loop
  cases received with
  | again =>
    rw [hl] at hloop
    exact h.goOn (l := .startWorker) hloop
  | failed => exact h.goOn (l := .close) trivial
  | piece p =>
    rw [Connection.recv]
    split
    · exact h.goOn (l := .thrown) trivial
    · exact h.goOn hloop

lemma Inv.startWorker (h : Inv v c) (hl : c.loop = .startWorker) : Inv v c.startWorker := by
  have hloop := h.threads.loop
  rw [hl] at hloop
  obtain ⟨hpolled, hworkers⟩ := hloop
  obtain ⟨past, hgiven, henq, hall, hfresh, hrunning⟩ := h.answered
  rw [Connection.startWorker]
  split
  · refine ⟨⟨?_, ?_, trivial, h.threads.polled, ?_⟩, ⟨past, ?_, henq, ?_, ?_, ?_⟩, h.balanced⟩
    · rw [h.threads.counter, hworkers]
      rfl
    · rw [hworkers]
      exact Nat.le_refl 1
    · intro hrel
      have hdel := (h.threads.released hrel).1
      rw [h.threads.polled hpolled] at hdel
      cases hdel
    · rw [hgiven, hworkers]
      rfl
    · refine hall.imp_right fun hlossy => ⟨hlossy.1, ?_⟩
      rw [hworkers]
      exact List.forall_mem_singleton.mpr rfl
    · rw [hworkers]
      exact List.forall_mem_singleton.mpr fun _ => rfl
    · rw [hworkers]
      exact List.forall_mem_singleton.mpr rfl
  · exact h.goOn (l := .away) trivial

lemma Threads.gone (h : Threads c) (hdel : c.deleting)
    (hrel : (c.released || (c.myWorkerCounter = 0 : Bool)) = true) :
    c.deleting ∧ c.workers = [] := by
  refine ⟨hdel, ?_⟩
  rw [Bool.or_eq_true, decide_eq_true_eq] at hrel
  obtain hrel | hzero := hrel
  · exact (h.released hrel).2
  · rw [h.counter] at hzero
    exact List.length_eq_zero_iff.mp hzero

/-- A file fails to be read, or a worker is stopped, as only the application can do. -/
def Act.disturbs : Act → Bool
  | .send readError _ => readError
  | .stop _ => true
  | _ => false

lemma Inv.work (h : Inv v c) (hi : c.workers[i]? = some w) (hstep : c.work v i w = some d) :
    Inv v d := by
  obtain ⟨past, hpast⟩ := h.answered
  obtain ⟨past', hpast'⟩ := hpast.work h.threads hi hstep
  refine ⟨?_, ⟨past', hpast'⟩, ?_⟩
  · obtain ⟨o, -, rfl⟩ | ⟨_, _, -, -, -, rfl⟩ | ⟨_, _, -, -, -, -, rfl⟩ |
      ⟨_, _, -, -, -, -, rfl⟩ | ⟨_, _, -, -, -, -, -, rfl⟩ | ⟨_, _, -, -, -, -, rfl⟩ :=
      work_cases hstep
    · cases o <;> exact h.threads.set hi rfl rfl rfl rfl rfl rfl
    all_goals exact h.threads.set hi rfl rfl rfl rfl rfl rfl
  · obtain ⟨o, -, rfl⟩ | ⟨_, _, -, -, -, rfl⟩ | ⟨_, _, -, -, -, -, rfl⟩ |
      ⟨_, _, -, -, -, -, rfl⟩ | ⟨_, _, -, -, -, -, -, rfl⟩ | ⟨_, _, -, -, -, -, rfl⟩ :=
      work_cases hstep
    · have hc : Balanced { c with workers := c.workers.set i { w with checked := none } } :=
        h.balanced
      exact hc.output o
    all_goals exact h.balanced

lemma remaining_finished (v : Server QHostAddress) (hw : w.finished) : w.remaining v = [] := by
  simp only [TActionWorker.finished, Bool.and_eq_true, List.isEmpty_iff,
    Option.isNone_iff_eq_none] at hw
  obtain ⟨⟨⟨-, hreqs⟩, hout⟩, hchecked⟩ := hw
  rw [TActionWorker.remaining, hreqs, hout, hchecked]
  rfl

lemma Inv.releaseWorker (h : Inv v c) (hi : c.workers[i]? = some w) (hw : w.finished)
    {releasing : Bool} :
    Inv v { c with
      workers := c.workers.eraseIdx i, myWorkerCounter := c.myWorkerCounter - 1
      releasing := releasing } := by
  obtain ⟨hworkers, rfl⟩ := h.threads.worker hi
  have herase : c.workers.eraseIdx 0 = [] := by rw [hworkers, List.eraseIdx_cons_zero]
  obtain ⟨past, hgiven, henq, hall, hfresh, hrunning⟩ := h.answered
  rw [hworkers, List.flatMap_singleton, remaining_finished v hw, List.append_nil] at hgiven
  rw [herase]
  refine ⟨⟨?_, Nat.zero_le 1, ?_, h.threads.polled, ?_⟩,
    ⟨past, ?_, henq, hall.imp_right fun hlossy => ⟨hlossy.1, nofun⟩, nofun, nofun⟩, h.balanced⟩
  · rw [h.threads.counter, hworkers]
    rfl
  · have hloop := h.threads.loop
    dsimp only
    cases hloc : c.loop with
    | recv | startWorker =>
      rw [hloc] at hloop
      exact ⟨hloop.1, rfl⟩
    | _ =>
      rw [hloc] at hloop
      exact hloop
  · exact fun hrel => ⟨(h.threads.released hrel).1, rfl⟩
  · rw [hgiven]
    exact (List.append_nil _).symm

lemma Inv.step (h : Inv v c) {a : Act} (ha : a.disturbs = false) (hstep : c.step v a = some d) :
    Inv v d := by
  have hthreads := h.threads
  have hloop := hthreads.loop
  cases a with
  | event canSend canReceive =>
    simp only [Connection.step, Option.ite_none_right_eq_some, Option.some.injEq] at hstep
    obtain ⟨⟨-, hpolled⟩, rfl⟩ := hstep
    cases canSend with
    | true => exact h.goOn (l := .count canReceive) hpolled
    | false => exact h.goOn (afterSend_knows canReceive hpolled)
  | dispatchSendData =>
    simp only [Connection.step] at hstep
    split at hstep
    · rename_i request requests hl hrequests
      split_ifs at hstep with hopened
      · obtain rfl := Option.some.inj hstep
        exact h.goOn hloop
      · cases request with
        | disconnect =>
          obtain rfl := Option.some.inj hstep
          exact h.goOn (l := .close) trivial
        | switchToWebSocket header =>
          obtain rfl := Option.some.inj hstep
          exact h.flags (l := .deleteLater) rfl nofun id hthreads.released
    · cases hstep
  | keepAliveTimeout =>
    simp only [Connection.step, Option.ite_none_right_eq_some, Option.some.injEq] at hstep
    obtain ⟨-, rfl⟩ := hstep
    exact h.goOn (l := .close) trivial
  | count zero =>
    simp only [Connection.step] at hstep
    split at hstep
    · rename_i canReceive hl
      rw [hl] at hloop
      obtain rfl := Option.some.inj hstep
      cases zero with
      | true => exact h.goOn (afterSend_knows canReceive hloop)
      | false => exact h.goOn (l := .checkDeleting canReceive) hloop
    · cases hstep
  | checkDeleting =>
    simp only [Connection.step] at hstep
    split at hstep
    · rename_i canReceive hl
      rw [hl] at hloop
      obtain rfl := Option.some.inj hstep
      split_ifs
      · exact h.goOn (afterSend_knows canReceive hloop)
      · exact h.goOn (l := .sending canReceive) hloop
    · cases hstep
  | send readError sent =>
    obtain rfl : readError = false := ha
    simp only [Connection.step] at hstep
    split at hstep
    · rename_i canReceive hl
      obtain rfl := Option.some.inj hstep
      exact h.send hl sent
    · cases hstep
  | countWorker tooMany =>
    simp only [Connection.step, Option.ite_none_right_eq_some, Option.some.injEq] at hstep
    obtain ⟨hl, rfl⟩ := hstep
    rw [hl] at hloop
    split_ifs with _ hcount
    · exact h.goOn (l := .away) trivial
    · exact h.goOn (l := .setPollIn) hloop
    · -- the bytes go to `recv` only where there is no worker
      rw [hthreads.counter] at hcount
      exact h.goOn (l := .recv) ⟨hloop, List.length_eq_zero_iff.mp (by omega)⟩
  | setPollIn =>
    simp only [Connection.step, Option.ite_none_right_eq_some, Option.some.injEq] at hstep
    obtain ⟨-, rfl⟩ := hstep
    exact h.goOn (l := .away) trivial
  | recv received =>
    simp only [Connection.step, Option.ite_none_right_eq_some, Option.some.injEq] at hstep
    obtain ⟨hl, rfl⟩ := hstep
    exact h.recv hl received
  | startWorker =>
    simp only [Connection.step, Option.ite_none_right_eq_some, Option.some.injEq] at hstep
    obtain ⟨hl, rfl⟩ := hstep
    exact h.startWorker hl
  | close =>
    simp only [Connection.step, Option.ite_none_right_eq_some, Option.some.injEq] at hstep
    obtain ⟨-, rfl⟩ := hstep
    exact h.flags (l := .deleteLater) rfl nofun id hthreads.released
  | deleteLater =>
    simp only [Connection.step, Option.ite_none_right_eq_some, Option.some.injEq] at hstep
    obtain ⟨hl, rfl⟩ := hstep
    rw [hl] at hloop
    have hpolled : c.polled = false := hloop
    refine h.flags (l := .release) rfl ?_ (fun _ => rfl)
      fun hrel => ⟨rfl, (hthreads.released hrel).2⟩
    -- only what is not polled is deleted
    rw [hpolled]
    exact nofun
  | release =>
    simp only [Connection.step, Option.ite_none_right_eq_some, Option.some.injEq] at hstep
    obtain ⟨hl, rfl⟩ := hstep
    rw [hl] at hloop
    exact h.flags (l := .away) trivial hthreads.polled id (hthreads.gone hloop)
  | work i =>
    obtain ⟨w, hi, hstep⟩ := Option.bind_eq_some_iff.mp hstep
    exact h.work hi hstep
  | releaseWorker i =>
    simp only [Connection.step, Option.ite_none_right_eq_some, Option.some.injEq,
      Bool.and_eq_true, Option.any_eq_true] at hstep
    obtain ⟨⟨-, w, hi, hw⟩, rfl⟩ := hstep
    exact h.releaseWorker hi hw
  | checkReleased =>
    simp only [Connection.step, Option.ite_none_right_eq_some, Option.some.injEq] at hstep
    obtain ⟨-, rfl⟩ := hstep
    rw [Connection.checkReleased]
    split_ifs with hdel
    · exact h.flags hloop hthreads.polled id (hthreads.gone hdel)
    · exact h.flags hloop hthreads.polled id hthreads.released
  | stop i => cases ha

lemma inv_run {acts : List Act} (h : Inv v c) (hrun : acts.foldlM (Connection.step v) c = some d)
    (hquiet : ∀ a ∈ acts, a.disturbs = false) : Inv v d := by
  induction acts generalizing c with
  | nil =>
    obtain rfl := Option.some.inj hrun
    exact h
  | cons a acts ih =>
    obtain ⟨b, hstep, hrun⟩ := Option.bind_eq_some_iff.mp hrun
    exact ih (h.step (hquiet a List.mem_cons_self) hstep) hrun
      fun x hx => hquiet x (List.mem_cons_of_mem a hx)

/-- The responses that a list of requests makes, one after another. -/
def answers (v : Server QHostAddress) (reqs : List (THttpRequest QHostAddress)) : QByteArray :=
  ((reqs.flatMap v.execute).filterMap Output.bytes).flatten

lemma flatten_begins {β : Type*} {l l' : List (List β)} (h : l <+: l') :
    l.flatten <+: l'.flatten := by
  obtain ⟨t, rfl⟩ := h
  rw [List.flatten_append]
  exact List.prefix_append _ _

lemma Inv.answers (h : Inv v c) :
    c.wire <+: answers v c.given ∧
      (c.workers = [] → c.sendBuf = [] → c.deleting = false →
        c.wire = EpollServer.answers v c.given) := by
  obtain ⟨past, hgiven, henq, hall, -, -⟩ := h.answered
  have hbal := h.balanced
  constructor
  · have hsent : c.wire <+: c.enqueued.flatten := ⟨_, hbal⟩
    have hpast : past.filterMap Output.bytes <+:
        (c.given.flatMap v.execute).filterMap Output.bytes := by
      rw [hgiven, List.filterMap_append]
      exact List.prefix_append _ _
    exact hsent.trans (flatten_begins (henq.trans hpast))
  · intro hworkers hempty hflags
    rw [Balanced, hempty, List.flatMap_nil, List.append_nil] at hbal
    rw [hworkers, List.flatMap_nil, List.append_nil] at hgiven
    have heq := hall.resolve_right fun hlossy => by
      rw [hflags] at hlossy
      exact Bool.false_ne_true hlossy.1
    rw [hbal, heq, EpollServer.answers, hgiven]

/-- **Responses in order**: however the threads and the client come about, there is at most one
worker at a connection, none once the socket goes, and what is sent is a beginning of the
responses to the requests in their order; it is all of them once the worker is done and the queue
empty, if the socket is not deleting. No file of a response may fail to be read, and no worker be
stopped. -/
theorem answers_in_order {acts : List Act} (hrun : Connection.run v acts = some c)
    (hquiet : ∀ a ∈ acts, a.disturbs = false) :
    c.workers.length ≤ 1 ∧ (c.released → c.workers = []) ∧ c.wire <+: answers v c.given ∧
      (c.workers = [] → c.sendBuf = [] → c.deleting = false →
        c.wire = answers v c.given) := by
  have h := inv_run (inv_init v) hrun hquiet
  exact ⟨h.threads.single, fun hrel => (h.threads.released hrel).2, h.answers⟩

/-- Every request is answered with its body, which is read from a file. -/
def echo : Server Unit where
  limitBodyBytes := 0
  searchEndpoint := fun _ => false
  fuel := 3
  peerAddress := ()
  sendBufSize := 4
  execute req := [.sendData (ascii "ok ") (some req.bodyArray)]

/-- A request in two pieces; while its response is sent in part, the next one waits. -/
def sampleActs : List Act :=
  [.event true true, .count true, .countWorker false, .recv (.piece Pipeline.postRequest.head),
    .recv .again, .startWorker, .event false true, .countWorker false,
    .recv (.piece Pipeline.postRequest.body), .recv .again, .startWorker, .work 0, .work 0, .work 0,
    .work 0, .event true true, .count false, .checkDeleting, .send false (.bytes 2),
    .send false .again, .countWorker false, .setPollIn, .releaseWorker 0, .checkReleased,
    .event true true, .count false, .checkDeleting, .send false (.bytes 9), .send false (.bytes 2),
    .send false .again, .countWorker false, .recv (.piece Pipeline.getRequest.bytes), .recv .again,
    .startWorker]

theorem answers_in_order_sample :
    ∃ c, Connection.run echo sampleActs = some c ∧ c.wire = ascii "ok \r\n" ∧
      c.workers.length ≤ 1 ∧ c.wire <+: answers echo c.given := by
  have hrun : (Connection.run echo sampleActs).map (·.wire) = some (ascii "ok \r\n") := by
    decide +kernel
  obtain ⟨c, hc, hwire⟩ := Option.map_eq_some_iff.mp hrun
  obtain ⟨hone, -, hbegin, -⟩ := answers_in_order hc (by decide)
  exact ⟨c, hc, hwire, hone, hbegin⟩

end TreeFrog.EpollServer
