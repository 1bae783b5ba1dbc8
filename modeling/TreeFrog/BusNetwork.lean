import TreeFrog.BusDaemon
import TreeFrog.Publisher
import TreeFrog.SystemBusStream

/-!
The publishers of all servers on one bus: what one server publishes goes as bytes to the daemon,
which writes it to the other servers, each of which publishes it to its own subscribers. Bytes take
their time and arrive in pieces of any size; the servers and the daemon take their steps in any
order.

Seen from outside, the bus is a queue of publications from each server to each other one.
-/

namespace TreeFrog.BusNetwork

open Bytes DataStream SystemBus SystemBusStream Publisher Function
open BusDaemon (SystemBusDaemon ReadyRead readLoop Completes IsSent)

variable {ι S : Type} [DecidableEq ι] [LinearOrder S]

/-! ### Messages -/

def opByte : ServerOpCode → UInt8
  | .webSocketSendText => 1
  | .webSocketSendBinary => 2
  | .webSocketPublishText => 3
  | .webSocketPublishBinary => 4
  | .other code => code

def opCodeOf (code : UInt8) : ServerOpCode :=
  if code = 1 then .webSocketSendText
  else if code = 2 then .webSocketSendBinary
  else if code = 3 then .webSocketPublishText
  else if code = 4 then .webSocketPublishBinary
  else .other code

/-- What `TSystemBus::send` makes a message of. -/
def sentOf (m : BusMessage) : Sent := ⟨opByte m.opCode, toQString m.target, some m.data⟩

/-- What `receiveSystemBus` reads of a message. -/
def busMessageOf (m : Sent) : BusMessage :=
  ⟨opCodeOf m.opCode, fromQString m.target, m.data.getD []⟩

/-! ### The servers and the daemon -/

/-- A call of `publish`. -/
structure Publication (S : Type) where
  topic : String
  message : Message
  socket : Option (TAbstractWebSocket S)

/-- A server; `publishing` are the calls of `publish` that have sent their message and have not
come to the lock. -/
structure Server (S : Type) where
  publisher : TPublisher S
  publishing : List (Publication S)
  sendBuffer : QByteArray
  readBuffer : QByteArray

/-- What `write` returns, and `waitForBytesWritten` after it. -/
inductive Write where
  | error
  | wrote (len : ℕ) (waited : Bool)

/-- `writeBus`: what is written. The buffer is empty behind it; what is not written is lost. -/
def writeBus : List Write → QByteArray → Option QByteArray
  | [], _ => none
  | .error :: _, _ => some []
  | .wrote len waited :: ws, sendBuffer =>
    if sendBuffer.drop len = [] then some sendBuffer
    else if waited then (writeBus ws (sendBuffer.drop len)).map (sendBuffer.take len ++ ·)
    else some (sendBuffer.take len)

/-- `toDaemon` has been written by a server and has not arrived at the daemon; `written` of the
daemon has not been read by the server. -/
structure Network (ι S : Type) where
  server : ι → Server S
  toDaemon : ι → QByteArray
  daemon : SystemBusDaemon ι

inductive Act (ι S : Type) where
  | call (i : ι) (e : Publisher.Event S)
  | send (i : ι) (p : Publication S)
  | publish (i : ι) (k : ℕ)
  | writeBus (i : ι) (ws : List Write)
  | readSocket (e : ReadyRead ι)
  | readBus (i : ι) (n : ℕ)

namespace Server

/-- The part of `publish` before the lock. -/
def send (app : TWebApplication) (s : Server S) (p : Publication S) : Server S :=
  let msg := TPublisher.busMessage app p.topic p.message
  if app.maxNumberOfAppServers > 1 then
    { s with
      publisher := { s.publisher with bus := s.publisher.bus ++ [msg] }
      sendBuffer := s.sendBuffer ++ (sentOf msg).bytes
      publishing := s.publishing ++ [p] }
  else { s with publishing := s.publishing ++ [p] }

/-- The part of `publish` behind the lock. -/
def publish (app : TWebApplication) (s : Server S) (k : ℕ) : Server S :=
  match s.publishing[k]? with
  | none => s
  | some p => { s with
      publisher := s.publisher.publishLocal p.topic p.message (castToObject app p.socket)
      publishing := s.publishing.eraseIdx k }

/-- `readBus`, and `receiveSystemBus` if it is ready. -/
def read (app : TWebApplication) (s : Server S) (chunk : QByteArray) : Option (Server S) :=
  let (ready, readBuffer) := readBus s.readBuffer chunk
  if ready then
    (recvAll (readBuffer.length + 1) readBuffer).map fun (messages, left) =>
      { s with
        publisher :=
          s.publisher.receiveSystemBus app (messages.map fun m => busMessageOf (content m))
        readBuffer := left }
  else some { s with readBuffer := readBuffer }

end Server

namespace Network

def set (net : Network ι S) (i : ι) (s : Server S) : Network ι S :=
  { net with server := update net.server i s }

/-- A call that does not come to an end is `none`. -/
def step (app : TWebApplication) (net : Network ι S) : Act ι S → Option (Network ι S)
  | .call i e =>
    some (net.set i { net.server i with
      publisher := Publisher.step app (net.server i).publisher e })
  | .send i p => some (net.set i ((net.server i).send app p))
  | .publish i k => some (net.set i ((net.server i).publish app k))
  | .writeBus i ws =>
    (BusNetwork.writeBus ws (net.server i).sendBuffer).map fun bytes =>
      { net.set i { net.server i with sendBuffer := [] } with
        toDaemon := update net.toDaemon i (net.toDaemon i ++ bytes) }
  | .readSocket e =>
    (BusDaemon.readSocket app.maxNumberOfAppServers net.daemon e).map fun daemon =>
      { net with
        daemon := daemon
        toDaemon := update net.toDaemon e.socket
          ((net.toDaemon e.socket).drop (e.arrived ++ e.waits.flatten).length) }
  | .readBus i n =>
    ((net.server i).read app ((net.daemon.written i).take n)).map fun s =>
      { net.set i s with
        daemon := { net.daemon with
          written := update net.daemon.written i ((net.daemon.written i).drop n) } }

def run (app : TWebApplication) (net : Network ι S) (acts : List (Act ι S)) :
    Option (Network ι S) :=
  acts.foldlM (step app) net

def start : Network ι S :=
  ⟨fun _ => ⟨Publisher.init, [], [], []⟩, fun _ => [], BusDaemon.start⟩

/-- Nothing is under way. -/
structure Quiet (net : Network ι S) : Prop where
  sendBuffer : ∀ i, (net.server i).sendBuffer = []
  toDaemon : ∀ i, net.toDaemon i = []
  socketBuffer : ∀ i, net.daemon.socketBuffer i = []
  written : ∀ i, net.daemon.written i = []

end Network

/-- Calls of the publisher that have nothing to do with the bus. -/
def IsLocal : Publisher.Event S → Prop
  | .publish _ _ _ | .receiveSystemBus _ => False
  | .subscribe _ _ _ | .unsubscribe _ _ | .unsubscribeFromAll _ | .deliver _ => True

/-- What can happen: subscribers are sockets of the module in use, messages are shorter than `2^31`
bytes and a text is got back from its bytes (one that begins with a byte order mark is not), what
arrives has been written, no write fails, and the daemon does not give up on a message of which a
part is there. -/
def Possible (app : TWebApplication) (net : Network ι S) : Act ι S → Prop
  | .call _ e => e.Live app ∧ IsLocal e
  | .send _ p => (sentOf (TPublisher.busMessage app p.topic p.message)).message.payload.length +
      HEADER_LEN < 2 ^ 31 ∧ ∀ s, p.message = .text s → app.fromUtf8 (app.toUtf8 s) = s
  | .publish _ _ => True
  | .writeBus i ws => (∀ w ∈ ws, ∃ len, w = .wrote len true) ∧
      (writeBus ws (net.server i).sendBuffer).isSome
  | .readSocket e => e.arrived ++ e.waits.flatten <+: net.toDaemon e.socket ∧
      Completes (net.daemon.socketBuffer e.socket ++ e.arrived) e.waits
  | .readBus _ _ => True

def Runs (app : TWebApplication) : Network ι S → List (Act ι S) → Prop
  | _, [] => True
  | net, a :: acts => Possible app net a ∧ ∀ net', net.step app a = some net' → Runs app net' acts

/-! ### What the bus is for -/

/-- What each server keeps of its subscriptions and of what is due to its sockets, and what it has
not yet got of each other server. -/
structure Channels (ι S : Type) where
  book : ι → Book S
  publishing : ι → List (Publication S)
  channel : ι → ι → List (String × Message)

namespace Channels

/-- As before, but for the bytes; and the next publication of `i` gets to `j`. -/
inductive Act (ι S : Type) where
  | call (i : ι) (e : Publisher.Event S)
  | send (i : ι) (p : Publication S)
  | publish (i : ι) (k : ℕ)
  | receive (i j : ι)

/-- A publication is sent to all other servers. -/
def broadcast (channel : ι → ι → List (String × Message)) (i : ι) (p : String × Message) :
    ι → ι → List (String × Message) :=
  fun a b => if a = i ∧ b ≠ i then channel a b ++ [p] else channel a b

def step (app : TWebApplication) (ch : Channels ι S) : Act ι S → Option (Channels ι S)
  | .call i e => some { ch with book := update ch.book i ((ch.book i).step app e) }
  | .send i p => some { ch with
      publishing := update ch.publishing i (ch.publishing i ++ [p])
      channel := broadcast ch.channel i (p.topic, p.message) }
  | .publish i k =>
    match (ch.publishing i)[k]? with
    | none => some ch
    | some p => some { ch with
        book := update ch.book i
          ((ch.book i).publish p.topic p.message (castToObject app p.socket))
        publishing := update ch.publishing i ((ch.publishing i).eraseIdx k) }
  | .receive i j =>
    match ch.channel i j with
    | [] => none
    | (topic, message) :: rest => some { ch with
        book := update ch.book j ((ch.book j).publish topic message none)
        channel := update ch.channel i (update (ch.channel i) j rest) }

def run (app : TWebApplication) (ch : Channels ι S) (as : List (Act ι S)) :
    Option (Channels ι S) :=
  as.foldlM (step app) ch

def start : Channels ι S := ⟨fun _ => Book.init, fun _ => [], fun _ _ => []⟩

/-- What is not done by the bus. -/
def Act.isCall : Act ι S → Bool
  | .receive _ _ => false
  | .call _ _ | .send _ _ | .publish _ _ => true

end Channels

def Act.call? : Act ι S → Option (Channels.Act ι S)
  | .call i e => some (.call i e)
  | .send i p => some (.send i p)
  | .publish i k => some (.publish i k)
  | .writeBus _ _ | .readSocket _ | .readBus _ _ => none

/-! ### One message -/

/-- The message for a publication. -/
def messageFor (app : TWebApplication) (p : String × Message) : Sent :=
  sentOf (TPublisher.busMessage app p.1 p.2)

/-- A message that gets through, with its text. -/
structure Deliverable (app : TWebApplication) (p : String × Message) : Prop where
  valid : (messageFor app p).Valid
  text : ∀ s, p.2 = .text s → app.fromUtf8 (app.toUtf8 s) = s

section Message

variable {app : TWebApplication}

lemma valid_messageFor {p : String × Message}
    (h : (messageFor app p).message.payload.length + HEADER_LEN < 2 ^ 31) :
    (messageFor app p).Valid := by
  obtain ⟨topic, message⟩ := p
  cases message with
  | text s => exact ⟨(by decide : (0 : UInt8) < 3), (by decide : (3 : UInt8) ≤ 4), h⟩
  | binary b => exact ⟨(by decide : (0 : UInt8) < 4), (by decide : (4 : UInt8) ≤ 4), h⟩

lemma busMessageOf_messageFor (p : String × Message) :
    busMessageOf (messageFor app p) = TPublisher.busMessage app p.1 p.2 := by
  obtain ⟨topic, message⟩ := p
  simp only [busMessageOf, messageFor, sentOf, fromQString_toQString, Option.getD_some]
  cases message <;> rfl

lemma receive_busMessage {p : String × Message} (h : Deliverable app p) (b : Book S) :
    b.receive app (TPublisher.busMessage app p.1 p.2) = b.publish p.1 p.2 none := by
  obtain ⟨topic, message⟩ := p
  cases message with
  | text s => simp [Book.receive, TPublisher.received, TPublisher.busMessage, h.text s rfl]
  | binary b => rfl

lemma isSent_bytes {m : Sent} (h : m.Valid) : IsSent m.bytes := ⟨m.message, rfl, h.payload⟩

lemma bytes_ne_nil (m : Sent) : m.bytes ≠ [] := List.cons_ne_nil _ _

lemma stream_cons (m : Sent) (ms : List Sent) : stream (m :: ms) = m.bytes ++ stream ms := rfl

lemma stream_append (ms ms' : List Sent) : stream (ms ++ ms') = stream ms ++ stream ms' :=
  List.flatMap_append

lemma stream_eq_nil {ms : List Sent} (h : stream ms = []) : ms = [] := by
  cases ms with
  | nil => rfl
  | cons m ms => exact absurd (List.append_eq_nil_iff.mp h).1 (bytes_ne_nil m)

lemma eq_of_writeBus {ws : List Write} (hws : ∀ w ∈ ws, ∃ len, w = .wrote len true)
    {sendBuffer bytes : QByteArray} (h : writeBus ws sendBuffer = some bytes) :
    bytes = sendBuffer := by
  induction ws generalizing sendBuffer bytes with
  | nil => cases h
  | cons w ws ih =>
    obtain ⟨len, rfl⟩ := hws w List.mem_cons_self
    rw [writeBus, if_pos rfl] at h
    split_ifs at h with hrest
    · exact (Option.some.inj h).symm
    · obtain ⟨rest, hrest, rfl⟩ := Option.map_eq_some_iff.mp h
      rw [ih (fun w hw => hws w (List.mem_cons_of_mem _ hw)) hrest, List.take_append_drop]

lemma stream_eq_nil_of_short {ms : List Sent} (hms : ∀ m ∈ ms, m.Valid)
    (h : busFrames.next (stream ms) = none) : ms = [] := by
  cases ms with
  | nil => rfl
  | cons m ms =>
    have hnext := (isFrame_bytes (hms m List.mem_cons_self)).next (stream ms)
    rw [← stream_cons, h] at hnext
    cases hnext

lemma isFrame_of_mem {ms : List Sent} (hms : ∀ m ∈ ms, m.Valid) :
    ∀ f ∈ ms.map Sent.bytes, busFrames.IsFrame f := by
  intro f hf
  obtain ⟨m, hm, rfl⟩ := List.mem_map.mp hf
  exact isFrame_bytes (hms m hm)

lemma next_eq_none {ms : List Sent} (hms : ∀ m ∈ ms, m.Valid) {b q : QByteArray}
    (hq : b ++ q = stream ms) (h : ∀ m ∈ ms.head?, b.length < m.bytes.length) :
    busFrames.next b = none := by
  cases hnext : busFrames.next b with
  | none => rfl
  | some x =>
    obtain ⟨f, r⟩ := x
    obtain ⟨gs, hgs, -⟩ := Framing.Frames.next_stream (isFrame_of_mem hms) hq hnext
    cases ms with
    | nil => cases hgs
    | cons m ms =>
      obtain ⟨rfl, -⟩ := List.cons.inj hgs
      have hshort := h m rfl
      have hlength := congrArg List.length (busFrames.eq_append hnext)
      rw [List.length_append] at hlength
      omega

lemma next_eq_none_of_not_ready {ms : List Sent} (hms : ∀ m ∈ ms, m.Valid) {b q : QByteArray}
    (hq : b ++ q = stream ms)
    (h : ¬ ((readUInt32 (readUInt8 b).2).1 + HEADER_LEN) % 2 ^ 32 ≤ b.length) :
    busFrames.next b = none := by
  cases hnext : busFrames.next b with
  | none => rfl
  | some x =>
    obtain ⟨f, r⟩ := x
    obtain ⟨gs, hgs, -⟩ := Framing.Frames.next_stream (isFrame_of_mem hms) hq hnext
    cases ms with
    | nil => cases hgs
    | cons m ms =>
      obtain ⟨rfl, -⟩ := List.cons.inj hgs
      have hvalid := (hms m List.mem_cons_self).payload
      have hlength := length_bytes m
      obtain ⟨hmod, hle⟩ := BusDaemon.long_of_next (by omega) hnext
      exact absurd (hmod ▸ hle) h

end Message

lemma readSocket_messages {maxServers : ℕ} (hmax : 1 < maxServers) {d : SystemBusDaemon ι}
    {e : ReadyRead ι} {ms : List Sent} (hms : ∀ m ∈ ms, m.Valid) {q : QByteArray}
    (hq : d.socketBuffer e.socket ++ e.arrived ++ e.waits.flatten ++ q = stream ms)
    (hcompletes : Completes (d.socketBuffer e.socket ++ e.arrived) e.waits) :
    ∃ new old unread, ms = new ++ old ∧
      BusDaemon.readSocket maxServers d e = some
        ⟨update d.socketBuffer e.socket unread,
          fun j => if j = e.socket then d.written j else d.written j ++ stream new⟩ ∧
      unread ++ q = stream old := by
  have hsent : ∀ f ∈ ms.map Sent.bytes, IsSent f := by
    intro f hf
    obtain ⟨m, hm, rfl⟩ := List.mem_map.mp hf
    exact isSent_bytes (hms m hm)
  obtain ⟨done, left, unread, hsplit, hloop, hread⟩ :=
    BusDaemon.readLoop_completes hsent (hq.trans (List.flatMap_def ..)) hcompletes
      (Nat.lt_succ_self _)
  obtain ⟨new, old, rfl, rfl, rfl⟩ := List.map_eq_append_iff.mp hsplit
  refine ⟨new, old, unread.flatten, rfl, ?_, ?_⟩
  · rw [BusDaemon.readSocket, if_neg (by omega), hloop, stream, List.flatMap_def]
    rfl
  · rw [hread, stream_append, ← List.flatMap_def, ← stream, List.append_assoc] at hq
    exact List.append_cancel_left hq

/-! ### What is under way -/

/-- What comes from one of the servers. -/
def sentBy {α : Type} (i : ι) (l : List (ι × α)) : List α :=
  (l.filter fun x => x.1 = i).map Prod.snd

omit [DecidableEq ι] in
lemma sentBy_append [DecidableEq ι] {α : Type} (i : ι) (l l' : List (ι × α)) :
    sentBy i (l ++ l') = sentBy i l ++ sentBy i l' := by
  rw [sentBy, List.filter_append, List.map_append, sentBy, sentBy]

lemma sentBy_self {α : Type} (i : ι) (l : List α) : sentBy i (l.map (i, ·)) = l := by
  induction l with
  | nil => rfl
  | cons a l ih => simpa [sentBy] using ih

lemma sentBy_ne {α : Type} {i j : ι} (h : j ≠ i) (l : List α) : sentBy i (l.map (j, ·)) = [] := by
  simp [sentBy, h]

/-- The publishers do as the books say. -/
structure Books (server : ι → Server S) (ch : Channels ι S) : Prop where
  publisher : ∀ i, Publisher.Inv (server i).publisher (ch.book i)
  publishing : ∀ i, (server i).publishing = ch.publishing i

/-- The bytes under way are the publications of the channels: `rest` are those that the daemon has
not relayed, and `todo` those that have been relayed to a server and not been read by it. -/
structure Carries (app : TWebApplication) (net : Network ι S)
    (channel : ι → ι → List (String × Message)) (rest : ι → List (String × Message))
    (todo : ι → List (ι × (String × Message))) : Prop where
  whole_rest : ∀ i, ∀ p ∈ rest i, Deliverable app p
  whole_todo : ∀ i, ∀ x ∈ todo i, Deliverable app x.2
  leaves : ∀ i, net.daemon.socketBuffer i ++ net.toDaemon i ++ (net.server i).sendBuffer =
    stream ((rest i).map (messageFor app))
  comes : ∀ i, (net.server i).readBuffer ++ net.daemon.written i =
    stream ((todo i).map fun x => messageFor app x.2)
  short : ∀ i, busFrames.next (net.server i).readBuffer = none
  own : ∀ i, ∀ x ∈ todo i, x.1 ≠ i
  channel : ∀ i j, channel i j = if i = j then [] else sentBy i (todo j) ++ rest i

section Steps

variable {app : TWebApplication} {net net' : Network ι S} {ch : Channels ι S}
  {rest : ι → List (String × Message)} {todo : ι → List (ι × (String × Message))} {i : ι}

lemma Books.set (h : Books net.server ch) {s : Server S} {b : Book S} {l : List (Publication S)}
    (hinv : Publisher.Inv s.publisher b) (hl : s.publishing = l)
    {c : ι → ι → List (String × Message)} :
    Books (net.set i s).server ⟨update ch.book i b, update ch.publishing i l, c⟩ := by
  constructor
  · intro j
    by_cases hj : j = i
    · subst hj
      simpa [Network.set] using hinv
    · simpa [Network.set, hj] using h.publisher j
  · intro j
    by_cases hj : j = i
    · subst hj
      simpa [Network.set] using hl
    · simpa [Network.set, hj] using h.publishing j

omit [LinearOrder S] in
lemma Carries.set {channel : ι → ι → List (String × Message)}
    (h : Carries app net channel rest todo)
    {s : Server S} (hsend : s.sendBuffer = (net.server i).sendBuffer)
    (hread : s.readBuffer = (net.server i).readBuffer) :
    Carries app (net.set i s) channel rest todo := by
  have hsend' : ∀ j, ((net.set i s).server j).sendBuffer = (net.server j).sendBuffer := by
    intro j
    by_cases hj : j = i
    · subst hj
      simpa [Network.set] using hsend
    · simp [Network.set, hj]
  have hread' : ∀ j, ((net.set i s).server j).readBuffer = (net.server j).readBuffer := by
    intro j
    by_cases hj : j = i
    · subst hj
      simpa [Network.set] using hread
    · simp [Network.set, hj]
  refine ⟨h.whole_rest, h.whole_todo, fun j => ?_, fun j => ?_, fun j => ?_, h.own, h.channel⟩
  · rw [hsend']
    exact h.leaves j
  · rw [hread']
    exact h.comes j
  · rw [hread']
    exact h.short j

lemma Books.call (h : Books net.server ch) {e : Publisher.Event S} (he : e.Live app)
    (hnet' : Network.step app net (.call i e) = some net') :
    ∃ ch', ch.step app (.call i e) = some ch' ∧ Books net'.server ch' ∧
      ch'.channel = ch.channel := by
  obtain rfl := Option.some.inj hnet'
  refine ⟨_, rfl, ?_, rfl⟩
  have hset := h.set (i := i) (s := { net.server i with
    publisher := Publisher.step app (net.server i).publisher e })
    (Publisher.inv_step (h.publisher i) he) (h.publishing i) (c := ch.channel)
  rwa [update_eq_self] at hset

lemma Books.publish (h : Books net.server ch) (app : TWebApplication) (k : ℕ) :
    ∃ ch', ch.step app (.publish i k) = some ch' ∧
      Books (net.set i ((net.server i).publish app k)).server ch' ∧ ch'.channel = ch.channel := by
  unfold Server.publish Channels.step
  dsimp only
  rw [h.publishing i]
  cases (ch.publishing i)[k]? with
  | none =>
    refine ⟨ch, rfl, ?_, rfl⟩
    rwa [Network.set, update_eq_self]
  | some p =>
    exact ⟨_, rfl, h.set (Publisher.inv_publishLocal (h.publisher i) _ _ _) rfl, rfl⟩

lemma Books.send (h : Books net.server ch) (hmax : 1 < app.maxNumberOfAppServers)
    (p : Publication S) :
    ∃ ch', ch.step app (.send i p) = some ch' ∧
      Books (net.set i ((net.server i).send app p)).server ch' ∧
      ch'.channel = Channels.broadcast ch.channel i (p.topic, p.message) := by
  refine ⟨_, rfl, ?_, rfl⟩
  have hinv := h.publisher i
  rw [Server.send, if_pos hmax]
  have hset := h.set (i := i) (s := { net.server i with
      publisher := { (net.server i).publisher with
        bus := (net.server i).publisher.bus ++ [TPublisher.busMessage app p.topic p.message] }
      sendBuffer := (net.server i).sendBuffer ++
        (sentOf (TPublisher.busMessage app p.topic p.message)).bytes
      publishing := (net.server i).publishing ++ [p] })
    ⟨hinv.ascending, hinv.topics, hinv.due⟩ (congrArg (· ++ [p]) (h.publishing i))
    (c := Channels.broadcast ch.channel i (p.topic, p.message))
  rwa [update_eq_self] at hset

omit [LinearOrder S] in
lemma Carries.send {channel : ι → ι → List (String × Message)}
    (h : Carries app net channel rest todo) (hmax : 1 < app.maxNumberOfAppServers)
    (p : Publication S) (hp : Deliverable app (p.topic, p.message)) :
    Carries app (net.set i ((net.server i).send app p))
      (Channels.broadcast channel i (p.topic, p.message))
      (update rest i (rest i ++ [(p.topic, p.message)])) todo := by
  rw [Server.send, if_pos hmax]
  refine ⟨fun j => ?_, h.whole_todo, fun j => ?_, fun j => ?_, fun j => ?_, h.own, fun a b => ?_⟩
  · by_cases hj : j = i
    · subst hj
      rw [update_self]
      intro x hx
      rcases List.mem_append.mp hx with hx | hx
      · exact h.whole_rest j x hx
      · rwa [List.mem_singleton.mp hx]
    · rw [update_of_ne hj]
      exact h.whole_rest j
  · by_cases hj : j = i
    · subst hj
      simp only [Network.set, update_self, List.map_append, stream_append, ← h.leaves j,
        List.append_assoc]
      simp [stream, messageFor]
    · simp only [Network.set, update_of_ne hj]
      exact h.leaves j
  · by_cases hj : j = i
    · subst hj
      simpa [Network.set] using h.comes j
    · simpa [Network.set, hj] using h.comes j
  · by_cases hj : j = i
    · subst hj
      simpa [Network.set] using h.short j
    · simpa [Network.set, hj] using h.short j
  · rw [Channels.broadcast, h.channel]
    by_cases ha : a = i
    · subst ha
      by_cases hb : b = a
      · simp [hb]
      · simp [hb, Ne.symm hb]
    · simp [ha]

omit [LinearOrder S] in
lemma Carries.writeBus {channel : ι → ι → List (String × Message)}
    (h : Carries app net channel rest todo) :
    Carries app { net.set i { net.server i with sendBuffer := [] } with
      toDaemon := update net.toDaemon i (net.toDaemon i ++ (net.server i).sendBuffer) }
      channel rest todo := by
  refine ⟨h.whole_rest, h.whole_todo, fun j => ?_, fun j => ?_, fun j => ?_, h.own, h.channel⟩
  · rw [← h.leaves j]
    by_cases hj : j = i
    · subst hj
      simp [Network.set, List.append_assoc]
    · simp [Network.set, hj]
  · rw [← h.comes j]
    by_cases hj : j = i
    · subst hj
      simp [Network.set]
    · simp [Network.set, hj]
  · have hshort := h.short j
    by_cases hj : j = i
    · subst hj
      simpa [Network.set] using hshort
    · simpa [Network.set, hj] using hshort

/-- **The daemon** relays the messages that are there as a whole. -/
lemma Carries.readSocket {channel : ι → ι → List (String × Message)}
    (h : Carries app net channel rest todo) (hmax : 1 < app.maxNumberOfAppServers)
    {e : ReadyRead ι} (hpossible : Possible app net (.readSocket e)) :
    ∃ net' rest' todo', net.step app (.readSocket e) = some net' ∧ net'.server = net.server ∧
      Carries app net' channel rest' todo' := by
  obtain ⟨⟨q, hq⟩, hcompletes⟩ := hpossible
  have hstream : net.daemon.socketBuffer e.socket ++ e.arrived ++ e.waits.flatten ++
      (q ++ (net.server e.socket).sendBuffer) = stream ((rest e.socket).map (messageFor app)) := by
    rw [← h.leaves e.socket, ← hq]
    simp only [List.append_assoc]
  have hvalid : ∀ m ∈ (rest e.socket).map (messageFor app), m.Valid := by
    intro m hm
    obtain ⟨p, hp, rfl⟩ := List.mem_map.mp hm
    exact (h.whole_rest e.socket p hp).valid
  obtain ⟨done, left, unread, hsplit, hread, hleft⟩ :=
    readSocket_messages hmax hvalid hstream hcompletes
  obtain ⟨new, old, hrest, rfl, rfl⟩ := List.map_eq_append_iff.mp hsplit
  have hnew : ∀ p ∈ rest e.socket, Deliverable app p := h.whole_rest e.socket
  rw [hrest] at hnew
  refine ⟨{ net with
      daemon := ⟨update net.daemon.socketBuffer e.socket unread, fun d =>
        if d = e.socket then net.daemon.written d
        else net.daemon.written d ++ stream (new.map (messageFor app))⟩
      toDaemon := update net.toDaemon e.socket q }, update rest e.socket old,
    fun d => if d = e.socket then todo d else todo d ++ new.map (e.socket, ·), ?_, rfl, ?_⟩
  · -- what has arrived is taken out of the way to the daemon
    rw [Network.step, hread, ← hq, List.drop_left]
    rfl
  · refine ⟨fun j => ?_, fun j => ?_, fun j => ?_, fun j => ?_, h.short, fun j => ?_,
      fun a b => ?_⟩
    · -- of the socket that was read only `old` is left
      by_cases hj : j = e.socket
      · subst hj
        rw [update_self]
        exact fun p hp => hnew p (List.mem_append_right _ hp)
      · rw [update_of_ne hj]
        exact h.whole_rest j
    · split_ifs with hj
      · exact h.whole_todo j
      · intro x hx
        rcases List.mem_append.mp hx with hx | hx
        · exact h.whole_todo j x hx
        · obtain ⟨p, hp, rfl⟩ := List.mem_map.mp hx
          exact hnew p (List.mem_append_left _ hp)
    · by_cases hj : j = e.socket
      · subst hj
        simpa only [update_self, List.append_assoc] using hleft
      · simpa only [update_of_ne hj] using h.leaves j
    · dsimp only
      split_ifs with hj
      · exact h.comes j
      · rw [← List.append_assoc, h.comes j, List.map_append, stream_append, List.map_map]
        rfl
    · -- what `j` is written grows at its end
      split_ifs with hj
      · exact h.own j
      · intro x hx
        rcases List.mem_append.mp hx with hx | hx
        · exact h.own j x hx
        · -- what is new comes from `e.socket`, so not from `j`
          obtain ⟨p, -, rfl⟩ := List.mem_map.mp hx
          exact Ne.symm hj
    · rw [h.channel]
      by_cases hab : a = b
      · rw [if_pos hab, if_pos hab]
      · rw [if_neg hab, if_neg hab]
        by_cases hb : b = e.socket
        · rw [if_pos hb, update_of_ne (hb ▸ hab)]
        · rw [if_neg hb, sentBy_append]
          by_cases ha : a = e.socket
          · subst ha
            rw [update_self, sentBy_self, hrest, List.append_assoc]
          · rw [update_of_ne ha, sentBy_ne (Ne.symm ha), List.append_nil]

omit [LinearOrder S] in
lemma Carries.taken {channel channel' : ι → ι → List (String × Message)}
    (h : Carries app net channel rest todo) {s : Server S}
    {new old : List (ι × (String × Message))} {written : QByteArray} (htodo : todo i = new ++ old)
    (hsend : s.sendBuffer = (net.server i).sendBuffer)
    (hcomes : s.readBuffer ++ written = stream (old.map fun x => messageFor app x.2))
    (hshort : busFrames.next s.readBuffer = none)
    (hchannel : ∀ a b, channel' a b =
      if b = i ∧ a ≠ i then sentBy a old ++ rest a else channel a b) :
    Carries app { net.set i s with
      daemon := { net.daemon with written := update net.daemon.written i written } }
      channel' rest (update todo i old) := by
  refine ⟨h.whole_rest, fun j => ?_, fun j => ?_, fun j => ?_, fun j => ?_, fun j => ?_,
    fun a b => ?_⟩
  · by_cases hj : j = i
    · subst hj
      rw [update_self]
      exact fun x hx => h.whole_todo j x (htodo ▸ List.mem_append_right _ hx)
    · rw [update_of_ne hj]
      exact h.whole_todo j
  · rw [← h.leaves j]
    by_cases hj : j = i
    · subst hj
      simp [Network.set, hsend]
    · simp [Network.set, hj]
  · by_cases hj : j = i
    · subst hj
      simpa [Network.set] using hcomes
    · simpa [Network.set, hj] using h.comes j
  · by_cases hj : j = i
    · subst hj
      simpa [Network.set] using hshort
    · simpa [Network.set, hj] using h.short j
  · by_cases hj : j = i
    · subst hj
      rw [update_self]
      exact fun x hx => h.own j x (htodo ▸ List.mem_append_right _ hx)
    · rw [update_of_ne hj]
      exact h.own j
  · rw [hchannel, h.channel]
    by_cases hb : b = i
    · subst hb
      by_cases ha : a = b
      · simp [ha]
      · simp [ha]
    · simp [hb]

lemma receives (j : ι) (later : ι → List (String × Message)) {ch : Channels ι S}
    {l : List (ι × (String × Message))} (hown : ∀ x ∈ l, x.1 ≠ j)
    (h : ∀ a, a ≠ j → ch.channel a j = sentBy a l ++ later a) :
    ∃ ch', ch.run app (l.map fun x => .receive x.1 j) = some ch' ∧
      ch'.book =
        update ch.book j (l.foldl (fun b x => b.publish x.2.1 x.2.2 none) (ch.book j)) ∧
      ch'.publishing = ch.publishing ∧
      ∀ a b, ch'.channel a b = if b = j ∧ a ≠ j then later a else ch.channel a b := by
  induction l generalizing ch with
  | nil =>
    refine ⟨ch, rfl, (update_eq_self _ _).symm, rfl, fun a b => ?_⟩
    split_ifs with hab
    · rw [hab.1, h a hab.2]
      rfl
    · rfl
  | cons x l ih =>
    obtain ⟨i, topic, message⟩ := x
    have hi : i ≠ j := hown _ List.mem_cons_self
    have hnext : ch.channel i j = (topic, message) :: (sentBy i l ++ later i) := by
      rw [h i hi]
      simp [sentBy]
    let next : Channels ι S := { ch with
      book := update ch.book j ((ch.book j).publish topic message none)
      channel := update ch.channel i (update (ch.channel i) j (sentBy i l ++ later i)) }
    have hstep : ch.step app (.receive i j) = some next := by rw [Channels.step, hnext]
    have hothers : ∀ a, a ≠ j → next.channel a j = sentBy a l ++ later a := by
      intro a ha
      dsimp only [next]
      by_cases hai : a = i
      · subst hai
        rw [update_self, update_self]
      · rw [update_of_ne hai, h a ha]
        simp [sentBy, Ne.symm hai]
    obtain ⟨ch', hrun, hbook, hpublishing, hchannel⟩ :=
      ih (fun y hy => hown y (List.mem_cons_of_mem _ hy)) hothers
    refine ⟨ch', ?_, ?_, hpublishing, fun a b => ?_⟩
    · rw [Channels.run, List.map_cons, List.foldlM_cons, hstep]
      exact hrun
    · rw [hbook]
      dsimp only [next]
      rw [update_idem, update_self]
      rfl
    · rw [hchannel]
      split_ifs with hab
      · rfl
      · dsimp only [next]
        by_cases hai : a = i
        · subst hai
          have hb : b ≠ j := fun hb => hab ⟨hb, hi⟩
          rw [update_self, update_of_ne hb]
        · rw [update_of_ne hai]

/-- **A server** reads the messages that are there as a whole, and publishes them. -/
lemma readBus (hbooks : Books net.server ch) (h : Carries app net ch.channel rest todo)
    (n : ℕ) :
    ∃ net' as ch' todo', net.step app (.readBus i n) = some net' ∧ ch.run app as = some ch' ∧
      (∀ a ∈ as, a.isCall = false) ∧ Books net'.server ch' ∧
        Carries app net' ch'.channel rest todo' := by
  set chunk := (net.daemon.written i).take n
  set written := (net.daemon.written i).drop n
  have hbuffer : (net.server i).readBuffer ++ chunk ++ written =
      stream ((todo i).map fun x => messageFor app x.2) := by
    rw [List.append_assoc, List.take_append_drop, h.comes i]
  have hvalid : ∀ m ∈ (todo i).map fun x => messageFor app x.2, m.Valid := by
    intro m hm
    obtain ⟨x, hx, rfl⟩ := List.mem_map.mp hm
    exact (h.whole_todo i x hx).valid
  by_cases hready : ((readUInt32 (readUInt8 ((net.server i).readBuffer ++ chunk)).2).1 +
      HEADER_LEN) % 2 ^ 32 ≤ ((net.server i).readBuffer ++ chunk).length
  · obtain ⟨done, left, r, received, hsplit, hrecv, hcontent, hb, hshort⟩ :=
      recvAll_stream hvalid hbuffer
    obtain ⟨new, old, htodo, rfl, rfl⟩ := List.map_eq_append_iff.mp hsplit
    let s : Server S := { net.server i with
      publisher := (net.server i).publisher.receiveSystemBus app
        (received.map fun m => busMessageOf (content m))
      readBuffer := r }
    have hread : (net.server i).read app chunk = some s := by
      rw [Server.read, SystemBus.readBus]
      dsimp only
      rw [if_pos (decide_eq_true hready), hrecv]
      rfl
    have hmessages : received.map (fun m => busMessageOf (content m)) =
        new.map fun x => TPublisher.busMessage app x.2.1 x.2.2 := by
      have hmap := congrArg (List.map busMessageOf) hcontent
      rw [List.map_map, List.map_map] at hmap
      exact hmap.trans (List.map_congr_left fun x _ => busMessageOf_messageFor x.2)
    -- the server publishes what it gets from the channels
    obtain ⟨ch', hrun, hbook, hpublishing, hchannel⟩ :=
      receives i (fun a => sentBy a old ++ rest a) (l := new)
        (fun x hx => h.own i x (htodo ▸ List.mem_append_left _ hx)) fun a ha => by
          rw [h.channel, if_neg ha, htodo, sentBy_append, List.append_assoc]
    have hinv : Publisher.Inv s.publisher ((ch.book i).step app
        (.receiveSystemBus (received.map fun m => busMessageOf (content m)))) :=
      Publisher.inv_receiveSystemBus (hbooks.publisher i) _
    have hpublished : (ch.book i).step app
        (.receiveSystemBus (received.map fun m => busMessageOf (content m))) =
          new.foldl (fun b x => b.publish x.2.1 x.2.2 none) (ch.book i) := by
      rw [hmessages, Book.step, List.foldl_map]
      refine List.foldl_ext _ _ _ fun b x hx => ?_
      exact receive_busMessage (h.whole_todo i x (htodo ▸ List.mem_append_left _ hx)) b
    rw [hpublished] at hinv
    have hbooks' := hbooks.set (i := i) (s := s) hinv (hbooks.publishing i) (c := ch'.channel)
    rw [update_eq_self, ← hbook, ← hpublishing] at hbooks'
    have hleft : r ++ written = stream (old.map fun x => messageFor app x.2) := by
      rw [hb, htodo, List.map_append, stream_append, List.append_assoc] at hbuffer
      exact List.append_cancel_left hbuffer
    have hvalid_old : ∀ m ∈ old.map fun x => messageFor app x.2, m.Valid := by
      intro m hm
      rw [htodo, List.map_append] at hvalid
      exact hvalid m (List.mem_append_right _ hm)
    refine ⟨_, _, ch', _, ?_, hrun, ?_, ?_,
      h.taken (s := s) htodo rfl hleft (next_eq_none hvalid_old hleft hshort) hchannel⟩
    · rw [Network.step, hread]
      rfl
    · intro a ha
      obtain ⟨x, -, rfl⟩ := List.mem_map.mp ha
      rfl
    · exact hbooks'
  · let s : Server S := { net.server i with
      readBuffer := (net.server i).readBuffer ++ chunk }
    have hread : (net.server i).read app chunk = some s := by
      rw [Server.read, SystemBus.readBus]
      dsimp only
      rw [if_neg (by rwa [decide_eq_true_eq])]
    have hshort := next_eq_none_of_not_ready hvalid hbuffer hready
    have hbooks' := hbooks.set (i := i) (s := s)
      (hbooks.publisher i) (hbooks.publishing i) (c := ch.channel)
    rw [update_eq_self, update_eq_self] at hbooks'
    refine ⟨_, [], ch, _, ?_, rfl, by simp, ?_,
      h.taken (s := s) (List.nil_append (todo i)).symm rfl hbuffer hshort fun a b => ?_⟩
    · rw [Network.step, hread]
      rfl
    · exact hbooks'
    · split_ifs with hab
      · rw [h.channel, hab.1, if_neg hab.2]
      · rfl

lemma step_channels (hbooks : Books net.server ch) (h : Carries app net ch.channel rest todo)
    (hmax : 1 < app.maxNumberOfAppServers) {a : Act ι S} (ha : Possible app net a) :
    ∃ net' as ch' rest' todo', net.step app a = some net' ∧ ch.run app as = some ch' ∧
      as.filter Channels.Act.isCall = a.call?.toList ∧ Books net'.server ch' ∧
        Carries app net' ch'.channel rest' todo' := by
  have one : ∀ {c : Channels.Act ι S} {ch' : Channels ι S}, ch.step app c = some ch' →
      ch.run app [c] = some ch' := by
    intro c ch' hc
    rw [Channels.run, List.foldlM_cons, hc]
    rfl
  cases a with
  | call i e =>
    obtain ⟨ch', hstep, hbooks', hchannel⟩ := hbooks.call ha.1 rfl
    exact ⟨_, [.call i e], ch', rest, todo, rfl, one hstep, rfl, hbooks',
      hchannel ▸ h.set rfl rfl⟩
  | send i p =>
    obtain ⟨ch', hstep, hbooks', hchannel⟩ := hbooks.send (i := i) hmax p
    exact ⟨_, [.send i p], ch', _, todo, rfl, one hstep, rfl, hbooks',
      hchannel ▸ h.send hmax p ⟨valid_messageFor ha.1, ha.2⟩⟩
  | publish i k =>
    obtain ⟨ch', hstep, hbooks', hchannel⟩ := hbooks.publish (i := i) app k
    refine ⟨_, [.publish i k], ch', rest, todo, rfl, one hstep, rfl, hbooks',
      hchannel ▸ h.set ?_ ?_⟩
    · unfold Server.publish
      split <;> rfl
    · unfold Server.publish
      split <;> rfl
  | writeBus i ws =>
    obtain ⟨bytes, hbytes⟩ := Option.isSome_iff_exists.mp ha.2
    obtain rfl := eq_of_writeBus ha.1 hbytes
    refine ⟨_, [], ch, rest, todo, ?_, rfl, rfl, ?_, h.writeBus (i := i)⟩
    · rw [Network.step, hbytes]
      rfl
    · have hbooks' := hbooks.set (i := i) (s := { net.server i with sendBuffer := [] })
        (hbooks.publisher i) (hbooks.publishing i) (c := ch.channel)
      rwa [update_eq_self, update_eq_self] at hbooks'
  | readSocket e =>
    obtain ⟨net', rest', todo', hstep, hserver, h'⟩ := h.readSocket hmax ha
    -- what the daemon relays is no step of the channels
    exact ⟨net', [], ch, rest', todo', hstep, rfl, rfl, hserver ▸ hbooks, h'⟩
  | readBus i n =>
    obtain ⟨net', as, ch', todo', hstep, hrun, hcalls, hbooks', h'⟩ :=
      BusNetwork.readBus (i := i) hbooks h n
    refine ⟨net', as, ch', rest, todo', hstep, hrun, ?_, hbooks', h'⟩
    exact List.filter_eq_nil_iff.mpr fun a ha => by simp [hcalls a ha]

lemma run_channels_from (hbooks : Books net.server ch) (h : Carries app net ch.channel rest todo)
    (hmax : 1 < app.maxNumberOfAppServers) {acts : List (Act ι S)} (hruns : Runs app net acts) :
    ∃ net' as ch' rest' todo', net.run app acts = some net' ∧ ch.run app as = some ch' ∧
      as.filter Channels.Act.isCall = acts.filterMap Act.call? ∧ Books net'.server ch' ∧
        Carries app net' ch'.channel rest' todo' := by
  induction acts generalizing net ch rest todo with
  | nil => exact ⟨net, [], ch, rest, todo, rfl, rfl, rfl, hbooks, h⟩
  | cons a acts ih =>
    obtain ⟨net₁, as₁, ch₁, rest₁, todo₁, hstep, hrun₁, hcalls₁, hbooks₁, h₁⟩ :=
      step_channels hbooks h hmax hruns.1
    obtain ⟨net', as, ch', rest', todo', hrun, hrun', hcalls, hbooks', h'⟩ :=
      ih hbooks₁ h₁ (hruns.2 net₁ hstep)
    refine ⟨net', as₁ ++ as, ch', rest', todo', ?_, ?_, ?_, hbooks', h'⟩
    · rw [Network.run, List.foldlM_cons, hstep]
      exact hrun
    · rw [Channels.run, List.foldlM_append]
      exact (congrArg (· >>= fun c => as.foldlM (Channels.step app) c) hrun₁).trans hrun'
    · rw [List.filter_append, hcalls₁, hcalls]
      cases hcall : a.call? <;> simp [hcall]

end Steps

/-! ### Any run -/

/-- What is seen of the servers is what the channels say. -/
structure Agrees (net : Network ι S) (ch : Channels ι S) : Prop where
  /-- A socket sends what is due to it, in that order: some is sent, the rest is in its queue. -/
  due : ∀ i r, (net.server i).publisher.sent r ++ pending r ((net.server i).publisher.posted r) =
    (ch.book i).due r
  subscription : ∀ i topic r,
    (net.server i).publisher.subscription topic r = (ch.book i).latest topic r
  /-- Every publication gets to the other servers. -/
  quiet : net.Quiet → ∀ i j, ch.channel i j = []

lemma agrees {app : TWebApplication} {net : Network ι S} {ch : Channels ι S}
    {rest : ι → List (String × Message)} {todo : ι → List (ι × (String × Message))}
    (hbooks : Books net.server ch) (h : Carries app net ch.channel rest todo) : Agrees net ch := by
  refine ⟨fun i => (hbooks.publisher i).due, fun i => subscription_eq (hbooks.publisher i),
    fun hquiet i j => ?_⟩
  rw [h.channel]
  split_ifs
  · rfl
  · have hleaves := h.leaves i
    rw [hquiet.socketBuffer, hquiet.toDaemon, hquiet.sendBuffer] at hleaves
    have hrest : rest i = [] := List.map_eq_nil_iff.mp (stream_eq_nil hleaves.symm)
    have hcomes := h.comes j
    rw [hquiet.written, List.append_nil] at hcomes
    have hvalid : ∀ m ∈ (todo j).map fun x => messageFor app x.2, m.Valid := by
      intro m hm
      obtain ⟨x, hx, rfl⟩ := List.mem_map.mp hm
      exact (h.whole_todo j x hx).valid
    have htodo : todo j = [] :=
      List.map_eq_nil_iff.mp (stream_eq_nil_of_short hvalid (hcomes ▸ h.short j))
    rw [hrest, htodo]
    rfl

/-- **Publications reach all servers**: with the bytes on their way and however the steps are
interleaved, the servers do what they would with a queue of publications from each to each other
one, and whose calls all come to an end. No write fails, the daemon waits for the rest of every
message, and what is sent is short enough and has no byte order mark in front of it. -/
theorem run_channels {app : TWebApplication} (hmax : 1 < app.maxNumberOfAppServers)
    {acts : List (Act ι S)} (hruns : Runs app Network.start acts) :
    ∃ net as ch, Network.start.run app acts = some net ∧ Channels.start.run app as = some ch ∧
      as.filter Channels.Act.isCall = acts.filterMap Act.call? ∧ Agrees net ch := by
  have hbooks : Books (Network.start : Network ι S).server Channels.start :=
    ⟨fun _ => Publisher.inv_init, fun _ => rfl⟩
  have hcarries : Carries app (Network.start : Network ι S)
      (Channels.start : Channels ι S).channel (fun _ => []) (fun _ => []) :=
    ⟨by simp, by simp, fun _ => rfl, fun _ => rfl, fun _ => Framing.Frames.next_nil,
      by simp, fun i j => by split_ifs <;> rfl⟩
  obtain ⟨net, as, ch, rest, todo, hrun, hrun', hcalls, hbooks', h⟩ :=
    run_channels_from hbooks hcarries hmax hruns
  exact ⟨net, as, ch, hrun, hrun', hcalls, agrees hbooks' h⟩

/-- The decoder takes a byte order mark away. -/
def utf8App : TWebApplication where
  multiProcessingModule := .thread
  maxNumberOfAppServers := 2
  toUtf8 s := s.toUTF8.data.toList
  fromUtf8 b :=
    let s := (String.fromUTF8? ⟨b.toArray⟩).getD ""
    if s.toList.head? = some '\uFEFF' then String.ofList s.toList.tail else s

lemma fromUtf8_toUtf8 {s : String} (h : s.toList.head? ≠ some '\uFEFF') :
    utf8App.fromUtf8 (utf8App.toUtf8 s) = s := by
  have hvalid : ByteArray.IsValidUTF8 ⟨s.toUTF8.data.toList.toArray⟩ := s.isValidUTF8
  have hread : String.fromUTF8? ⟨s.toUTF8.data.toList.toArray⟩ = some s := by
    rw [String.fromUTF8?, dif_pos hvalid]
    rfl
  simp only [utf8App, hread, Option.getD_some, if_neg h]

/-- One server publishes a text to a topic on which the other has a socket. -/
def sampleActs : List (Act Bool ℕ) :=
  [.call true (.subscribe "c" true (some (.tWebSocket 1))), .send false ⟨"c", .text "hi", none⟩,
    .writeBus false [.wrote 10 true, .wrote 90 true],
    .readSocket ⟨false, [0x83, 0, 0, 0, 12, 0, 0], [[0, 2, 0, 99, 0, 0, 0, 2, 104, 105]]⟩,
    .publish false 0, .readBus true 8, .readBus true 9, .call true (.deliver 1)]

lemma runs_sampleActs : Runs utf8App Network.start sampleActs := by
  refine ⟨⟨rfl, trivial⟩, fun _ h => ?_⟩
  obtain rfl := Option.some.inj h
  refine ⟨⟨(by decide +kernel : (sentOf (TPublisher.busMessage utf8App "c"
    (.text "hi"))).message.payload.length + HEADER_LEN < 2 ^ 31), ?_⟩, fun _ h => ?_⟩
  · rintro s ⟨⟩
    exact fromUtf8_toUtf8 (by decide)
  obtain rfl := Option.some.inj h
  refine ⟨⟨by simp, by decide +kernel⟩, fun _ h => ?_⟩
  obtain rfl := Option.some.inj h
  have hframe : busFrames.IsFrame [0x83, 0, 0, 0, 12, 0, 0, 0, 2, 0, 99, 0, 0, 0, 2, 104, 105] :=
    (by decide +kernel : busFrames.next _ = some _)
  refine ⟨⟨⟨[], by decide +kernel⟩, .inr ⟨[_], by simpa using hframe, by decide +kernel⟩⟩,
    fun _ _ => ⟨trivial, fun _ _ => ⟨trivial, fun _ _ => ⟨trivial, fun _ _ => ?_⟩⟩⟩⟩
  exact ⟨⟨trivial, trivial⟩, fun _ _ => trivial⟩

theorem run_channels_sample :
    ∃ net as ch, Network.start.run utf8App sampleActs = some net ∧
      Channels.start.run utf8App as = some ch ∧
      as.filter Channels.Act.isCall = sampleActs.filterMap Act.call? ∧ Agrees net ch ∧
        (net.server true).publisher.sent 1 = [.text "hi"] := by
  obtain ⟨net, as, ch, hrun, hrun', hcalls, hagrees⟩ := run_channels (by decide) runs_sampleActs
  refine ⟨net, as, ch, hrun, hrun', hcalls, hagrees, ?_⟩
  have hsent : (Network.start.run utf8App sampleActs).map
      (fun net => (net.server true).publisher.sent 1) = some [.text "hi"] := by decide +kernel
  rw [hrun] at hsent
  exact Option.some.inj hsent

end TreeFrog.BusNetwork
