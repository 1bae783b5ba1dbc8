import TreeFrog.Threads
import TreeFrog.WebSocketFrame

/-!
A `TAbstractWebSocket` and those who use it at once: its own workers, the workers of other sockets
and the HTTP controllers, the publisher, the keep-alive timer. The workers do their tasks one after
another; a task is cut up where another thread can see it half done.
-/

namespace TreeFrog.WebSocketTasks

open Bytes BigEndian WebSocketFrame Threads

structure Frame where
  opCode : OpCode
  payload : QByteArray
  deriving DecidableEq

/-- What happens on a socket. -/
inductive Event where
  | handshake
  | wrote (f : Frame)
  | onClose (code : ℕ)
  /-- The endpoint has refused the opening. -/
  | refused
  /-- A task `SendClose` disconnects; `closing` and `closeSent` are as they are then. -/
  | disconnected (closing closeSent : Bool)
  deriving DecidableEq

/-- A published message. -/
inductive Published where
  | text (text : String)
  | binary (binary : QByteArray)

structure TAbstractWebSocket where
  closing : Bool
  closeSent : Bool
  deleting : Bool
  /-- The topics it subscribes to, and whether its own messages come back to it. -/
  topics : String → Option Bool
  /-- Published messages on their way to it, by a queued connection; `true` for one that is not to
  be sent to it. -/
  posted : List (Published × Bool)
  log : List Event

def textFrame (message : String) : Frame := ⟨.TextFrame, message.toUTF8.toList⟩

/-- The code of a Close frame is a `qint16`. -/
def closeFrame (code : ℤ) : Frame := ⟨.Close, toBytes 2 (code % 65536).toNat⟩

namespace TAbstractWebSocket

variable (s : TAbstractWebSocket)

def emit (e : Event) : TAbstractWebSocket := { s with log := s.log ++ [e] }

def writeRawData (f : Frame) : TAbstractWebSocket := s.emit (.wrote f)

def sendText (message : String) : TAbstractWebSocket := s.writeRawData (textFrame message)

def sendBinary (data : QByteArray) : TAbstractWebSocket := s.writeRawData ⟨.BinaryFrame, data⟩

def sendPing (data : QByteArray) : TAbstractWebSocket := s.writeRawData ⟨.Ping, data⟩

def sendPong (data : QByteArray) : TAbstractWebSocket := s.writeRawData ⟨.Pong, data⟩

def subscribe (topic : String) (isLocal : Bool) : TAbstractWebSocket :=
  { s with topics := fun t => if t = topic then some isLocal else s.topics t }

def unsubscribe (topic : String) : TAbstractWebSocket :=
  { s with topics := fun t => if t = topic then none else s.topics t }

def unsubscribeFromAll : TAbstractWebSocket := { s with topics := fun _ => none }

/-- `Pub::publish` as this socket sees it; `own` if it is the sender. -/
def publish (own : Bool) (topic : String) (message : Published) : TAbstractWebSocket :=
  match s.topics topic with
  | none => s
  | some isLocal => { s with posted := s.posted ++ [(message, own && !isLocal)] }

/-- `sendTextForPublish` and `sendBinaryForPublish`. -/
def sendForPublish : Published → Bool → TAbstractWebSocket
  | _, true => s
  | .text text, false => s.sendText text
  | .binary binary, false => s.sendBinary binary

end TAbstractWebSocket

/-! ### Tasks -/

/-- What an endpoint asks for. The tasks `…To` are those with the id of this socket. -/
inductive Task where
  | OpenSuccess
  | OpenError
  | SendText (message : String)
  | SendBinary (data : QByteArray)
  | SendClose (code : ℤ)
  | SendPing (data : QByteArray)
  | SendPong (data : QByteArray)
  | SendTextTo (message : String)
  | SendBinaryTo (data : QByteArray)
  | SendCloseTo (code : ℤ)
  | Subscribe (topic : String) (isLocal : Bool)
  | Unsubscribe (topic : String)
  | UnsubscribeFromAll
  | PublishText (topic : String) (text : String)
  | PublishBinary (topic : String) (binary : QByteArray)

/-- What a thread does next. -/
inductive Op where
  /-- A task of a worker of this socket, or of somebody else. -/
  | task (own : Bool) (t : Task)
  /-- `closing.exchange(true)`; then `onClose` if the flag was clear, and the tasks `last`. -/
  | exchangeClosing (code : ℕ) (tasks : Option (List Task)) (last : List Task)
  /-- `onClose`, which leaves `tasks` or throws. -/
  | onClose (code : ℕ) (tasks : Option (List Task)) (last : List Task)
  /-- The second test of a task `SendClose`. -/
  | loadCloseSent (code : ℤ)
  | disconnect
  /-- `sendClose`: `closeSent.exchange(true)`, then the frame if the flag was clear. -/
  | exchangeCloseSent (code : ℤ)
  | writeClose (code : ℤ)
  /-- `OpenError`: `closeSent = true`, then the disconnection. -/
  | storeCloseSent
  | refuse

/-- The tasks of somebody else that concern this socket; the other ones are about their own. -/
def Task.isTo : Task → Bool
  | .SendTextTo _ | .SendBinaryTo _ | .SendCloseTo _ | .PublishText .. | .PublishBinary .. => true
  | _ => false

/-- A task, with the operations behind it. -/
def Task.run (s : TAbstractWebSocket) (rest : List Op) (own : Bool) :
    Task → List Op × TAbstractWebSocket
  | .OpenSuccess => (rest, s.emit .handshake)
  -- the other tasks are skipped
  | .OpenError => ([.storeCloseSent], { s with closing := true }.emit .refused)
  | .SendText message | .SendTextTo message => (rest, s.sendText message)
  | .SendBinary data | .SendBinaryTo data => (rest, s.sendBinary data)
  | .SendClose code =>
    (if s.closing then .loadCloseSent code :: rest else .exchangeCloseSent code :: rest, s)
  | .SendCloseTo code => (.exchangeCloseSent code :: rest, s)
  | .SendPing data => (rest, s.sendPing data)
  | .SendPong data => (rest, s.sendPong data)
  | .Subscribe topic isLocal => (rest, s.subscribe topic isLocal)
  | .Unsubscribe topic => (rest, s.unsubscribe topic)
  | .UnsubscribeFromAll => (rest, s.unsubscribeFromAll)
  | .PublishText topic text => (rest, s.publish own topic (.text text))
  | .PublishBinary topic binary => (rest, s.publish own topic (.binary binary))

def Op.run (s : TAbstractWebSocket) (rest : List Op) : Op → List Op × TAbstractWebSocket
  | .task own t => t.run s rest own
  | .exchangeClosing code tasks last =>
    if s.closing then (last.map (.task true) ++ rest, s)
    else (.onClose code tasks last :: rest, { s with closing := true })
  | .onClose code none _ => (rest, s.emit (.onClose code))
  | .onClose code (some tasks) last =>
    ((tasks ++ .UnsubscribeFromAll :: last).map (.task true) ++ rest, s.emit (.onClose code))
  | .loadCloseSent code =>
    (if s.closeSent then .disconnect :: rest else .exchangeCloseSent code :: rest, s)
  | .disconnect => (rest, s.emit (.disconnected s.closing s.closeSent))
  | .exchangeCloseSent code =>
    if s.closeSent then (rest, s) else (.writeClose code :: rest, { s with closeSent := true })
  | .writeClose code => (rest, s.writeRawData (closeFrame code))
  | .storeCloseSent => ([.refuse], { s with closeSent := true })
  | .refuse => (rest, s)

/-! ### Workers -/

/-- A message, and the tasks that its handler leaves; none if it throws. -/
structure Message where
  opcode : OpCode
  payload : QByteArray
  tasks : Option (List Task)

def GoingAway : ℕ := 1001

def closeCode (payload : QByteArray) : ℕ :=
  if 2 ≤ payload.length then ofBytes (payload.take 2) else GoingAway

/-- `execute` in the mode `Receiving`. -/
def Message.execute (m : Message) : List Op :=
  match m.opcode with
  | .TextFrame | .BinaryFrame | .Ping | .Pong => (m.tasks.getD []).map (.task true)
  | .Close =>
    [.exchangeClosing (closeCode m.payload) m.tasks [.SendClose (closeCode m.payload)]]
  | _ => []

/-- What happens outside the threads. -/
inductive Outside where
  /-- The worker of the opening; `accepted` is what `onOpen` returns, none if it throws. -/
  | opening (accepted : Option Bool) (tasks : List Task)
  /-- A worker for received messages. -/
  | receiving (ms : List Message)
  /-- `deleteLater`; `tasks` is what `onClose` leaves. -/
  | deleteLater (tasks : Option (List Task))
  /-- The tasks of somebody else. -/
  | others (tasks : List Task)
  /-- A message comes in from another server. -/
  | receiveSystemBus (topic : String) (message : Published)
  /-- The event loop takes up a published message. -/
  | sendForPublish
  | timerEvent

/-- What comes from outside: new threads, and the socket. -/
def Outside.happen (s : TAbstractWebSocket) : Outside → List (List Op) × TAbstractWebSocket
  | .opening none _ => ([], s)
  | .opening (some true) tasks => ([(.OpenSuccess :: tasks).map (.task true)], s)
  | .opening (some false) tasks => ([(.OpenError :: tasks).map (.task true)], s)
  | .receiving ms => ([ms.flatMap Message.execute], s)
  | .deleteLater tasks =>
    if s.deleting then ([], s)
    else (if s.closing then [] else [[.exchangeClosing GoingAway tasks []]],
      { s with deleting := true })
  | .others tasks => ([(tasks.filter Task.isTo).map (.task false)], s)
  | .receiveSystemBus topic message => ([], s.publish false topic message)
  | .sendForPublish =>
    match s.posted with
    | [] => ([], s)
    | (message, isExcept) :: posted =>
      ([], { s with posted := posted }.sendForPublish message isExcept)
  | .timerEvent => ([], s.sendPing [])

abbrev sockets : System TAbstractWebSocket Op Outside where
  run := Op.run
  outside := Outside.happen

/-- A new socket. -/
def start : Config TAbstractWebSocket Op := ⟨[], ⟨false, false, false, fun _ => none, [], []⟩⟩

end TreeFrog.WebSocketTasks
