import Mathlib.Data.String.Basic
import TreeFrog.Bytes
import TreeFrog.SortedMap

/-!
`TPublisher`: the topics of the web sockets of a process. A topic with subscribers has a `Pub`,
that holds each subscriber twice, as an entry of its map and as a connection of its two signals.
A signal posts a call to the event queue of each connected socket; the socket that published
without `local` is named in the call and drops it.
-/

namespace TreeFrog.Publisher

open Bytes SortedMap

/-! ### The code -/

inductive Message where
  | text (s : String)
  | binary (b : QByteArray)
  deriving DecidableEq

/-- `Tf::ServerOpCode`; anything else is reported and dropped. -/
inductive ServerOpCode where
  | webSocketSendText
  | webSocketSendBinary
  | webSocketPublishText
  | webSocketPublishBinary
  | other (code : UInt8)
  deriving DecidableEq

/-- A message of the system bus. -/
structure BusMessage where
  opCode : ServerOpCode
  target : String
  data : QByteArray
  deriving DecidableEq

/-- The modules with web sockets. -/
inductive MultiProcessingModule where
  | thread
  | hybrid
  deriving DecidableEq

structure TWebApplication where
  multiProcessingModule : MultiProcessingModule
  maxNumberOfAppServers : ℕ
  toUtf8 : String → QByteArray
  fromUtf8 : QByteArray → String

/-- A socket with its address as a `QObject`. -/
inductive TAbstractWebSocket (S : Type) where
  | tWebSocket (obj : S)
  | tEpollWebSocket (obj : S)

/-- A call of `sendTextForPublish` or `sendBinaryForPublish` that waits in an event queue. -/
structure SlotCall (S : Type) where
  message : Message
  except : Option S

/-- `textPublished` and `binaryPublished` are the receivers connected to the signals. -/
structure Pub (S : Type) where
  topic : String
  subscribers : List (S × Bool)
  textPublished : List S
  binaryPublished : List S

/-- The topics, the event queues of the sockets, what the sockets have sent, and what was handed
to the system bus. -/
structure TPublisher (S : Type) where
  pubobj : List (String × Pub S)
  posted : S → List (SlotCall S)
  sent : S → List Message
  bus : List BusMessage

variable {S : Type} [LinearOrder S]

/-- `TPublisher::castToObject`. -/
def castToObject (app : TWebApplication) : Option (TAbstractWebSocket S) → Option S
  | none => none
  | some (.tWebSocket obj) => if app.multiProcessingModule = .thread then some obj else none
  | some (.tEpollWebSocket obj) => if app.multiProcessingModule = .hybrid then some obj else none

namespace Pub

def create (topic : String) : Pub S := ⟨topic, [], [], []⟩

def subscriberCounter (pub : Pub S) : ℕ := pub.subscribers.length

def subscribe (pub : Pub S) (receiver : Option S) (loc : Bool) : Bool × Pub S :=
  match receiver with
  | none => (false, pub)
  | some r =>
    if (find pub.subscribers r).isSome then
      (true, { pub with subscribers := insert r loc pub.subscribers })
    else
      (true, { pub with
        textPublished := pub.textPublished ++ [r],
        binaryPublished := pub.binaryPublished ++ [r],
        subscribers := insert r loc pub.subscribers })

def unsubscribe (pub : Pub S) (receiver : Option S) : Bool × Pub S :=
  match receiver with
  | none => (false, pub)
  | some r =>
    (true, { pub with
      textPublished := pub.textPublished.filter (· ≠ r),
      binaryPublished := pub.binaryPublished.filter (· ≠ r),
      subscribers := erase r pub.subscribers })

/-- The receivers of the signal that carries a message. -/
def receivers (pub : Pub S) : Message → List S
  | .text _ => pub.textPublished
  | .binary _ => pub.binaryPublished

/-- `Pub::publish`: the call that is posted to the receivers. -/
def publish (pub : Pub S) (message : Message) (sender : Option S) : SlotCall S :=
  let loc := (sender.bind (find pub.subscribers)).getD true
  ⟨message, if loc then none else sender⟩

end Pub

/-- A queued signal: the call goes to the queue of every connected receiver. -/
def emit (receivers : List S) (call : SlotCall S) (posted : S → List (SlotCall S)) :
    S → List (SlotCall S) :=
  receivers.foldl (fun posted r => Function.update posted r (posted r ++ [call])) posted

namespace TPublisher

def subscribe (app : TWebApplication) (s : TPublisher S) (topic : String) (loc : Bool)
    (socket : Option (TAbstractWebSocket S)) : TPublisher S :=
  let pub := (find s.pubobj topic).getD (.create topic)
  { s with pubobj := insert topic (pub.subscribe (castToObject app socket) loc).2 s.pubobj }

def unsubscribe (app : TWebApplication) (s : TPublisher S) (topic : String)
    (socket : Option (TAbstractWebSocket S)) : TPublisher S :=
  match find s.pubobj topic with
  | none => s
  | some pub =>
    let pub := (pub.unsubscribe (castToObject app socket)).2
    { s with pubobj :=
      if pub.subscriberCounter = 0 then erase topic s.pubobj else insert topic pub s.pubobj }

/-- The loop of `unsubscribeFromAll` at one entry: it changes the `Pub` or removes it. -/
def leave (app : TWebApplication) (socket : Option (TAbstractWebSocket S)) (pub : Pub S) :
    Option (Pub S) :=
  let pub := (pub.unsubscribe (castToObject app socket)).2
  if pub.subscriberCounter = 0 then none else some pub

def unsubscribeFromAll (app : TWebApplication) (s : TPublisher S)
    (socket : Option (TAbstractWebSocket S)) : TPublisher S :=
  { s with pubobj := filterMapValues (leave app socket) s.pubobj }

/-- The part of `publish` behind the lock. -/
def publishLocal (s : TPublisher S) (topic : String) (message : Message) (sender : Option S) :
    TPublisher S :=
  match find s.pubobj topic with
  | none => s
  | some pub =>
    { s with posted := emit (pub.receivers message) (pub.publish message sender) s.posted }

/-- The message of the system bus for a publication. -/
def busMessage (app : TWebApplication) (topic : String) : Message → BusMessage
  | .text s => ⟨.webSocketPublishText, topic, app.toUtf8 s⟩
  | .binary b => ⟨.webSocketPublishBinary, topic, b⟩

def publish (app : TWebApplication) (s : TPublisher S) (topic : String) (message : Message)
    (socket : Option (TAbstractWebSocket S)) : TPublisher S :=
  let s :=
    if app.maxNumberOfAppServers > 1 then { s with bus := s.bus ++ [busMessage app topic message] }
    else s
  s.publishLocal topic message (castToObject app socket)

/-- What a message of the system bus publishes. -/
def received (app : TWebApplication) (msg : BusMessage) : Option Message :=
  match msg.opCode with
  | .webSocketPublishText => some (.text (app.fromUtf8 msg.data))
  | .webSocketPublishBinary => some (.binary msg.data)
  | .webSocketSendText | .webSocketSendBinary | .other _ => none

def receive (app : TWebApplication) (s : TPublisher S) (msg : BusMessage) : TPublisher S :=
  match received app msg with
  | none => s
  | some message => s.publishLocal msg.target message none

def receiveSystemBus (app : TWebApplication) (s : TPublisher S) (messages : List BusMessage) :
    TPublisher S :=
  messages.foldl (receive app) s

/-- The event loop of a socket runs its first queued call: `sendTextForPublish` or
`sendBinaryForPublish`. -/
def deliver (s : TPublisher S) (r : S) : TPublisher S :=
  match s.posted r with
  | [] => s
  | call :: calls =>
    { s with
      posted := Function.update s.posted r calls,
      sent :=
        if call.except ≠ some r then Function.update s.sent r (s.sent r ++ [call.message])
        else s.sent }

end TPublisher

/-! ### Runs -/

inductive Event (S : Type) where
  | subscribe (topic : String) (loc : Bool) (socket : Option (TAbstractWebSocket S))
  | unsubscribe (topic : String) (socket : Option (TAbstractWebSocket S))
  | unsubscribeFromAll (socket : Option (TAbstractWebSocket S))
  | publish (topic : String) (message : Message) (socket : Option (TAbstractWebSocket S))
  | receiveSystemBus (messages : List BusMessage)
  | deliver (r : S)

def step (app : TWebApplication) (s : TPublisher S) : Event S → TPublisher S
  | .subscribe topic loc socket => s.subscribe app topic loc socket
  | .unsubscribe topic socket => s.unsubscribe app topic socket
  | .unsubscribeFromAll socket => s.unsubscribeFromAll app socket
  | .publish topic message socket => s.publish app topic message socket
  | .receiveSystemBus messages => s.receiveSystemBus app messages
  | .deliver r => s.deliver r

def init : TPublisher S := ⟨[], fun _ => [], fun _ => [], []⟩

def run (app : TWebApplication) (es : List (Event S)) : TPublisher S := es.foldl (step app) init

/-- What subscribes is a socket of the module in use. -/
def Event.Live (app : TWebApplication) : Event S → Prop
  | .subscribe _ _ socket => (castToObject app socket).isSome
  | _ => True

/-! ### What the calls ask for -/

/-- The latest subscription of each socket to each topic, with its `local`, and the messages due
to each socket. -/
structure Book (S : Type) where
  latest : String → S → Option Bool
  due : S → List Message

namespace Book

/-- A message published by `sender` is for the subscribers of the moment, and for the sender
unless its latest subscription said otherwise. -/
def publish (b : Book S) (topic : String) (message : Message) (sender : Option S) : Book S :=
  { b with due := fun r =>
      match b.latest topic r with
      | none => b.due r
      | some loc => if sender = some r ∧ loc = false then b.due r else b.due r ++ [message] }

def receive (app : TWebApplication) (b : Book S) (msg : BusMessage) : Book S :=
  match TPublisher.received app msg with
  | none => b
  | some message => b.publish msg.target message none

def step (app : TWebApplication) (b : Book S) : Event S → Book S
  | .subscribe topic loc socket =>
    { b with latest := fun t r =>
        if t = topic ∧ castToObject app socket = some r then some loc else b.latest t r }
  | .unsubscribe topic socket =>
    { b with latest := fun t r =>
        if t = topic ∧ castToObject app socket = some r then none else b.latest t r }
  | .unsubscribeFromAll socket =>
    { b with latest := fun t r =>
        if castToObject app socket = some r then none else b.latest t r }
  | .publish topic message socket => b.publish topic message (castToObject app socket)
  | .receiveSystemBus messages => messages.foldl (receive app) b
  | .deliver _ => b

def init : Book S := ⟨fun _ _ => none, fun _ => []⟩

def run (app : TWebApplication) (es : List (Event S)) : Book S := es.foldl (step app) init

end Book

/-! ### A topic -/

/-- The receivers of a signal are the sockets with a subscription, each once. -/
structure Receives (l : List S) (f : S → Option Bool) : Prop where
  nodup : l.Nodup
  mem_iff : ∀ r, r ∈ l ↔ (f r).isSome

/-- The map of a `Pub` and its connections hold the subscriptions `f`. -/
structure Connected (pub : Pub S) (f : S → Option Bool) : Prop where
  subscribers : ∀ r, find pub.subscribers r = f r
  text : Receives pub.textPublished f
  binary : Receives pub.binaryPublished f

section Receives

variable {l : List S} {f : S → Option Bool} {r : S}

lemma Receives.again (h : Receives l f) (hr : (f r).isSome) (loc : Bool) :
    Receives l fun j => if r = j then some loc else f j := by
  refine ⟨h.nodup, fun j => ?_⟩
  by_cases hj : r = j
  · subst hj
    simp [h.mem_iff, hr]
  · simp [h.mem_iff, hj]

lemma Receives.append (h : Receives l f) (hr : ¬(f r).isSome) (loc : Bool) :
    Receives (l ++ [r]) fun j => if r = j then some loc else f j := by
  refine ⟨List.nodup_append_comm.mp ?_, fun j => ?_⟩
  · exact List.nodup_cons.mpr ⟨mt (h.mem_iff r).mp hr, h.nodup⟩
  · rw [List.mem_append, List.mem_singleton, h.mem_iff]
    by_cases hj : r = j
    · simp [hj]
    · simp [hj, Ne.symm hj]

lemma Receives.filter (h : Receives l f) (r : S) :
    Receives (l.filter (· ≠ r)) fun j => if some r = some j then none else f j := by
  refine ⟨h.nodup.filter _, fun j => ?_⟩
  rw [List.mem_filter, h.mem_iff]
  by_cases hj : r = j
  · simp [hj]
  · simp [hj, Ne.symm hj]

end Receives

lemma connected_create (topic : String) : Connected (.create topic : Pub S) fun _ => none :=
  ⟨fun _ => rfl, ⟨.nil, fun _ => by simp [Pub.create]⟩, ⟨.nil, fun _ => by simp [Pub.create]⟩⟩

section Pub

variable {pub : Pub S} {f : S → Option Bool}

lemma Connected.subscribe (h : Connected pub f) (r : S) (loc : Bool) :
    Connected (pub.subscribe (some r) loc).2 fun j => if r = j then some loc else f j := by
  have hmap : ∀ j, find (insert r loc pub.subscribers) j = if r = j then some loc else f j :=
    fun j => by rw [find_insert, h.subscribers j]
  simp only [Pub.subscribe, h.subscribers]
  split_ifs with hr
  · exact ⟨hmap, h.text.again hr loc, h.binary.again hr loc⟩
  · exact ⟨hmap, h.text.append hr loc, h.binary.append hr loc⟩

lemma Connected.unsubscribe (h : Connected pub f) (socket : Option S) :
    Connected (pub.unsubscribe socket).2 fun j => if socket = some j then none else f j := by
  cases socket with
  | none => simpa [Pub.unsubscribe] using h
  | some r =>
    refine ⟨fun j => ?_, h.text.filter r, h.binary.filter r⟩
    simp only [Pub.unsubscribe, find_erase, h.subscribers, Option.some.injEq]

lemma Connected.counter (h : Connected pub f) :
    pub.subscriberCounter = 0 ↔ ∀ r, f r = none := by
  rw [Pub.subscriberCounter, List.length_eq_zero_iff]
  refine ⟨fun hnil r => by rw [← h.subscribers r, hnil, find_nil], fun hnone => ?_⟩
  cases hs : pub.subscribers with
  | nil => rfl
  | cons e es =>
    have hfirst := h.subscribers e.1
    rw [hs, find_cons, if_pos rfl, hnone] at hfirst
    cases hfirst

lemma Connected.receivers (h : Connected pub f) (message : Message) :
    Receives (pub.receivers message) f := by
  cases message with
  | text s => exact h.text
  | binary b => exact h.binary

end Pub

/-- What a process keeps of a topic with the subscriptions `f`. -/
def Holds (f : S → Option Bool) : Option (Pub S) → Prop
  | none => ∀ r, f r = none
  | some pub => Connected pub f ∧ ∃ r, (f r).isSome

omit [LinearOrder S] in
lemma not_exists_iff {f : S → Option Bool} : (¬∃ r, (f r).isSome) ↔ ∀ r, f r = none := by
  simp

lemma Connected.holds {pub : Pub S} {f : S → Option Bool} (h : Connected pub f) :
    Holds f (if pub.subscriberCounter = 0 then none else some pub) := by
  split_ifs with h0
  · exact h.counter.mp h0
  · exact ⟨h, not_not.mp fun hn => h0 (h.counter.mpr (not_exists_iff.mp hn))⟩

section Calls

variable {app : TWebApplication} {s : TPublisher S} {topic : String}
  {socket : Option (TAbstractWebSocket S)} {f : S → Option Bool}

lemma holds_subscribe {r : S} (hr : castToObject app socket = some r) (loc : Bool)
    (h : Holds f (find s.pubobj topic)) :
    Holds (fun j => if r = j then some loc else f j)
      (find (s.subscribe app topic loc socket).pubobj topic) := by
  have hpub : Connected ((find s.pubobj topic).getD (.create topic)) f := by
    cases hfind : find s.pubobj topic with
    | none =>
      rw [hfind] at h
      obtain rfl : f = fun _ => none := funext h
      exact connected_create topic
    | some pub => exact (hfind ▸ h : Holds f (some pub)).1
  rw [TPublisher.subscribe, find_insert, if_pos rfl, hr]
  exact ⟨hpub.subscribe r loc, r, by simp⟩

lemma find_subscribe_ne {t : String} (ht : topic ≠ t) (loc : Bool) :
    find (s.subscribe app topic loc socket).pubobj t = find s.pubobj t := by
  rw [TPublisher.subscribe, find_insert, if_neg ht]

lemma holds_leave (h : Holds f (find s.pubobj topic)) :
    Holds (fun j => if castToObject app socket = some j then none else f j)
      ((find s.pubobj topic).bind (TPublisher.leave app socket)) := by
  cases hfind : find s.pubobj topic with
  | none =>
    rw [hfind] at h
    intro r
    simp [h r]
  | some pub => exact ((hfind ▸ h : Holds f (some pub)).1.unsubscribe _).holds

lemma find_unsubscribe (t : String) :
    find (s.unsubscribe app topic socket).pubobj t =
      if topic = t then (find s.pubobj t).bind (TPublisher.leave app socket)
      else find s.pubobj t := by
  rw [TPublisher.unsubscribe]
  cases hfind : find s.pubobj topic with
  | none =>
    split_ifs with ht
    · rw [← ht, hfind]
      rfl
    · rfl
  | some pub =>
    by_cases ht : topic = t
    · subst ht
      simp only [TPublisher.leave, if_true, hfind, Option.bind_some]
      split_ifs
      · rw [find_erase, if_pos rfl]
      · rw [find_insert, if_pos rfl]
    · simp only [ht, if_false]
      split_ifs
      · rw [find_erase, if_neg ht]
      · rw [find_insert, if_neg ht]

lemma find_unsubscribeFromAll (h : Ascending s.pubobj) (t : String) :
    find (s.unsubscribeFromAll app socket).pubobj t =
      (find s.pubobj t).bind (TPublisher.leave app socket) :=
  find_filterMapValues h _ t

end Calls

/-! ### The queues -/

/-- The messages that the calls of a queue will send. -/
def pending (r : S) (calls : List (SlotCall S)) : List Message :=
  calls.filterMap fun call => if call.except ≠ some r then some call.message else none

lemma pending_append (r : S) (calls : List (SlotCall S)) (call : SlotCall S) :
    pending r (calls ++ [call]) =
      pending r calls ++ if call.except ≠ some r then [call.message] else [] := by
  rw [pending, List.filterMap_append, pending]
  split_ifs with h <;> simp [h]

lemma emit_apply {l : List S} (h : l.Nodup) (call : SlotCall S)
    (posted : S → List (SlotCall S)) (r : S) :
    emit l call posted r = if r ∈ l then posted r ++ [call] else posted r := by
  induction l generalizing posted with
  | nil => simp [emit]
  | cons a l ih =>
    obtain ⟨ha, hl⟩ := List.nodup_cons.mp h
    have hstep : emit (a :: l) call posted r =
        emit l call (Function.update posted a (posted a ++ [call])) r := rfl
    rw [hstep, ih hl]
    by_cases hr : r = a
    · subst hr
      simp [ha]
    · simp [hr]

lemma except_publish {pub : Pub S} {f : S → Option Bool} (h : Connected pub f)
    (message : Message) (sender : Option S) (r : S) :
    (pub.publish message sender).except = some r ↔ sender = some r ∧ f r = some false := by
  have hfind : find pub.subscribers = f := funext h.subscribers
  rw [Pub.publish, hfind]
  cases sender with
  | none => simp
  | some a =>
    rw [Option.bind_some]
    split_ifs with hloc
    · refine ⟨nofun, ?_⟩
      rintro ⟨ha, hr⟩
      obtain rfl := Option.some.inj ha
      simp [hr] at hloc
    · refine ⟨fun ha => ⟨ha, ?_⟩, fun ha => ha.1⟩
      obtain rfl := Option.some.inj ha
      cases hf : f a with
      | none => simp [hf] at hloc
      | some b => simpa [hf] using hloc

/-! ### The invariant -/

/-- The process keeps the book: its topics are those with a subscription, and what a socket has
sent or has in its queue is what was due to it, in that order. -/
structure Inv (s : TPublisher S) (b : Book S) : Prop where
  ascending : Ascending s.pubobj
  topics : ∀ topic, Holds (b.latest topic) (find s.pubobj topic)
  due : ∀ r, s.sent r ++ pending r (s.posted r) = b.due r

lemma inv_init : Inv (init : TPublisher S) Book.init :=
  ⟨List.Pairwise.nil, fun _ _ => rfl, fun _ => rfl⟩

section Step

variable {app : TWebApplication} {s : TPublisher S} {b : Book S}

lemma inv_publishLocal (h : Inv s b) (topic : String) (message : Message) (sender : Option S) :
    Inv (s.publishLocal topic message sender) (b.publish topic message sender) := by
  have htopic := h.topics topic
  unfold TPublisher.publishLocal
  cases hfind : find s.pubobj topic with
  | none =>
    rw [hfind] at htopic
    refine ⟨h.ascending, h.topics, fun r => ?_⟩
    simp only [Book.publish, htopic r]
    exact h.due r
  | some pub =>
    rw [hfind] at htopic
    obtain ⟨hpub, -⟩ := htopic
    refine ⟨h.ascending, h.topics, fun r => ?_⟩
    have hrec := hpub.receivers message
    have hexcept := except_publish hpub message sender r
    simp only [Book.publish, emit_apply hrec.nodup, hrec.mem_iff]
    cases hf : b.latest topic r with
    | none => simpa [hf] using h.due r
    | some loc =>
      rw [hf, Option.some.injEq] at hexcept
      have hmessage : (pub.publish message sender).message = message := rfl
      simp only [Option.isSome_some, if_true, pending_append, ne_eq, hexcept, ite_not, hmessage,
        ← List.append_assoc, h.due r]
      split_ifs
      · exact List.append_nil _
      · rfl

lemma inv_receive (h : Inv s b) (msg : BusMessage) :
    Inv (s.receive app msg) (b.receive app msg) := by
  unfold TPublisher.receive Book.receive
  cases TPublisher.received app msg with
  | none => exact h
  | some message => exact inv_publishLocal h msg.target message none

lemma inv_deliver (h : Inv s b) (r : S) : Inv (s.deliver r) b := by
  unfold TPublisher.deliver
  cases hposted : s.posted r with
  | nil => exact h
  | cons call calls =>
    refine ⟨h.ascending, h.topics, fun j => ?_⟩
    have hdue := h.due j
    by_cases hj : j = r
    · subst hj
      rw [hposted, pending, List.filterMap_cons] at hdue
      by_cases hexcept : call.except = some j
      · simpa [hexcept, pending] using hdue
      · simpa [hexcept, pending] using hdue
    · by_cases hexcept : call.except = some r
      · simpa [hexcept, hj] using hdue
      · simpa [hexcept, hj] using hdue

lemma inv_subscribe (h : Inv s b) {topic : String} {socket : Option (TAbstractWebSocket S)}
    (hlive : (castToObject app socket).isSome) (loc : Bool) :
    Inv (s.subscribe app topic loc socket) (b.step app (.subscribe topic loc socket)) := by
  obtain ⟨r, hr⟩ := Option.isSome_iff_exists.mp hlive
  refine ⟨h.ascending.insert _ _, fun t => ?_, h.due⟩
  by_cases ht : topic = t
  · subst ht
    simpa [Book.step, hr] using holds_subscribe hr loc (h.topics topic)
  · rw [find_subscribe_ne ht]
    simpa [Book.step, Ne.symm ht] using h.topics t

lemma unsubscribe_eq (app : TWebApplication) (s : TPublisher S) (topic : String)
    (socket : Option (TAbstractWebSocket S)) :
    ∃ m, s.unsubscribe app topic socket = { s with pubobj := m } ∧
      (Ascending s.pubobj → Ascending m) := by
  unfold TPublisher.unsubscribe
  cases find s.pubobj topic with
  | none => exact ⟨s.pubobj, rfl, id⟩
  | some pub =>
    refine ⟨_, rfl, fun h => ?_⟩
    split_ifs
    · exact h.erase _
    · exact h.insert _ _

lemma inv_unsubscribe (h : Inv s b) (topic : String) (socket : Option (TAbstractWebSocket S)) :
    Inv (s.unsubscribe app topic socket) (b.step app (.unsubscribe topic socket)) := by
  have hfind : ∀ t, find (s.unsubscribe app topic socket).pubobj t = _ := find_unsubscribe
  obtain ⟨m, hm, hasc⟩ := unsubscribe_eq app s topic socket
  rw [hm] at hfind ⊢
  refine ⟨hasc h.ascending, fun t => ?_, h.due⟩
  rw [hfind]
  split_ifs with ht
  · subst ht
    simpa [Book.step] using holds_leave (h.topics topic)
  · simpa [Book.step, Ne.symm ht] using h.topics t

lemma inv_unsubscribeFromAll (h : Inv s b) (socket : Option (TAbstractWebSocket S)) :
    Inv (s.unsubscribeFromAll app socket) (b.step app (.unsubscribeFromAll socket)) := by
  refine ⟨h.ascending.filterMapValues _, fun t => ?_, h.due⟩
  rw [find_unsubscribeFromAll h.ascending]
  exact holds_leave (h.topics t)

lemma inv_publish (h : Inv s b) (topic : String) (message : Message)
    (socket : Option (TAbstractWebSocket S)) :
    Inv (s.publish app topic message socket) (b.step app (.publish topic message socket)) := by
  unfold TPublisher.publish
  split_ifs
  · have hbus : Inv { s with bus := s.bus ++ [TPublisher.busMessage app topic message] } b :=
      ⟨h.ascending, h.topics, h.due⟩
    exact inv_publishLocal hbus topic message _
  · exact inv_publishLocal h topic message _

lemma inv_receiveSystemBus (h : Inv s b) (messages : List BusMessage) :
    Inv (s.receiveSystemBus app messages) (b.step app (.receiveSystemBus messages)) := by
  induction messages generalizing s b with
  | nil => exact h
  | cons msg messages ih => exact ih (inv_receive h msg)

lemma inv_step (h : Inv s b) {e : Event S} (hlive : e.Live app) :
    Inv (step app s e) (b.step app e) := by
  cases e with
  | subscribe topic loc socket => exact inv_subscribe h hlive loc
  | unsubscribe topic socket => exact inv_unsubscribe h topic socket
  | unsubscribeFromAll socket => exact inv_unsubscribeFromAll h socket
  | publish topic message socket => exact inv_publish h topic message socket
  | receiveSystemBus messages => exact inv_receiveSystemBus h messages
  | deliver r => exact inv_deliver h r

lemma inv_foldl (h : Inv s b) (es : List (Event S)) (hlive : ∀ e ∈ es, e.Live app) :
    Inv (es.foldl (step app) s) (es.foldl (Book.step app) b) := by
  induction es generalizing s b with
  | nil => exact h
  | cons e es ih =>
    obtain ⟨he, hes⟩ := List.forall_mem_cons.mp hlive
    exact ih (inv_step h he) hes

end Step

/-! ### Any run -/

/-- The subscription of a socket to a topic, as the process holds it. -/
def TPublisher.subscription (s : TPublisher S) (topic : String) (r : S) : Option Bool :=
  (find s.pubobj topic).bind fun pub => find pub.subscribers r

/-- What holds after the events `es` of a process. -/
structure Bookkeeping (app : TWebApplication) (es : List (Event S)) : Prop where
  /-- A topic has a `Pub` if and only if it has a subscriber. -/
  pub_iff : ∀ topic, (find (run app es).pubobj topic).isSome ↔
    ∃ r, ((Book.run app es).latest topic r).isSome
  /-- The connections and the map of a `Pub` are the subscribers, each once. -/
  connected : ∀ topic pub, find (run app es).pubobj topic = some pub →
    Connected pub ((Book.run app es).latest topic)
  /-- A socket that leaves all topics is out of each, and no other subscription changes. -/
  removed : ∀ socket topic r,
    ((run app es).unsubscribeFromAll app socket).subscription topic r =
      if castToObject app socket = some r then none else (run app es).subscription topic r
  /-- A socket sends what is due to it, in that order: some is sent, the rest is in its queue. -/
  inOrder : ∀ r, (run app es).sent r ++ pending r ((run app es).posted r) =
    (Book.run app es).due r
  /-- When the queue of a socket has run, what was due is sent. -/
  delivered : ∀ r,
    (run app (es ++ List.replicate ((run app es).posted r).length (.deliver r))).sent r =
      (Book.run app es).due r

lemma subscription_eq {s : TPublisher S} {b : Book S} (h : Inv s b) (topic : String) (r : S) :
    s.subscription topic r = b.latest topic r := by
  have htopic := h.topics topic
  rw [TPublisher.subscription]
  cases hfind : find s.pubobj topic with
  | none =>
    rw [hfind] at htopic
    exact (htopic r).symm
  | some pub =>
    rw [hfind] at htopic
    exact htopic.1.subscribers r

lemma deliver_all (app : TWebApplication) (r : S) {s : TPublisher S} {n : ℕ}
    (hn : (s.posted r).length = n) :
    ((List.replicate n (.deliver r)).foldl (step app) s).posted r = [] := by
  induction n generalizing s with
  | zero => exact List.length_eq_zero_iff.mp hn
  | succ n ih =>
    obtain ⟨call, calls, hposted⟩ := List.exists_cons_of_length_eq_add_one hn
    refine ih ?_
    have hrest : (s.deliver r).posted r = calls := by simp [TPublisher.deliver, hposted]
    rw [hposted, List.length_cons] at hn
    exact hrest ▸ Nat.succ.inj hn

lemma book_deliver_all (app : TWebApplication) (r : S) (b : Book S) (n : ℕ) :
    (List.replicate n (.deliver r)).foldl (Book.step app) b = b := by
  induction n with
  | zero => rfl
  | succ n ih => exact ih

/-- **Subscriptions and deliveries**: in every run whose subscribers are sockets of the module
in use. -/
theorem run_bookkeeping (app : TWebApplication) (es : List (Event S))
    (hlive : ∀ e ∈ es, e.Live app) : Bookkeeping app es := by
  have hinv : Inv (run app es) (Book.run app es) := inv_foldl inv_init es hlive
  refine ⟨fun topic => ?_, fun topic pub hpub => ?_, fun socket topic r => ?_, hinv.due,
    fun r => ?_⟩
  · have htopic := hinv.topics topic
    cases hfind : find (run app es).pubobj topic with
    | none =>
      rw [hfind] at htopic
      exact ⟨nofun, fun h => absurd h (not_exists_iff.mpr htopic)⟩
    | some pub =>
      rw [hfind] at htopic
      exact ⟨fun _ => htopic.2, fun _ => rfl⟩
  · have htopic := hinv.topics topic
    rw [hpub] at htopic
    exact htopic.1
  · rw [subscription_eq (inv_unsubscribeFromAll hinv socket), subscription_eq hinv]
    rfl
  · have hlive' : ∀ e ∈ List.replicate ((run app es).posted r).length (Event.deliver r),
        e.Live app := fun e he => List.eq_of_mem_replicate he ▸ trivial
    have hdue := (inv_foldl hinv _ hlive').due r
    rw [deliver_all app r rfl, book_deliver_all] at hdue
    rw [run, List.foldl_append, ← hdue]
    exact (List.append_nil _).symm

/-- Two sockets on a topic, one that published without `local`. -/
def chat : List (Event ℕ) :=
  [.subscribe "chat" false (some (.tWebSocket 1)), .subscribe "chat" true (some (.tWebSocket 2)),
    .publish "chat" (.text "hello") (some (.tWebSocket 1)), .deliver 1, .deliver 2,
    .unsubscribeFromAll (some (.tWebSocket 2))]

theorem run_bookkeeping_chat :
    Bookkeeping ⟨.thread, 1, fun _ => [], fun _ => ""⟩ chat :=
  run_bookkeeping _ _ (by simp [chat, Event.Live, castToObject])

end TreeFrog.Publisher
