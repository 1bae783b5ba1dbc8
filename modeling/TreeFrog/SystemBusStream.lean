import TreeFrog.SystemBus

/-!
The stream of messages of the bus: what `recvAll` returns, however the stream is cut into pieces
and whenever it is called.
-/

namespace TreeFrog.SystemBusStream

open Bytes BigEndian DataStream Framing SystemBus SystemBus.TSystemBusMessage

/-! ### Messages -/

/-- What a message is made of. -/
structure Sent where
  opCode : UInt8
  target : QString
  data : Option QByteArray
  deriving DecidableEq

namespace Sent

def message (m : Sent) : TSystemBusMessage := make m.opCode m.target m.data

def bytes (m : Sent) : QByteArray := m.message.toByteArray

/-- A valid opcode, and a payload whose frame is shorter than `2^31` bytes. -/
structure Valid (m : Sent) : Prop where
  pos : 0 < m.opCode
  le : m.opCode ≤ MaxOpCode
  payload : m.message.payload.length + HEADER_LEN < 2 ^ 31

end Sent

/-- What a message says: `opCode()`, `target()` and `data()`. -/
def content (m : TSystemBusMessage) : Sent := ⟨m.opCode, m.target, m.data⟩

def stream (ms : List Sent) : QByteArray := ms.flatMap Sent.bytes

/-! ### The receiver -/

/-- The receive buffer, and what `recvAll` has returned so far. -/
structure Receiver where
  readBuffer : QByteArray
  received : List TSystemBusMessage
  deriving DecidableEq

inductive Event where
  | readBus (chunk : QByteArray)
  | recvAll

/-- A call of `recvAll` that does not come to an end is `none`. -/
def step (s : Receiver) : Event → Option Receiver
  | .readBus chunk => some { s with readBuffer := (readBus s.readBuffer chunk).2 }
  | .recvAll => (recvAll (s.readBuffer.length + 1) s.readBuffer).map fun (messages, left) =>
    ⟨left, s.received ++ messages⟩

def run (s : Receiver) (es : List Event) : Option Receiver := es.foldlM step s

/-- The bytes that have arrived. -/
def arrived : List Event → QByteArray
  | [] => []
  | .readBus chunk :: es => chunk ++ arrived es
  | .recvAll :: es => arrived es

/-! ### Frames of messages -/

section
variable {m : Sent}

lemma declared_bytes (h : m.message.payload.length < 2 ^ 32) :
    declared m.bytes = m.message.payload.length := by
  rw [declared, Sent.bytes, toByteArray, List.cons_append, List.drop_succ_cons, List.drop_zero,
    List.take_left' (length_toBytes 4 _), ofBytes_toBytes (by omega)]

lemma length_bytes (m : Sent) : m.bytes.length = m.message.payload.length + HEADER_LEN := by
  simp [Sent.bytes, toByteArray, HEADER_LEN]
  omega

lemma isFrame_bytes (h : m.Valid) : busFrames.IsFrame m.bytes := by
  have hpayload := h.payload
  refine next_eq_some_iff.mpr ⟨(List.append_nil _).symm, ?_⟩
  rw [declared_bytes (by omega), length_bytes, Nat.add_comm]

lemma firstByte {op : UInt8} (hpos : 0 < op) (hle : op ≤ MaxOpCode) :
    (0x80 ||| (op &&& 0x3F)) &&& 0x80 ≠ 0 ∧ (0x80 ||| (op &&& 0x3F)) &&& 0x40 = 0 ∧
      (0x80 ||| (op &&& 0x3F)) &&& 0x3F = op := by
  have h1 : 0 < op.toNat := UInt8.lt_iff_toNat_lt.mp hpos
  have h2 : op.toNat ≤ 4 := UInt8.le_iff_toNat_le.mp hle
  have hcases : op.toNat = 1 ∨ op.toNat = 2 ∨ op.toNat = 3 ∨ op.toNat = 4 := by omega
  have hop : op = 1 ∨ op = 2 ∨ op = 3 ∨ op = 4 :=
    hcases.imp UInt8.toNat_inj.mp
      fun h => h.imp UInt8.toNat_inj.mp fun h => h.imp UInt8.toNat_inj.mp UInt8.toNat_inj.mp
  rcases hop with rfl | rfl | rfl | rfl <;> decide

lemma messageOf_eq (h : m.message.payload.length < 2 ^ 32) :
    messageOf m.bytes = validate m.message := by
  rw [messageOf, declared_bytes h, Sent.bytes, toByteArray]
  have hdrop : (m.message.firstByte :: toBytes 4 m.message.payload.length ++
      m.message.payload).drop HEADER_LEN = m.message.payload :=
    List.drop_left' (by simp [HEADER_LEN])
  rw [hdrop, List.take_length]
  rfl

/-- **What is parsed** is the message that was written, and valid. -/
lemma messageOf_bytes (h : m.Valid) :
    (messageOf m.bytes).valid = true ∧ content (messageOf m.bytes) = m := by
  have hpayload := h.payload
  have htotal : (writeString m.target).length + (writeBytes m.data).length < 2 ^ 31 := by
    rw [Sent.message, make, List.length_append] at hpayload
    omega
  have htarget := readString_writeString (t := m.target) (by omega) (writeBytes m.data)
  have hdata := readBytes_writeBytes (d := m.data) (by omega) []
  rw [List.append_nil] at hdata
  obtain ⟨hfirst, hrsv, hop⟩ := firstByte h.pos h.le
  rw [messageOf_eq (by omega)]
  constructor
  · have hbit : m.message.firstBit = true := decide_eq_true hfirst
    have hbit' : m.message.rsvBit = false := decide_eq_false (not_not.mpr hrsv)
    have hcode : m.message.opCode = m.opCode := hop
    simp [validate, hbit, hbit', hcode, h.pos, h.le]
  · obtain ⟨op, t, d⟩ := m
    simp only at htarget hdata hop
    simp only [content, opCode, target, data, validate, Sent.message, make, htarget, hdata, hop]

end

/-! ### One call of `recvAll` -/

lemma not_wraps_of_prefix {m : Sent} (h : m.Valid) {r : QByteArray} (hr : r <+: m.bytes) :
    ¬ Wraps r := by
  rintro ⟨hheader, hsum⟩
  obtain ⟨t, ht⟩ := hr
  have hpayload := h.payload
  have hdeclared := declared_bytes (m := m) (by omega)
  rw [← ht, declared_append hheader] at hdeclared
  omega

/-- **A drained buffer**: its frames are returned, and the rest is kept. -/
lemma recvAll_of_drains {b r : QByteArray} {fs : List QByteArray} (h : busFrames.Drains b fs r)
    (hfs : ∀ f ∈ fs, f.length < 2 ^ 32 ∧ (messageOf f).valid = true) (hr : ¬ Wraps r) {fuel : ℕ}
    (hfuel : b.length < fuel) : recvAll fuel b = some (fs.map messageOf, r) := by
  induction h generalizing fuel with
  | stop hnone =>
    obtain ⟨fuel, rfl⟩ : ∃ k, fuel = k + 1 := ⟨fuel - 1, by omega⟩
    rw [recvAll, recvStep_eq_none hnone hr]
    rfl
  | frame hnext _ ih =>
    obtain ⟨fuel, rfl⟩ : ∃ k, fuel = k + 1 := ⟨fuel - 1, by omega⟩
    have hshort := Frames.next_length_lt hnext
    obtain ⟨hlt, hvalid⟩ := hfs _ List.mem_cons_self
    rw [recvAll, recvStep_frame hnext hlt, if_pos hvalid]
    simp only
    rw [ih (fun f hf => hfs f (List.mem_cons_of_mem _ hf)) hr (by omega)]
    rfl

/-- What a call of `recvAll` does with part of a stream: it returns the messages that are there as
a whole. -/
lemma recvAll_stream {ms : List Sent} (hms : ∀ m ∈ ms, m.Valid) {b q : QByteArray}
    (hb : b ++ q = stream ms) :
    ∃ done todo r received, ms = done ++ todo ∧
      recvAll (b.length + 1) b = some (received, r) ∧ received.map content = done ∧
      b = stream done ++ r ∧ ∀ m ∈ todo.head?, r.length < m.bytes.length := by
  have hframes : ∀ f ∈ ms.map Sent.bytes, busFrames.IsFrame f := by
    intro f hf
    obtain ⟨m, hm, rfl⟩ := List.mem_map.mp hf
    exact isFrame_bytes (hms m hm)
  obtain ⟨fs, gs, r, hsplit, hdrains, -, hr⟩ := Frames.Drains.of_stream hframes hb
  obtain ⟨done, todo, rfl, rfl, rfl⟩ := List.map_eq_append_iff.mp hsplit
  refine ⟨done, todo, r, (done.map Sent.bytes).map messageOf, rfl, ?_, ?_, ?_, fun m hm => ?_⟩
  · refine recvAll_of_drains hdrains ?_ ?_ (Nat.lt_succ_self _)
    · intro f hf
      obtain ⟨m, hm, rfl⟩ := List.mem_map.mp hf
      have hvalid := hms m (List.mem_append_left _ hm)
      have hpayload := hvalid.payload
      exact ⟨by rw [length_bytes]; omega, (messageOf_bytes hvalid).1⟩
    · -- what is left is part of a frame
      rcases hr with rfl | ⟨f, hf, hpre, -⟩
      · exact fun h => absurd h.1 (by decide)
      · rw [List.head?_map] at hf
        obtain ⟨m, hm, rfl⟩ := Option.map_eq_some_iff.mp hf
        exact not_wraps_of_prefix
          (hms m (List.mem_append_right _ (List.mem_of_mem_head? hm))) hpre
  · rw [List.map_map, List.map_map]
    refine (List.map_congr_left fun m hm => ?_).trans (List.map_id done)
    exact (messageOf_bytes (hms m (List.mem_append_left _ hm))).2
  · rw [hdrains.eq_append, stream, List.flatMap]
  · rcases hr with rfl | ⟨f, hf, hpre, hne⟩
    · rw [length_bytes]
      simp [HEADER_LEN]
    · rw [List.head?_map, hm, Option.map_some, Option.mem_some_iff] at hf
      subst hf
      exact lt_of_le_of_ne hpre.length_le fun h => hne (hpre.eq_of_length h)

/-! ### Runs -/

/-- The receiver has returned the messages `done`, and holds the rest of what has arrived. -/
structure Holds (ms : List Sent) (es : List Event) (s : Receiver)
    (done todo : List Sent) : Prop where
  split : ms = done ++ todo
  received : s.received.map content = done
  arrived : arrived es = stream done ++ s.readBuffer

lemma arrived_append (es : List Event) (e : Event) :
    arrived (es ++ [e]) = arrived es ++ arrived [e] := by
  induction es with
  | nil => rfl
  | cons e' es ih =>
    cases e' with
    | readBus chunk => rw [List.cons_append, arrived, ih, arrived, List.append_assoc]
    | recvAll => rw [List.cons_append, arrived, ih, arrived]

lemma run_append (s : Receiver) (es : List Event) (e : Event) :
    run s (es ++ [e]) = (run s es).bind fun s => step s e := by
  rw [run, List.foldlM_append, run]
  simp

lemma holds_step {ms : List Sent} (hms : ∀ m ∈ ms, m.Valid) {es : List Event} {s : Receiver}
    {done todo : List Sent} (h : Holds ms es s done todo) {e : Event} {q : QByteArray}
    (hq : arrived (es ++ [e]) ++ q = stream ms) :
    ∃ s' done' todo', step s e = some s' ∧ Holds ms (es ++ [e]) s' done' todo' ∧
      (e = .recvAll → ∀ m ∈ todo'.head?, s'.readBuffer.length < m.bytes.length) := by
  obtain ⟨rfl, hreceived, harrived⟩ := h
  cases e with
  | readBus chunk =>
    refine ⟨_, done, todo, rfl, ⟨rfl, hreceived, ?_⟩, fun h => by cases h⟩
    rw [arrived_append, harrived, List.append_assoc]
    simp [arrived, readBus]
  | recvAll =>
    rw [arrived_append, harrived, arrived, arrived, List.append_nil, List.append_assoc, stream,
      stream, List.flatMap_append] at hq
    obtain ⟨done', todo', r, received, rfl, hrecv, hcontent, hbuffer, hshort⟩ :=
      recvAll_stream (fun m hm => hms m (List.mem_append_right _ hm))
        (List.append_cancel_left hq)
    refine ⟨⟨r, s.received ++ received⟩, done ++ done', todo', ?_, ⟨?_, ?_, ?_⟩, fun _ => hshort⟩
    · rw [step, hrecv]
      rfl
    · rw [List.append_assoc]
    · rw [List.map_append, hreceived, hcontent]
    · rw [arrived_append, harrived, arrived, arrived, List.append_nil, hbuffer, stream, stream,
        stream, List.flatMap_append, List.append_assoc]

/-- **The bus** returns every message once, in order and as it was sent, as soon as it is there,
and keeps the bytes of one that is not. -/
theorem recvAll_returns {ms : List Sent} (hms : ∀ m ∈ ms, m.Valid) {es : List Event}
    {q : QByteArray} (hq : arrived es ++ q = stream ms) :
    ∃ s done todo, run ⟨[], []⟩ es = some s ∧ Holds ms es s done todo ∧
      (es.getLast? = some .recvAll → ∀ m ∈ todo.head?, s.readBuffer.length < m.bytes.length) := by
  induction es using List.reverseRecOn generalizing q with
  | nil => exact ⟨_, [], ms, rfl, ⟨rfl, rfl, rfl⟩, fun h => by cases h⟩
  | append_singleton es e ih =>
    have hq' := hq
    rw [arrived_append, List.append_assoc] at hq'
    obtain ⟨s, done, todo, hrun, hholds, -⟩ := ih hq'
    obtain ⟨s', done', todo', hstep, hholds', hlast⟩ := holds_step hms hholds hq
    refine ⟨s', done', todo', ?_, hholds', fun h => hlast ?_⟩
    · rw [run_append, hrun]
      exact hstep
    · rw [List.getLast?_concat] at h
      exact Option.some.inj h

/-- A text for the target `"a"`. -/
def hello : Sent := ⟨1, some [97], some [104, 105]⟩

lemma valid_hello : hello.Valid := ⟨by decide, by decide, by decide⟩

theorem recvAll_returns_hello :
    ∃ s done todo, run ⟨[], []⟩ [.readBus (hello.bytes.take 3), .recvAll,
        .readBus (hello.bytes.drop 3), .recvAll] = some s ∧
      Holds [hello] [.readBus (hello.bytes.take 3), .recvAll, .readBus (hello.bytes.drop 3),
        .recvAll] s done todo ∧
      (([.readBus (hello.bytes.take 3), .recvAll, .readBus (hello.bytes.drop 3),
        .recvAll] : List Event).getLast? = some .recvAll →
          ∀ m ∈ todo.head?, s.readBuffer.length < m.bytes.length) :=
  recvAll_returns (q := []) (fun m hm => by rw [List.mem_singleton.mp hm]; exact valid_hello)
    (by decide +kernel)

end TreeFrog.SystemBusStream
