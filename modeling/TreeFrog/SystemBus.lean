import Mathlib.Logic.Relation
import TreeFrog.DataStream
import TreeFrog.Framing

/-!
The system bus: messages behind a header of five bytes, and the receive buffer of a server.

The length in a header is an unsigned 32-bit number, and the sum of it and the header wraps.
-/

namespace TreeFrog.SystemBus

open Bytes BigEndian DataStream Framing

def HEADER_LEN : ℕ := 5

structure TSystemBusMessage where
  firstByte : UInt8
  payload : QByteArray
  valid : Bool
  deriving DecidableEq

namespace TSystemBusMessage

def MaxOpCode : UInt8 := 4

/-- The constructor with an opcode, a target and data. -/
def make (op : UInt8) (t : QString) (d : Option QByteArray) : TSystemBusMessage where
  firstByte := 0x80 ||| (op &&& 0x3F)
  payload := writeString t ++ writeBytes d
  valid := false

def firstBit (m : TSystemBusMessage) : Bool := m.firstByte &&& 0x80 ≠ 0

def rsvBit (m : TSystemBusMessage) : Bool := m.firstByte &&& 0x40 ≠ 0

def opCode (m : TSystemBusMessage) : UInt8 := m.firstByte &&& 0x3F

def target (m : TSystemBusMessage) : QString := (readString m.payload).1

def data (m : TSystemBusMessage) : Option QByteArray := (readBytes (readString m.payload).2).1

def validate (m : TSystemBusMessage) : TSystemBusMessage :=
  { m with valid := m.firstBit && !m.rsvBit && (0 < m.opCode && m.opCode ≤ MaxOpCode) }

def toByteArray (m : TSystemBusMessage) : QByteArray :=
  m.firstByte :: toBytes 4 m.payload.length ++ m.payload

/-- `parse`: the message, and the bytes left. -/
def parse (bytes : QByteArray) : TSystemBusMessage × QByteArray :=
  let (opcode, ds) := readUInt8 bytes
  let length := (readUInt32 ds).1
  if bytes.length < HEADER_LEN ∨ bytes.length < (HEADER_LEN + length) % 2 ^ 32 then
    (⟨0, [], false⟩, [])
  else
    (validate ⟨opcode, (bytes.drop HEADER_LEN).take length, false⟩,
      bytes.drop ((HEADER_LEN + length) % 2 ^ 32))

end TSystemBusMessage

open TSystemBusMessage

/-- One turn of the loop of `recvAll`: nothing if it stops, or the message, if it is valid, and the
buffer after it. -/
def recvStep (readBuffer : QByteArray) : Option (Option TSystemBusMessage × QByteArray) :=
  let length := (readUInt32 (readUInt8 readBuffer).2).1
  if readBuffer.length < (length + HEADER_LEN) % 2 ^ 32 then none
  else
    let (message, rest) := parse readBuffer
    some (if message.valid then some message else none, rest)

/-- `recvAll`, for so many turns at most; `none` if they are not enough. -/
def recvAll : ℕ → QByteArray → Option (List TSystemBusMessage × QByteArray)
  | 0, _ => none
  | fuel + 1, readBuffer =>
    match recvStep readBuffer with
    | none => some ([], readBuffer)
    | some (message, rest) =>
      (recvAll fuel rest).map fun (messages, left) => (message.toList ++ messages, left)

/-- `readBus`: the buffer, and whether `readyReceive` is emitted. -/
def readBus (readBuffer chunk : QByteArray) : Bool × QByteArray :=
  let readBuffer := readBuffer ++ chunk
  let length := (readUInt32 (readUInt8 readBuffer).2).1
  (decide ((length + HEADER_LEN) % 2 ^ 32 ≤ readBuffer.length), readBuffer)

/-! ### Frames -/

/-- The length the header at the front declares. -/
def declared (b : QByteArray) : ℕ := ofBytes ((b.drop 1).take 4)

lemma declared_append {b : QByteArray} (h : HEADER_LEN ≤ b.length) (c : QByteArray) :
    declared (b ++ c) = declared b := by
  have hheader : 5 ≤ b.length := h
  rw [declared, List.drop_append_of_le_length (by omega),
    List.take_append_of_le_length (by rw [List.length_drop]; omega), declared]

/-- Frames of the bus, by their lengths. -/
def busFrames : Frames UInt8 where
  next b := if HEADER_LEN ≤ b.length ∧ HEADER_LEN + declared b ≤ b.length then
    some (b.take (HEADER_LEN + declared b), b.drop (HEADER_LEN + declared b)) else none
  eq_append {b f r} h := by
    split at h
    · obtain ⟨rfl, rfl⟩ := Prod.mk.inj (Option.some.inj h)
      exact (List.take_append_drop _ _).symm
    · cases h
  ne_nil {b f r} h := by
    split at h
    · rename_i hle
      obtain ⟨rfl, rfl⟩ := Prod.mk.inj (Option.some.inj h)
      intro hnil
      have hlength := congrArg List.length hnil
      rw [List.length_take, List.length_nil, Nat.min_eq_left hle.2] at hlength
      simp [HEADER_LEN] at hlength
    · cases h
  next_append {b f r} h c := by
    split at h
    · rename_i hle
      obtain ⟨rfl, rfl⟩ := Prod.mk.inj (Option.some.inj h)
      rw [declared_append hle.1, if_pos (by rw [List.length_append]; omega),
        List.take_append_of_le_length hle.2, List.drop_append_of_le_length hle.2]
    · cases h

lemma busFrames_next (b : QByteArray) :
    busFrames.next b = if HEADER_LEN ≤ b.length ∧ HEADER_LEN + declared b ≤ b.length then
      some (b.take (HEADER_LEN + declared b), b.drop (HEADER_LEN + declared b)) else none := rfl

lemma declared_lt (b : QByteArray) : declared b < 2 ^ 32 :=
  calc declared b < 256 ^ ((b.drop 1).take 4).length := ofBytes_lt _
    _ ≤ 256 ^ 4 := Nat.pow_le_pow_right (by decide) (List.length_take_le 4 _)
    _ = 2 ^ 32 := by decide

lemma readUInt32_header (b : QByteArray) :
    (readUInt32 (readUInt8 b).2).1 = if HEADER_LEN ≤ b.length then declared b else 0 := by
  cases b with
  | nil => rfl
  | cons x b =>
    have hiff : 4 ≤ b.length ↔ HEADER_LEN ≤ (x :: b).length := by
      simp only [HEADER_LEN, List.length_cons]
      omega
    rw [readUInt8, readUInt32]
    by_cases h : 4 ≤ b.length
    · rw [if_pos h, if_pos (hiff.mp h)]
      rfl
    · rw [if_neg h, if_neg fun h' => h (hiff.mpr h')]

/-! ### One turn -/

/-- A header whose length wraps around when the header is added to it. -/
def Wraps (b : QByteArray) : Prop := HEADER_LEN ≤ b.length ∧ 2 ^ 32 ≤ declared b + HEADER_LEN

instance (b : QByteArray) : Decidable (Wraps b) := inferInstanceAs (Decidable (_ ∧ _))

/-- The message of a frame. -/
def messageOf (f : QByteArray) : TSystemBusMessage :=
  validate ⟨(readUInt8 f).1, (f.drop HEADER_LEN).take (declared f), false⟩

lemma recvStep_eq (b : QByteArray) :
    recvStep b =
      if b.length < ((if HEADER_LEN ≤ b.length then declared b else 0) + HEADER_LEN) % 2 ^ 32 then
        none
      else some (if (parse b).1.valid then some (parse b).1 else none, (parse b).2) := by
  rw [← readUInt32_header]
  rfl

lemma parse_eq {b : QByteArray} (h : HEADER_LEN ≤ b.length)
    (hle : (HEADER_LEN + declared b) % 2 ^ 32 ≤ b.length) :
    parse b = (messageOf b, b.drop ((HEADER_LEN + declared b) % 2 ^ 32)) := by
  have hheader := readUInt32_header b
  rw [if_pos h] at hheader
  simp only [parse, hheader]
  rw [if_neg (by omega)]
  rfl

lemma recvStep_eq_none {b : QByteArray} (hnext : busFrames.next b = none) (hwrap : ¬ Wraps b) :
    recvStep b = none := by
  rw [recvStep_eq, if_pos]
  by_cases h : HEADER_LEN ≤ b.length
  · have hlt : ¬ HEADER_LEN + declared b ≤ b.length := by
      intro hle
      rw [busFrames_next, if_pos ⟨h, hle⟩] at hnext
      cases hnext
    have hsum : ¬ 2 ^ 32 ≤ declared b + HEADER_LEN := fun hle => hwrap ⟨h, hle⟩
    rw [if_pos h, Nat.mod_eq_of_lt (by omega)]
    omega
  · rw [if_neg h]
    exact not_le.mp h

lemma messageOf_append {f : QByteArray} (h : HEADER_LEN + declared f ≤ f.length) (r : QByteArray) :
    messageOf (f ++ r) = messageOf f := by
  have hheader : HEADER_LEN ≤ f.length := by omega
  rw [messageOf, declared_append hheader, List.drop_append_of_le_length hheader,
    List.take_append_of_le_length (by rw [List.length_drop]; omega), messageOf]
  cases f with
  | nil => simp [HEADER_LEN] at hheader
  | cons x f => rfl

lemma next_eq_some_iff {b f r : QByteArray} :
    busFrames.next b = some (f, r) ↔
      b = f ++ r ∧ HEADER_LEN + declared f = f.length := by
  constructor
  · intro h
    have hb := busFrames.eq_append h
    rw [busFrames_next] at h
    split at h
    · rename_i hle
      obtain ⟨rfl, rfl⟩ := Prod.mk.inj (Option.some.inj h)
      refine ⟨hb, ?_⟩
      have hlength : (b.take (HEADER_LEN + declared b)).length = HEADER_LEN + declared b := by
        rw [List.length_take, Nat.min_eq_left hle.2]
      have hdeclared := declared_append (b := b.take (HEADER_LEN + declared b))
        (by rw [hlength]; omega) (b.drop (HEADER_LEN + declared b))
      rw [← hb] at hdeclared
      rw [hlength, ← hdeclared]
    · cases h
  · rintro ⟨rfl, hlength⟩
    have hdeclared := declared_append (by omega : HEADER_LEN ≤ f.length) r
    rw [busFrames_next]
    simp only [hdeclared, hlength, List.length_append]
    rw [if_pos (by omega), List.take_left' rfl, List.drop_left' rfl]

lemma recvStep_frame {b f r : QByteArray} (hnext : busFrames.next b = some (f, r))
    (hlt : f.length < 2 ^ 32) :
    recvStep b = some (if (messageOf f).valid then some (messageOf f) else none, r) := by
  obtain ⟨rfl, hlength⟩ := next_eq_some_iff.mp hnext
  have hheader : HEADER_LEN ≤ (f ++ r).length := by
    rw [List.length_append]
    omega
  have hdeclared := declared_append (by omega : HEADER_LEN ≤ f.length) r
  have hmod : (HEADER_LEN + declared (f ++ r)) % 2 ^ 32 = f.length := by
    rw [hdeclared, hlength]
    exact Nat.mod_eq_of_lt (by omega)
  have hle : f.length ≤ (f ++ r).length := by
    rw [List.length_append]
    omega
  have hparse := parse_eq hheader (by rw [hmod]; exact hle)
  rw [recvStep_eq, if_pos hheader, if_neg (by rw [Nat.add_comm, hmod]; omega), hparse, hmod,
    messageOf_append (by omega), List.drop_left' rfl]

/-- **A length that wraps** passes the check, and what is removed is less than the header. -/
lemma recvStep_wraps {b : QByteArray} (h : Wraps b) :
    ∃ m, recvStep b = some (m, b.drop (declared b + HEADER_LEN - 2 ^ 32)) := by
  have hheader : 5 ≤ b.length := h.1
  have hsum : 2 ^ 32 ≤ declared b + 5 := h.2
  have hdeclared := declared_lt b
  have hmod : (HEADER_LEN + declared b) % 2 ^ 32 = declared b + HEADER_LEN - 2 ^ 32 := by
    rw [Nat.mod_eq_sub_mod (by simp only [HEADER_LEN]; omega), Nat.mod_eq_of_lt] <;>
      simp only [HEADER_LEN] <;> omega
  have hle : declared b + HEADER_LEN - 2 ^ 32 ≤ b.length := by
    simp only [HEADER_LEN]
    omega
  have hparse := parse_eq h.1 (by rw [hmod]; exact hle)
  refine ⟨if (messageOf b).valid then some (messageOf b) else none, ?_⟩
  rw [recvStep_eq, if_pos h.1, if_neg (by rw [Nat.add_comm, hmod]; omega), hparse, hmod]

/-! ### The loop -/

/-- The buffers the loop comes to. -/
def Reaches : QByteArray → QByteArray → Prop :=
  Relation.ReflTransGen fun b b' => ∃ m, recvStep b = some (m, b')

/-- What the loop should keep to. -/
structure Sound (b : QByteArray) : Prop where
  terminates : ∃ fuel, (recvAll fuel b).isSome
  /-- A turn that does not stop removes something. -/
  removes : ∀ b' m b'', Reaches b b' → recvStep b' = some (m, b'') → b''.length < b'.length
  /-- A frame that is accepted is there as a whole. -/
  present : ∀ b' m b'', Reaches b b' → recvStep b' = some (m, b'') →
    declared b' + HEADER_LEN ≤ b'.length

/-- Behind no sequence of whole frames at the front is there a header whose length wraps. -/
def NoWrap (b : QByteArray) : Prop :=
  ∀ (fs : List QByteArray) (r : QByteArray), (∀ f ∈ fs, busFrames.IsFrame f) → b = fs.flatten ++ r →
    ¬ Wraps r

lemma NoWrap.not_wraps {b : QByteArray} (h : NoWrap b) : ¬ Wraps b := h [] b (by simp) (by simp)

lemma noWrap_of_next_none {b : QByteArray} (hwraps : ¬ Wraps b) (hnone : busFrames.next b = none) :
    NoWrap b := by
  intro fs r hfs hb
  cases fs with
  | nil =>
    rw [List.flatten_nil, List.nil_append] at hb
    exact hb ▸ hwraps
  | cons f fs =>
    have hnext := (hfs f List.mem_cons_self).next (fs.flatten ++ r)
    rw [← List.append_assoc, ← List.flatten_cons, ← hb, hnone] at hnext
    cases hnext

lemma noWrap_of_next {b f r : QByteArray} (hwraps : ¬ Wraps b)
    (hnext : busFrames.next b = some (f, r)) (h : NoWrap r) : NoWrap b := by
  intro fs r' hfs hb
  cases fs with
  | nil =>
    rw [List.flatten_nil, List.nil_append] at hb
    exact hb ▸ hwraps
  | cons g fs =>
    have hg := (hfs g List.mem_cons_self).next (fs.flatten ++ r')
    rw [← List.append_assoc, ← List.flatten_cons, ← hb, hnext] at hg
    obtain ⟨-, rfl⟩ := Prod.mk.inj (Option.some.inj hg)
    exact h fs r' (fun x hx => hfs x (.tail _ hx)) rfl

lemma isFrame_of_next {b f r : QByteArray} (h : busFrames.next b = some (f, r)) :
    busFrames.IsFrame f :=
  next_eq_some_iff.mpr ⟨(List.append_nil f).symm, (next_eq_some_iff.mp h).2⟩

lemma NoWrap.rest {b f r : QByteArray} (h : NoWrap b) (hnext : busFrames.next b = some (f, r)) :
    NoWrap r := by
  intro fs r' hfs hr
  refine h (f :: fs) r' ?_ ?_
  · intro g hg
    rcases List.mem_cons.mp hg with rfl | hg
    · exact isFrame_of_next hnext
    · exact hfs g hg
  · rw [busFrames.eq_append hnext, hr, List.flatten_cons, List.append_assoc]

lemma frame_length_lt {b f r : QByteArray} (h : busFrames.next b = some (f, r))
    (hlt : b.length < 2 ^ 31) : f.length < 2 ^ 32 := by
  rw [busFrames.eq_append h, List.length_append] at hlt
  omega

/-- **One turn** without a wrap stops or takes a whole frame off. -/
lemma recvStep_cases {b : QByteArray} (h : NoWrap b) (hlt : b.length < 2 ^ 31) :
    recvStep b = none ∨ ∃ f r m, busFrames.next b = some (f, r) ∧ recvStep b = some (m, r) := by
  cases hnext : busFrames.next b with
  | none => exact .inl (recvStep_eq_none hnext h.not_wraps)
  | some x => exact .inr ⟨x.1, x.2, _, rfl, recvStep_frame hnext (frame_length_lt hnext hlt)⟩

lemma next_length {b f r : QByteArray} (h : busFrames.next b = some (f, r)) :
    declared b + HEADER_LEN ≤ b.length := by
  obtain ⟨rfl, hlength⟩ := next_eq_some_iff.mp h
  rw [declared_append (by omega), List.length_append]
  omega

lemma noWrap_of_reaches {b b' : QByteArray} (h : NoWrap b) (hlt : b.length < 2 ^ 31)
    (hr : Reaches b b') : NoWrap b' ∧ b'.length < 2 ^ 31 := by
  induction hr with
  | refl => exact ⟨h, hlt⟩
  | tail _ hstep ih =>
    obtain ⟨m, hstep⟩ := hstep
    rcases recvStep_cases ih.1 ih.2 with hnone | ⟨f, r, m', hnext, hsome⟩
    · rw [hnone] at hstep
      cases hstep
    · obtain ⟨-, rfl⟩ := Prod.mk.inj (Option.some.inj (hsome.symm.trans hstep))
      exact ⟨ih.1.rest hnext, lt_trans (Frames.next_length_lt hnext) ih.2⟩

lemma terminates_of_noWrap {b : QByteArray} (h : NoWrap b) (hlt : b.length < 2 ^ 31) :
    ∃ fuel, (recvAll fuel b).isSome := by
  induction hn : b.length using Nat.strong_induction_on generalizing b with
  | _ n ih =>
    subst hn
    rcases recvStep_cases h hlt with hnone | ⟨f, r, m, hnext, hsome⟩
    · exact ⟨1, by rw [recvAll, hnone]; rfl⟩
    · have hshort := Frames.next_length_lt hnext
      obtain ⟨fuel, hfuel⟩ := ih r.length hshort (h.rest hnext) (lt_trans hshort hlt) rfl
      exact ⟨fuel + 1, by rw [recvAll, hsome]; simpa using hfuel⟩

lemma reaches_frames {fs : List QByteArray} (hfs : ∀ f ∈ fs, busFrames.IsFrame f) {r : QByteArray}
    (hlt : (fs.flatten ++ r).length < 2 ^ 31) : Reaches (fs.flatten ++ r) r := by
  induction fs with
  | nil => exact .refl
  | cons f fs ih =>
    rw [List.flatten_cons, List.append_assoc] at hlt ⊢
    have hnext := (hfs f (by simp)).next (fs.flatten ++ r)
    refine .head ⟨_, recvStep_frame hnext (frame_length_lt hnext hlt)⟩
      (ih (fun g hg => hfs g (by simp [hg])) ?_)
    rw [List.length_append] at hlt
    omega

/-- **The loop of `recvAll`** is sound exactly for the buffers in which no length wraps. -/
theorem sound_iff_noWrap {b : QByteArray} (hlt : b.length < 2 ^ 31) : Sound b ↔ NoWrap b := by
  constructor
  · rintro h fs r hfs rfl hwrap
    have hreaches := reaches_frames hfs hlt
    obtain ⟨m, hstep⟩ := recvStep_wraps hwrap
    have hpresent := h.present r m _ hreaches hstep
    have hsum := hwrap.2
    rw [List.length_append] at hlt
    omega
  · intro h
    refine ⟨terminates_of_noWrap h hlt, fun b' m b'' hr hstep => ?_, fun b' m b'' hr hstep => ?_⟩
    · obtain ⟨h', hlt'⟩ := noWrap_of_reaches h hlt hr
      rcases recvStep_cases h' hlt' with hnone | ⟨f, r, m', hnext, hsome⟩
      · rw [hnone] at hstep
        cases hstep
      · obtain ⟨-, rfl⟩ := Prod.mk.inj (Option.some.inj (hsome.symm.trans hstep))
        exact Frames.next_length_lt hnext
    · obtain ⟨h', hlt'⟩ := noWrap_of_reaches h hlt hr
      rcases recvStep_cases h' hlt' with hnone | ⟨f, r, m', hnext, hsome⟩
      · rw [hnone] at hstep
        cases hstep
      · exact next_length hnext

/-- A whole frame, and the front of another. -/
def frameAndFront : QByteArray :=
  [0x81, 0, 0, 0, 8, 0, 0, 0, 0, 0, 0, 0, 0] ++ [0x81, 0, 0, 0, 9, 1]

lemma noWrap_frameAndFront : NoWrap frameAndFront := by
  have hfront : NoWrap [0x81, 0, 0, 0, 9, 1] :=
    noWrap_of_next_none (by decide) (by decide +kernel)
  exact noWrap_of_next (by decide) (f := [0x81, 0, 0, 0, 8, 0, 0, 0, 0, 0, 0, 0, 0])
    (by decide +kernel) hfront

theorem sound_iff_noWrap_frameAndFront : Sound frameAndFront :=
  (sound_iff_noWrap (by decide)).mpr noWrap_frameAndFront

/-- The header with the length `2^32 - 5`, and nothing behind it. -/
def endless : QByteArray := [0x81, 0xFF, 0xFF, 0xFF, 0xFB]

theorem not_sound_endless : ¬ Sound endless := by
  intro h
  have hstep : recvStep endless = some (some ⟨0x81, [], true⟩, endless) := by decide +kernel
  obtain ⟨fuel, hfuel⟩ := h.terminates
  induction fuel with
  | zero => cases hfuel
  | succ fuel ih =>
    rw [recvAll, hstep] at hfuel
    exact ih (by simpa using hfuel)

end TreeFrog.SystemBus
