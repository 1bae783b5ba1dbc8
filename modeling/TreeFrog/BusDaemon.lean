import Mathlib.Logic.Function.Basic
import TreeFrog.SystemBus

/-!
The bus daemon: what a server writes is relayed to the other servers, frame by frame. A call reads
what there is, and waits a bounded time for more when a frame is not there as a whole.
-/

namespace TreeFrog.BusDaemon

open Bytes BigEndian DataStream Framing SystemBus SystemBus.TSystemBusMessage

/-! ### The daemon -/

/-- The loop of `readSocket`, for so many turns at most: the frames it writes, the pieces it has not
come to, and the bytes it drops when it gives up. Each wait brings the next piece; behind the last
one a wait fails. -/
def readLoop : ℕ → List QByteArray → QByteArray →
    Option (List QByteArray × List QByteArray × QByteArray)
  | 0, _, _ => none
  | fuel + 1, waits, buf =>
    let length := (readUInt32 (readUInt8 buf).2).1
    if buf.length < (length + HEADER_LEN) % 2 ^ 32 then
      match waits with
      | [] => some ([], [], buf)
      | piece :: waits => readLoop fuel waits (buf ++ piece)
    else
      let frame := buf.take ((length + HEADER_LEN) % 2 ^ 32)
      let rest := buf.drop ((length + HEADER_LEN) % 2 ^ 32)
      if rest = [] then some ([frame], waits, [])
      else (readLoop fuel waits rest).map fun (frames, unread, lost) =>
        (frame :: frames, unread, lost)

lemma readLoop_short {fuel : ℕ} {waits : List QByteArray} {buf : QByteArray}
    (h : buf.length < ((readUInt32 (readUInt8 buf).2).1 + HEADER_LEN) % 2 ^ 32) :
    readLoop (fuel + 1) waits buf =
      match waits with
      | [] => some ([], [], buf)
      | piece :: waits => readLoop fuel waits (buf ++ piece) := by
  cases waits <;> exact if_pos h

lemma readLoop_long {fuel n : ℕ} {waits : List QByteArray} {buf : QByteArray}
    (hn : ((readUInt32 (readUInt8 buf).2).1 + HEADER_LEN) % 2 ^ 32 = n) (h : n ≤ buf.length) :
    readLoop (fuel + 1) waits buf =
      if buf.drop n = [] then some ([buf.take n], waits, [])
      else (readLoop fuel waits (buf.drop n)).map fun (frames, unread, lost) =>
        (buf.take n :: frames, unread, lost) := by
  subst hn
  cases waits <;> exact if_neg (not_lt.mpr h)

/-- What has arrived from each server and is not read, and what has been written to it. -/
structure SystemBusDaemon (ι : Type) where
  socketBuffer : ι → QByteArray
  written : ι → QByteArray

/-- A `readyRead`: what has arrived before it, and while it is handled. -/
structure ReadyRead (ι : Type) where
  socket : ι
  arrived : QByteArray
  waits : List QByteArray

variable {ι : Type} [DecidableEq ι]

/-- `readSocket`; `none` if it does not come to an end. -/
def readSocket (maxServers : ℕ) (s : SystemBusDaemon ι) (e : ReadyRead ι) :
    Option (SystemBusDaemon ι) :=
  let buf := s.socketBuffer e.socket ++ e.arrived
  if maxServers ≤ 1 then
    some { s with socketBuffer := Function.update s.socketBuffer e.socket e.waits.flatten }
  else
    (readLoop (buf.length + e.waits.flatten.length + e.waits.length + 1) e.waits buf).map
      fun (frames, unread, _) =>
        { socketBuffer := Function.update s.socketBuffer e.socket unread.flatten
          written := fun d =>
            if d = e.socket then s.written d else s.written d ++ frames.flatten }

def run (maxServers : ℕ) (s : SystemBusDaemon ι) (es : List (ReadyRead ι)) :
    Option (SystemBusDaemon ι) :=
  es.foldlM (readSocket maxServers) s

def start : SystemBusDaemon ι := ⟨fun _ => [], fun _ => []⟩

/-- All that has arrived from a server. -/
def arrivedFrom (i : ι) : List (ReadyRead ι) → QByteArray
  | [] => []
  | e :: es => (if e.socket = i then e.arrived ++ e.waits.flatten else []) ++ arrivedFrom i es

/-! ### The property and the condition -/

/-- A frame that a server has written. -/
def IsSent (f : QByteArray) : Prop :=
  ∃ m : TSystemBusMessage, f = m.toByteArray ∧ m.payload.length + HEADER_LEN < 2 ^ 31

/-- What is relayed to each server is a sequence of whole frames of the others, of each of them at
most once and in its order. -/
def Relays (sent : ι → List QByteArray) (s : SystemBusDaemon ι) : Prop :=
  ∀ d, ∃ l : List (ι × QByteArray), s.written d = (l.map Prod.snd).flatten ∧
    (∀ x ∈ l, x.1 ≠ d) ∧ ∀ i, ((l.filter fun x => x.1 = i).map Prod.snd).Sublist (sent i)

/-- The waits are for nothing or bring the rest: when one fails, or the call ends, the bytes it has
read are whole frames. -/
def Completes : QByteArray → List QByteArray → Prop
  | buf, [] => ∃ fs : List QByteArray, (∀ f ∈ fs, busFrames.IsFrame f) ∧ buf = fs.flatten
  | buf, piece :: waits =>
    (buf ≠ [] ∧ ∃ fs : List QByteArray, (∀ f ∈ fs, busFrames.IsFrame f) ∧ buf = fs.flatten) ∨
      Completes (buf ++ piece) waits

/-- A run each call of which completes its frames, if there is a server to relay them to. -/
def CompletesRun (maxServers : ℕ) : SystemBusDaemon ι → List (ReadyRead ι) → Prop
  | _, [] => True
  | s, e :: es => (1 < maxServers → Completes (s.socketBuffer e.socket ++ e.arrived) e.waits) ∧
    ∀ s', readSocket maxServers s e = some s' → CompletesRun maxServers s' es

/-! ### One call -/

lemma isFrame_of_isSent {f : QByteArray} (h : IsSent f) :
    busFrames.IsFrame f ∧ f.length < 2 ^ 31 ∧ declared f + HEADER_LEN < 2 ^ 31 := by
  obtain ⟨m, rfl, hlt⟩ := h
  have hdeclared : declared m.toByteArray = m.payload.length := by
    rw [declared, toByteArray, List.cons_append, List.drop_succ_cons, List.drop_zero,
      List.take_left' (length_toBytes 4 _), ofBytes_toBytes (by omega)]
  have hlength : m.toByteArray.length = m.payload.length + HEADER_LEN := by
    simp only [toByteArray, List.cons_append, List.length_cons, List.length_append, length_toBytes,
      HEADER_LEN]
    omega
  refine ⟨next_eq_some_iff.mpr ⟨(List.append_nil _).symm, ?_⟩, ?_, ?_⟩
  · rw [hdeclared, hlength, Nat.add_comm]
  · rw [hlength]
    exact hlt
  · rw [hdeclared]
    exact hlt

lemma short_of_prefix {f b q : QByteArray} (h : IsSent f) (hb : b ++ q = f)
    (hnext : busFrames.next b = none) :
    b.length < ((readUInt32 (readUInt8 b).2).1 + HEADER_LEN) % 2 ^ 32 := by
  obtain ⟨-, -, hlt⟩ := isFrame_of_isSent h
  rw [readUInt32_header]
  by_cases hheader : HEADER_LEN ≤ b.length
  · have hdeclared := declared_append hheader q
    rw [hb] at hdeclared
    rw [if_pos hheader, Nat.mod_eq_of_lt (by omega)]
    rw [busFrames_next] at hnext
    split at hnext
    · cases hnext
    · rename_i hnot
      rw [not_and, not_le] at hnot
      have hshort := hnot hheader
      omega
  · rw [if_neg hheader]
    exact not_le.mp hheader

lemma long_of_next {f b r : QByteArray} (hlt : f.length < 2 ^ 32)
    (hnext : busFrames.next b = some (f, r)) :
    ((readUInt32 (readUInt8 b).2).1 + HEADER_LEN) % 2 ^ 32 = f.length ∧ f.length ≤ b.length := by
  obtain ⟨rfl, hlength⟩ := next_eq_some_iff.mp hnext
  have hheader : HEADER_LEN ≤ (f ++ r).length := by
    rw [List.length_append]
    omega
  rw [readUInt32_header, if_pos hheader, declared_append (by omega), Nat.add_comm, hlength,
    List.length_append]
  exact ⟨Nat.mod_eq_of_lt hlt, by omega⟩

lemma frames_rest {b f r : QByteArray} (hnext : busFrames.next b = some (f, r))
    {fs : List QByteArray} (hfs : ∀ g ∈ fs, busFrames.IsFrame g) (hb : b = fs.flatten) :
    ∃ gs : List QByteArray, (∀ g ∈ gs, busFrames.IsFrame g) ∧ r = gs.flatten := by
  obtain ⟨gs, rfl, hgs⟩ := Frames.next_stream hfs (by rw [List.append_nil]; exact hb) hnext
  rw [List.append_nil] at hgs
  exact ⟨gs, fun g hg => hfs g (List.mem_cons_of_mem _ hg), hgs⟩

lemma Completes.rest {b f r : QByteArray} (hnext : busFrames.next b = some (f, r)) (hr : r ≠ [])
    {waits : List QByteArray} (h : Completes b waits) : Completes r waits := by
  induction waits generalizing b r with
  | nil =>
    obtain ⟨fs, hfs, hb⟩ := h
    exact frames_rest hnext hfs hb
  | cons piece waits ih =>
    rcases h with ⟨-, fs, hfs, hb⟩ | h
    · exact .inl ⟨hr, frames_rest hnext hfs hb⟩
    · exact .inr (ih (busFrames.next_append hnext piece) (by simp [hr]) h)

lemma eq_nil_of_frames {b : QByteArray} (hnext : busFrames.next b = none) {fs : List QByteArray}
    (hfs : ∀ g ∈ fs, busFrames.IsFrame g) (hb : b = fs.flatten) : b = [] := by
  cases fs with
  | nil => exact hb
  | cons g gs =>
    have hg := (hfs g (by simp)).next gs.flatten
    rw [hb, List.flatten_cons, hg] at hnext
    cases hnext

lemma short_of_stream {fs : List QByteArray} (hfs : ∀ f ∈ fs, IsSent f) {b q : QByteArray}
    (hq : b ++ q = fs.flatten) (hnext : busFrames.next b = none) :
    b.length < ((readUInt32 (readUInt8 b).2).1 + HEADER_LEN) % 2 ^ 32 := by
  cases fs with
  | nil =>
    obtain rfl := (List.append_eq_nil_iff.mp hq).1
    decide
  | cons f fs =>
    have hf := hfs f List.mem_cons_self
    obtain ⟨t, ht⟩ := Frames.next_none_stream (isFrame_of_isSent hf).1 hq hnext
    exact short_of_prefix hf ht hnext

/-- **A call that completes its frames** writes the frames it reads, and drops nothing. -/
lemma readLoop_completes {fs : List QByteArray} (hfs : ∀ f ∈ fs, IsSent f)
    {waits : List QByteArray} {buf q : QByteArray} (hq : buf ++ waits.flatten ++ q = fs.flatten)
    (h : Completes buf waits) {fuel : ℕ}
    (hfuel : buf.length + waits.flatten.length + waits.length < fuel) :
    ∃ done todo unread, fs = done ++ todo ∧ readLoop fuel waits buf = some (done, unread, []) ∧
      buf ++ waits.flatten = done.flatten ++ unread.flatten := by
  induction fuel generalizing fs waits buf with
  | zero => omega
  | succ fuel ih =>
    have hstream : buf ++ (waits.flatten ++ q) = fs.flatten := by rw [← List.append_assoc, hq]
    cases hnext : busFrames.next buf with
    | none =>
      rw [readLoop_short (short_of_stream hfs hstream hnext)]
      cases waits with
      | nil =>
        obtain ⟨gs, hgs, hb⟩ := h
        obtain rfl := eq_nil_of_frames hnext hgs hb
        exact ⟨[], fs, [], rfl, rfl, rfl⟩
      | cons piece waits =>
        rcases h with ⟨hne, gs, hgs, hb⟩ | h
        · exact absurd (eq_nil_of_frames hnext hgs hb) hne
        · rw [List.flatten_cons, List.length_append, List.length_cons] at hfuel
          rw [List.flatten_cons, ← List.append_assoc] at hq ⊢
          exact ih hfs hq h (by rw [List.length_append]; omega)
    | some x =>
      obtain ⟨f, r⟩ := x
      -- the frame at the front is the next one that was sent
      obtain ⟨gs, rfl, hrest⟩ :=
        Frames.next_stream (fun g hg => (isFrame_of_isSent (hfs g hg)).1) hstream hnext
      have hg := isFrame_of_isSent (hfs f List.mem_cons_self)
      obtain ⟨hmod, hle⟩ := long_of_next (by omega) hnext
      have hbuf := busFrames.eq_append hnext
      rw [readLoop_long hmod hle]
      have htake : buf.take f.length = f := by rw [hbuf, List.take_left' rfl]
      have hdrop : buf.drop f.length = r := by rw [hbuf, List.drop_left' rfl]
      rw [htake, hdrop]
      by_cases hr : r = []
      · rw [if_pos hr]
        exact ⟨[f], gs, waits, rfl, rfl, by rw [hbuf, hr]; simp⟩
      · rw [if_neg hr]
        have hshort := Frames.next_length_lt hnext
        obtain ⟨done, todo, unread, rfl, hloop, hread⟩ :=
          ih (fun f hf => hfs f (List.mem_cons_of_mem _ hf))
            (by rw [List.append_assoc]; exact hrest)
            (h.rest hnext hr) (by omega)
        refine ⟨f :: done, todo, unread, rfl, by rw [hloop]; rfl, ?_⟩
        rw [hbuf, List.append_assoc, hread, List.flatten_cons, List.append_assoc]

/-! ### Runs -/

/-- After the events `es`, every server's frames up to some point are relayed to the others, and
what has arrived of it since is kept. -/
structure Inv (sent : ι → List QByteArray) (es : List (ReadyRead ι)) (s : SystemBusDaemon ι)
    (done : ι → List QByteArray) : Prop where
  sent : ∀ i, done i <+: sent i
  arrived : ∀ i, arrivedFrom i es = (done i).flatten ++ s.socketBuffer i
  written : ∀ d, ∃ l : List (ι × QByteArray), s.written d = (l.map Prod.snd).flatten ∧
    (∀ x ∈ l, x.1 ≠ d) ∧ ∀ i ≠ d, (l.filter fun x => x.1 = i).map Prod.snd = done i

omit [DecidableEq ι] in
lemma arrivedFrom_append [DecidableEq ι] (i : ι) (es es' : List (ReadyRead ι)) :
    arrivedFrom i (es ++ es') = arrivedFrom i es ++ arrivedFrom i es' := by
  induction es with
  | nil => rfl
  | cons e es ih => rw [List.cons_append, arrivedFrom, ih, arrivedFrom, List.append_assoc]

section
variable {sent : ι → List QByteArray} {s : SystemBusDaemon ι} {maxServers : ℕ}

lemma relays_of_inv {es : List (ReadyRead ι)} {done : ι → List QByteArray}
    (h : Inv sent es s done) : Relays sent s := by
  intro d
  obtain ⟨l, hwritten, hother, hdone⟩ := h.written d
  refine ⟨l, hwritten, hother, fun i => ?_⟩
  by_cases hi : i = d
  · have hnone : (l.filter fun x => x.1 = i) = [] := by
      rw [List.filter_eq_nil_iff]
      intro x hx
      simpa [hi] using hother x hx
    rw [hnone]
    exact List.nil_sublist _
  · rw [hdone i hi]
    exact (h.sent i).sublist

lemma map_snd_pair {β : Type*} (i : β) (fs : List QByteArray) :
    (fs.map (i, ·)).map Prod.snd = fs := by
  rw [List.map_map]
  exact List.map_id fs

lemma inv_readSocket (hmax : ¬ maxServers ≤ 1) (hsent : ∀ i, ∀ f ∈ sent i, IsSent f)
    {es : List (ReadyRead ι)} {done : ι → List QByteArray} (h : Inv sent es s done)
    {e : ReadyRead ι} {q : QByteArray}
    (hq : arrivedFrom e.socket (es ++ [e]) ++ q = (sent e.socket).flatten)
    (hcompletes : Completes (s.socketBuffer e.socket ++ e.arrived) e.waits) :
    ∃ s' done', readSocket maxServers s e = some s' ∧ Inv sent (es ++ [e]) s' done' := by
  obtain ⟨todo, htodo⟩ := h.sent e.socket
  have hlast : arrivedFrom e.socket [e] = e.arrived ++ e.waits.flatten := by simp [arrivedFrom]
  -- what is unread and what is still to come are the frames not yet relayed
  have hrest : s.socketBuffer e.socket ++ e.arrived ++ e.waits.flatten ++ q = todo.flatten := by
    rw [arrivedFrom_append, h.arrived, hlast, ← htodo, List.flatten_append] at hq
    refine (List.append_right_inj (done e.socket).flatten).mp ?_
    rw [← hq]
    simp only [List.append_assoc]
  have hsent' : ∀ f ∈ todo, IsSent f :=
    fun f hf => hsent e.socket f (by rw [← htodo]; exact List.mem_append_right _ hf)
  obtain ⟨new, todo', unread, rfl, hloop, hread⟩ :=
    readLoop_completes hsent' hrest hcompletes (Nat.lt_succ_self _)
  have hstep : readSocket maxServers s e = some
      { socketBuffer := Function.update s.socketBuffer e.socket unread.flatten
        written := fun d => if d = e.socket then s.written d else s.written d ++ new.flatten } := by
    rw [readSocket, if_neg hmax, hloop]
    rfl
  refine ⟨_, Function.update done e.socket (done e.socket ++ new), hstep, fun i => ?_,
    fun i => ?_, fun d => ?_⟩
  · by_cases hi : i = e.socket
    · subst hi
      rw [Function.update_self, ← htodo, ← List.append_assoc]
      exact List.prefix_append _ _
    · rw [Function.update_of_ne hi]
      exact h.sent i
  · rw [arrivedFrom_append, h.arrived]
    by_cases hi : i = e.socket
    · subst hi
      simp only [Function.update_self, hlast, List.flatten_append, List.append_assoc] at hread ⊢
      rw [hread]
    · have hnone : arrivedFrom i [e] = [] := by simp [arrivedFrom, Ne.symm hi]
      simp only [Function.update_of_ne hi, hnone, List.append_nil]
  · obtain ⟨l, hwritten, hother, hdone⟩ := h.written d
    by_cases hd : d = e.socket
    · refine ⟨l, by simp only [if_pos hd, hwritten], hother, fun i hi => ?_⟩
      rw [Function.update_of_ne (by rw [← hd]; exact hi), hdone i hi]
    · refine ⟨l ++ new.map (e.socket, ·), ?_, ?_, fun i hi => ?_⟩
      · simp only [if_neg hd, hwritten, List.map_append, List.flatten_append, map_snd_pair]
      · intro x hx
        rcases List.mem_append.mp hx with hx | hx
        · exact hother x hx
        · obtain ⟨f, -, rfl⟩ := List.mem_map.mp hx
          exact Ne.symm hd
      · rw [List.filter_append, List.map_append, hdone i hi]
        by_cases hie : i = e.socket
        · subst hie
          rw [Function.update_self, List.filter_eq_self.mpr (by simp), map_snd_pair]
        · rw [Function.update_of_ne hie, List.filter_eq_nil_iff.mpr (by simp [Ne.symm hie])]
          simp

lemma inv_run (hmax : ¬ maxServers ≤ 1) (hsent : ∀ i, ∀ f ∈ sent i, IsSent f)
    {es es' : List (ReadyRead ι)} {done : ι → List QByteArray} (h : Inv sent es s done)
    (harrived : ∀ i, arrivedFrom i (es ++ es') <+: (sent i).flatten)
    (hcompletes : CompletesRun maxServers s es') :
    ∃ s' done', run maxServers s es' = some s' ∧ Inv sent (es ++ es') s' done' := by
  induction es' generalizing s es done with
  | nil => exact ⟨s, done, rfl, by rw [List.append_nil]; exact h⟩
  | cons e es' ih =>
    obtain ⟨q, hq⟩ := harrived e.socket
    rw [List.append_cons, arrivedFrom_append, List.append_assoc] at hq
    obtain ⟨s₁, done₁, hread, h₁⟩ := inv_readSocket hmax hsent h hq (hcompletes.1 (not_le.mp hmax))
    obtain ⟨s', done', hrun, h'⟩ := ih h₁ (by rw [← List.append_cons]; exact harrived)
      (hcompletes.2 s₁ hread)
    refine ⟨s', done', ?_, by rw [List.append_cons]; exact h'⟩
    rw [run, List.foldlM_cons, hread]
    exact hrun

lemma written_run (hmax : maxServers ≤ 1) (es : List (ReadyRead ι)) :
    ∃ s', run maxServers s es = some s' ∧ s'.written = s.written := by
  induction es generalizing s with
  | nil => exact ⟨s, rfl, rfl⟩
  | cons e es ih =>
    obtain ⟨s', hrun, hwritten⟩ := ih (s := { s with
      socketBuffer := Function.update s.socketBuffer e.socket e.waits.flatten })
    refine ⟨s', ?_, hwritten⟩
    rw [run, List.foldlM_cons, readSocket, if_pos hmax]
    exact hrun

end

/-- **The daemon** relays whole frames, each once and in the order of its server, in the runs in
which no wait fails while a frame is there in part. -/
theorem relays_of_completes (maxServers : ℕ) {sent : ι → List QByteArray}
    (hsent : ∀ i, ∀ f ∈ sent i, IsSent f) {es : List (ReadyRead ι)}
    (harrived : ∀ i, arrivedFrom i es <+: (sent i).flatten)
    (hcompletes : CompletesRun maxServers start es) :
    ∃ s, run maxServers start es = some s ∧ Relays sent s := by
  by_cases hmax : maxServers ≤ 1
  · obtain ⟨s, hrun, hwritten⟩ := written_run (s := start) hmax es
    refine ⟨s, hrun, fun d => ⟨[], ?_, by simp, by simp⟩⟩
    rw [hwritten]
    rfl
  · have hstart : Inv sent [] start fun _ => [] :=
      ⟨fun i => List.nil_prefix, fun i => rfl, fun d => ⟨[], rfl, by simp, by simp⟩⟩
    obtain ⟨s, done, hrun, h⟩ := inv_run hmax hsent hstart harrived hcompletes
    exact ⟨s, hrun, relays_of_inv h⟩

/-! ### A frame that arrives in two parts -/

/-- A frame with ten bytes of payload, the first five of which are zero. -/
def frame : QByteArray := [0x81, 0, 0, 0, 10, 0, 0, 0, 0, 0, 1, 2, 3, 4, 5]

lemma isSent_frame : IsSent frame :=
  ⟨⟨0x81, [0, 0, 0, 0, 0, 1, 2, 3, 4, 5], false⟩, by decide, by decide⟩

/-- One of two servers writes the frame. -/
def sentFrame (i : Bool) : List QByteArray := if i then [frame] else []

lemma isSent_sentFrame : ∀ i, ∀ f ∈ sentFrame i, IsSent f := by
  intro i f hf
  cases i with
  | false => simp [sentFrame] at hf
  | true =>
    rw [List.mem_singleton.mp hf]
    exact isSent_frame

theorem relays_of_completes_frame :
    ∃ s, run 2 (start : SystemBusDaemon Bool) [⟨true, frame.take 5, [frame.drop 5]⟩] = some s ∧
      Relays sentFrame s := by
  refine relays_of_completes 2 isSent_sentFrame (fun i => ?_) ⟨fun _ => ?_, fun _ _ => trivial⟩
  · cases i <;> exact ⟨[], by decide⟩
  · exact .inr ⟨[frame], by simp [(isFrame_of_isSent isSent_frame).1], by decide⟩

theorem not_relays_twoParts :
    ¬ ∀ es : List (ReadyRead Bool), (∀ i, arrivedFrom i es <+: (sentFrame i).flatten) →
      ∃ s, run 2 start es = some s ∧ Relays sentFrame s := by
  intro h
  obtain ⟨s, hrun, hrelays⟩ := h [⟨true, frame.take 5, []⟩, ⟨true, frame.drop 5, []⟩]
    (fun i => by cases i <;> exact ⟨[], by decide⟩)
  have hwritten : s.written false = [0, 0, 0, 0, 0] := by
    have hsome : (run 2 start [⟨true, frame.take 5, []⟩, ⟨true, frame.drop 5, []⟩]).map
        (fun s : SystemBusDaemon Bool => s.written false) = some [0, 0, 0, 0, 0] := by
      decide +kernel
    rw [hrun] at hsome
    exact Option.some.inj hsome
  obtain ⟨l, hl, hother, hsent⟩ := hrelays false
  have hall : l.filter (fun x => x.1 = true) = l := by
    rw [List.filter_eq_self]
    intro x hx
    simpa using hother x hx
  have hsub := hsent true
  rw [hall] at hsub
  rw [hwritten] at hl
  -- nothing was relayed, or the frame as a whole
  rcases List.sublist_singleton.mp (show (l.map Prod.snd).Sublist [frame] from hsub)
    with hnil | hone
  · rw [hnil] at hl
    cases hl
  · rw [hone] at hl
    revert hl
    decide

end TreeFrog.BusDaemon
