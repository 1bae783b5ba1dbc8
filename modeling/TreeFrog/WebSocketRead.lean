import TreeFrog.WebSocketParse

/-!
Reading the list of frames: it is cut into messages behind its final frames.

`TEpollWebSocket::readAllBinaryRequest` and the loop of `TWebSocket::readRequest` are the same
loop. What it makes of a list of completed frames is `group`, and what a new frame does to
that is settled here.
-/

namespace TreeFrog.WebSocketRead

open TreeFrog.Bytes TreeFrog.WebSocketFrame TreeFrog.WebSocketWire TreeFrog.WebSocketParse

/-- A frame that ends a message and has been read completely. -/
def isReadable (frm : TWebSocketFrame) : Bool := frm.isFinalFrame && frm.state_ = .Completed

def canReadRequest (frames : List TWebSocketFrame) : Bool := frames.any isReadable

/-- Takes frames off the list up to one that ends a message, and joins their payloads. -/
def takePayload (payload : QByteArray) :
    List TWebSocketFrame → Option QByteArray × List TWebSocketFrame
  | [] => (none, [])
  | frm :: frames =>
    if isReadable frm then (some (payload ++ frm.payload_), frames)
    else takePayload (payload ++ frm.payload_) frames

/-- Every turn takes a frame off the list, so that as many turns as there are frames are
enough. -/
def readAll : ℕ → List TWebSocketFrame → List Message × List TWebSocketFrame
  | 0, frames => ([], frames)
  | fuel + 1, frames =>
    if canReadRequest frames then
      let opcode := (frames.headD {}).opCode
      match takePayload [] frames with
      | (none, rest) => readAll fuel rest
      | (some payload, rest) =>
        ((opcode, payload) :: (readAll fuel rest).1, (readAll fuel rest).2)
    else ([], frames)

def readAllBinaryRequest (frames : List TWebSocketFrame) :
    List Message × List TWebSocketFrame := readAll frames.length frames

/-! ### What the list is cut into -/

/-- The messages of a list of completed frames behind the fragments `p`, and the fragments
left over. -/
def group : List Frame → List Frame → List Message × List Frame
  | p, [] => ([], p)
  | p, f :: fs =>
    if f.fin then (messageOf (p ++ [f]) :: (group [] fs).1, (group [] fs).2)
    else group (p ++ [f]) fs

lemma group_of_not_final (p : List Frame) {fs : List Frame} (h : ∀ g ∈ fs, g.fin = false) :
    group p fs = ([], p ++ fs) := by
  induction fs generalizing p with
  | nil => simp [group]
  | cons g fs ih =>
    obtain ⟨hg, h⟩ := List.forall_mem_cons.mp h
    rw [group, hg, if_neg (by decide), ih _ h]
    simp

lemma isReadable_done (f : Frame) : isReadable (done f) = f.fin := by
  unfold isReadable
  rw [done_isFinalFrame]
  exact Bool.and_true _

section
variable {tail : List TWebSocketFrame} (htail : ∀ g ∈ tail, g.state_ ≠ .Completed)
include htail

lemma canReadRequest_map (fs : List Frame) :
    canReadRequest (fs.map done ++ tail) = fs.any Frame.fin := by
  have h0 : tail.any isReadable = false := List.any_eq_false.mpr fun g hg => by
    unfold isReadable
    simp [htail g hg]
  unfold canReadRequest
  rw [List.any_append, h0, Bool.or_false, List.any_map]
  congr 1
  funext f
  exact isReadable_done f

omit htail in
lemma takePayload_map {p : List Frame} (hp : ∀ g ∈ p, g.fin = false) {f : Frame}
    (hf : f.fin = true) (pay : QByteArray) (rest : List TWebSocketFrame) :
    takePayload pay (p.map done ++ done f :: rest) =
      (some (pay ++ (p ++ [f]).flatMap Frame.payload), rest) := by
  induction p generalizing pay with
  | nil =>
    rw [List.map_nil, List.nil_append, takePayload, isReadable_done, if_pos hf]
    simp [done]
  | cons g p ih =>
    obtain ⟨hg, hp⟩ := List.forall_mem_cons.mp hp
    rw [List.map_cons, List.cons_append, takePayload, isReadable_done, hg,
      if_neg (by decide), ih hp]
    simp [done]

/-- **Reading the list** gives the messages, and leaves the fragments. -/
lemma readAll_map {p : List Frame} (hp : ∀ g ∈ p, g.fin = false) (fs : List Frame) {fuel : ℕ}
    (hf : (p ++ fs).length ≤ fuel) :
    readAll fuel ((p ++ fs).map done ++ tail) =
      ((group p fs).1, (group p fs).2.map done ++ tail) := by
  induction fs generalizing p fuel with
  | nil =>
    have hcan : canReadRequest (p.map done ++ tail) = false := by
      rw [canReadRequest_map htail, List.any_eq_false]
      exact fun g hg => by rw [hp g hg]; decide
    rw [List.append_nil, group]
    cases fuel with
    | zero => rfl
    | succ fuel =>
      rw [readAll, hcan]
      rfl
  | cons f fs ih =>
    cases hfin : f.fin with
    | false =>
      have hp' : ∀ g ∈ p ++ [f], g.fin = false := by
        intro g hg
        rcases List.mem_append.mp hg with hg | hg
        · exact hp g hg
        · rw [List.mem_singleton.mp hg]; exact hfin
      have ih := ih hp' (show ((p ++ [f]) ++ fs).length ≤ fuel by simpa using hf)
      rw [group, hfin, if_neg (by decide), ← ih]
      simp
    | true =>
      obtain ⟨fuel, rfl⟩ := Nat.exists_eq_succ_of_ne_zero (show fuel ≠ 0 by
        rintro rfl; simp at hf)
      have hcan : canReadRequest ((p ++ f :: fs).map done ++ tail) = true := by
        rw [canReadRequest_map htail]
        simp [hfin]
      have hsplit : (p ++ f :: fs).map done ++ tail =
          p.map done ++ done f :: (fs.map done ++ tail) := by simp
      have htake := takePayload_map hp hfin [] (fs.map done ++ tail)
      have hlen : ([] ++ fs).length ≤ fuel := by
        rw [List.length_append, List.length_cons] at hf
        rw [List.nil_append]
        omega
      have ih := ih (p := []) (by simp) hlen
      rw [List.nil_append] at ih
      rw [group, hfin, if_pos rfl]
      -- the operation is that of the first frame
      have hop : (((p ++ f :: fs).map done ++ tail).headD {}).opCode =
          (messageOf (p ++ [f])).1 := by
        cases p with
        | nil => exact done_opCode f
        | cons g p => exact done_opCode g
      rw [readAll, hcan, if_pos rfl]
      simp only [hop]
      rw [hsplit, htake]
      simp only [ih, List.nil_append]
      rfl

lemma readAllBinaryRequest_map (fs : List Frame) :
    readAllBinaryRequest (fs.map done ++ tail) =
      ((group [] fs).1, (group [] fs).2.map done ++ tail) := by
  have h := readAll_map htail (p := []) (by simp) fs
    (show ([] ++ fs).length ≤ (fs.map done ++ tail).length by simp)
  exact h

end

/-! ### What a frame adds to the list -/

lemma group_concat (p fs : List Frame) (f : Frame) :
    group p (fs ++ [f]) =
      if f.fin then ((group p fs).1 ++ [messageOf ((group p fs).2 ++ [f])], [])
      else ((group p fs).1, (group p fs).2 ++ [f]) := by
  induction fs generalizing p with
  | nil => simp [group]
  | cons g fs ih =>
    rw [List.cons_append, group, group, ih, ih]
    split_ifs <;> rfl

lemma group_fragments {p : List Frame} (hp : ∀ g ∈ p, g.fin = false) (fs : List Frame) :
    (group p fs).2 <:+ p ++ fs ∧ ∀ g ∈ (group p fs).2, g.fin = false := by
  induction fs generalizing p with
  | nil => rw [group, List.append_nil]; exact ⟨List.suffix_rfl, hp⟩
  | cons f fs ih =>
    rw [group]
    split_ifs with hf
    · obtain ⟨h1, h2⟩ := ih (p := []) (by simp)
      refine ⟨h1.trans ?_, h2⟩
      exact (List.suffix_cons f fs).trans (List.suffix_append p (f :: fs))
    · have hp' : ∀ g ∈ p ++ [f], g.fin = false := by
        intro g hg
        rcases List.mem_append.mp hg with hg | hg
        · exact hp g hg
        · rw [List.mem_singleton.mp hg]; simpa using hf
      have := ih hp'
      rwa [List.append_assoc, List.singleton_append] at this

/-- The place of a control frame in the list. -/
def insertFrame (c : Frame) : List Frame → List Frame
  | [] => [c]
  | f :: fs => if f.isControl then f :: insertFrame c fs else f :: c :: fs

/-- The list with one more frame. -/
def arrive (fs : List Frame) (f : Frame) : List Frame :=
  if f.isControl then insertFrame f fs else fs ++ [f]

lemma place_map (fs : List Frame) (f : Frame) :
    place (fs.map done) (done f) = (arrive fs f).map done := by
  have hins : insertControlFrame (done f) (fs.map done) = (insertFrame f fs).map done := by
    induction fs with
    | nil => rfl
    | cons g fs ih =>
      rw [List.map_cons, insertControlFrame, insertFrame, done_isControlFrame, ih]
      split_ifs <;> rfl
  unfold place arrive
  rw [done_isControlFrame, hins]
  split_ifs <;> simp

/-- The first frame that is no control frame, if there is one, ends its message. -/
def FirstDataFinal (fs : List Frame) : Prop :=
  (fs.find? fun f => !f.isControl).all Frame.fin = true

instance (fs : List Frame) : Decidable (FirstDataFinal fs) := by
  unfold FirstDataFinal; infer_instance

lemma control_fin {f : Frame} (h : f.isControl = true) : f.fin = true := (f.control_short h).1

/-- **A control frame behind a final frame** is a message of its own, and changes nothing about
the others. -/
lemma group_insertFrame {c : Frame} (hc : c.isControl = true) {fs : List Frame}
    (h : FirstDataFinal fs) :
    ∃ d₁ d₂, (group [] fs).1 = d₁ ++ d₂ ∧
      group [] (insertFrame c fs) = (d₁ ++ messageOf [c] :: d₂, (group [] fs).2) := by
  induction fs with
  | nil => exact ⟨[], [], rfl, by simp [insertFrame, group, control_fin hc]⟩
  | cons f fs ih =>
    cases hf : f.isControl with
    | true =>
      have hfin := control_fin hf
      obtain ⟨d₁, d₂, h1, h2⟩ := ih (by simpa [FirstDataFinal, hf] using h)
      refine ⟨messageOf [f] :: d₁, d₂, ?_, ?_⟩
      · rw [group, hfin, if_pos rfl, h1]; rfl
      · rw [insertFrame, hf, if_pos rfl, group, hfin, if_pos rfl, h2, group, hfin, if_pos rfl]
        rfl
    | false =>
      have hfin : f.fin = true := by simpa [FirstDataFinal, hf] using h
      refine ⟨[messageOf [f]], (group [] fs).1, ?_, ?_⟩
      · rw [group, hfin, if_pos rfl]; rfl
      · simp [insertFrame, hf, group, hfin, control_fin hc]

/-- A control frame does not become the first data frame, nor move it. -/
lemma find_insertFrame {c : Frame} (hc : c.isControl = true) (fs : List Frame) :
    (insertFrame c fs).find? (fun f => !f.isControl) = fs.find? (fun f => !f.isControl) := by
  induction fs with
  | nil => simp [insertFrame, hc]
  | cons f fs ih =>
    cases hf : f.isControl <;> simp [insertFrame, hf, ih]

end TreeFrog.WebSocketRead
