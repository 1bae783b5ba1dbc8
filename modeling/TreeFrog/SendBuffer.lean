import TreeFrog.Bytes

/-!
`TSendBuffer`: the header of a response and the file that is its body, behind one cursor. What is
not sent yet is a stretch of the buffer and what is left of the file.
-/

namespace TreeFrog.SendBuffer

open TreeFrog.Bytes

/-! ### The buffer -/

/-- An open file and the position in it. -/
structure QFile where
  content : QByteArray
  pos : ℕ := 0
  deriving DecidableEq

namespace QFile

def atEnd (f : QFile) : Bool := f.content.length ≤ f.pos

def read (f : QFile) (maxSize : ℕ) : QByteArray × QFile :=
  let data := (f.content.drop f.pos).take maxSize
  (data, { f with pos := f.pos + data.length })

def rest (f : QFile) : QByteArray := f.content.drop f.pos

end QFile

structure TSendBuffer where
  arrayBuffer : QByteArray
  bodyFile : Option QFile := none
  startPos : ℕ := 0
  deriving DecidableEq

namespace TSendBuffer

/-- The constructors; there is no file where none exists or it is not opened. -/
def create (header : QByteArray) (file : Option QByteArray) : TSendBuffer where
  arrayBuffer := header
  bodyFile := file.map fun content => { content := content }

def release (b : TSendBuffer) : TSendBuffer := { b with bodyFile := none }

/-- `getData`: the bytes at the pointer returned, as many as `size` is set to. `readError` says
whether `read` fails. -/
def getData (b : TSendBuffer) (size : ℤ) (readError : Bool) : Option QByteArray × TSendBuffer :=
  if size ≤ 0 then (none, b)
  else if b.startPos < b.arrayBuffer.length then
    (some ((b.arrayBuffer.drop b.startPos).take size.toNat), b)
  else
    match b.bodyFile with
    | none => (none, b)
    | some f =>
      if f.atEnd then (none, b)
      else if readError then (none, b.release)
      else
        let block := f.read size.toNat
        (some block.1, { arrayBuffer := block.1, bodyFile := some block.2, startPos := 0 })

def seekData (b : TSendBuffer) (pos : ℤ) : Bool × TSendBuffer :=
  if pos < 0 then (false, b)
  else if b.arrayBuffer.length ≤ b.startPos + pos then
    (true, { b with arrayBuffer := [], startPos := 0 })
  else (true, { b with startPos := b.startPos + pos.toNat })

def atEnd (b : TSendBuffer) : Bool :=
  b.arrayBuffer.length ≤ b.startPos && b.bodyFile.all QFile.atEnd

end TSendBuffer

open TSendBuffer

/-- Calls of `getData` that do not fail to read, each followed by a call of `seekData` for some of
the bytes returned: the bytes sent so far, and the buffer. -/
inductive Sends (b₀ : TSendBuffer) : QByteArray → TSendBuffer → Prop where
  | start : Sends b₀ [] b₀
  | step {sent : QByteArray} {b : TSendBuffer} {size n : ℤ} (h : Sends b₀ sent b) (hsize : 0 < size)
      (hn : 0 ≤ n) (hle : n ≤ ((b.getData size false).1.getD []).length) :
      Sends b₀ (sent ++ ((b.getData size false).1.getD []).take n.toNat)
        ((b.getData size false).2.seekData n).2

/-! ### What is left -/

variable {b b₀ : TSendBuffer} {sent header : QByteArray} {file : Option QByteArray} {size n : ℤ}

/-- The bytes that are not sent yet. -/
def pending (b : TSendBuffer) : QByteArray :=
  b.arrayBuffer.drop b.startPos ++ (b.bodyFile.map QFile.rest).getD []

lemma pending_create : pending (create header file) = header ++ file.getD [] := by
  cases file <;> rfl

lemma rest_read (f : QFile) (maxSize : ℕ) :
    (f.read maxSize).1 ++ (f.read maxSize).2.rest = f.rest := by
  have hdrop : f.content.drop (f.pos + ((f.content.drop f.pos).take maxSize).length) =
      f.rest.drop maxSize := by
    rw [← List.drop_drop, QFile.rest, List.length_take]
    rcases le_total maxSize (f.content.drop f.pos).length with h | h
    · rw [min_eq_left h]
    · rw [min_eq_right h, List.drop_length, List.drop_eq_nil_of_le h]
  rw [QFile.read, QFile.rest, hdrop]
  exact List.take_append_drop maxSize f.rest

lemma getData_spec (b : TSendBuffer) (hsize : 0 < size) :
    pending (b.getData size false).2 = pending b ∧ (b.getData size false).1.getD [] <+:
      (b.getData size false).2.arrayBuffer.drop (b.getData size false).2.startPos := by
  rw [getData, if_neg (by omega)]
  by_cases hbuf : b.startPos < b.arrayBuffer.length
  · rw [if_pos hbuf]
    exact ⟨rfl, List.take_prefix _ _⟩
  · have hnil : b.arrayBuffer.drop b.startPos = [] := List.drop_eq_nil_of_le (by omega)
    rw [if_neg hbuf]
    rcases hfile : b.bodyFile with _ | f
    · exact ⟨rfl, List.nil_prefix⟩
    · dsimp only
      by_cases hend : f.atEnd
      · rw [if_pos hend]
        exact ⟨rfl, List.nil_prefix⟩
      · rw [if_neg hend, if_neg Bool.false_ne_true]
        refine ⟨?_, List.prefix_rfl⟩
        simp only [pending, hnil, hfile, Option.map_some, Option.getD_some, List.drop_zero,
          List.nil_append]
        exact rest_read f size.toNat

lemma seekData_spec (b : TSendBuffer) (hn : 0 ≤ n) :
    (b.arrayBuffer.drop b.startPos).take n.toNat ++ pending (b.seekData n).2 = pending b := by
  have hsplit := List.take_append_drop n.toNat (b.arrayBuffer.drop b.startPos)
  rw [seekData, if_neg (by omega)]
  split_ifs with hall
  · have hdrop : (b.arrayBuffer.drop b.startPos).drop n.toNat = [] := by
      rw [List.drop_drop]
      exact List.drop_eq_nil_of_le (by omega)
    rw [hdrop, List.append_nil] at hsplit
    rw [hsplit]
    rfl
  · rw [List.drop_drop] at hsplit
    simp only [pending]
    rw [← List.append_assoc, hsplit]

lemma atEnd_iff (b : TSendBuffer) : b.atEnd ↔ pending b = [] := by
  rw [atEnd, pending, Bool.and_eq_true, decide_eq_true_eq, List.append_eq_nil_iff,
    List.drop_eq_nil_iff]
  refine and_congr_right fun _ => ?_
  cases b.bodyFile with
  | none => simp
  | some f => simp [QFile.atEnd, QFile.rest]

lemma Sends.append_pending (h : Sends b₀ sent b) : sent ++ pending b = pending b₀ := by
  induction h with
  | start => rfl
  | @step sent b size n _ hsize hn hle ih =>
    obtain ⟨hpending, hprefix⟩ := getData_spec b hsize
    have htake := List.prefix_iff_eq_take.mp hprefix
    rw [htake, List.take_take, min_eq_left (by omega), List.append_assoc, seekData_spec _ hn,
      hpending, ih]

/-- **Everything is sent once**: what is consumed is the header, then the file, and `atEnd` says
whether that is all. -/
theorem sends_all (h : Sends (create header file) sent b) :
    sent <+: header ++ file.getD [] ∧ (b.atEnd ↔ sent = header ++ file.getD []) := by
  have hall := h.append_pending
  rw [pending_create] at hall
  refine ⟨⟨_, hall⟩, ?_⟩
  rw [atEnd_iff, ← hall, eq_comm (a := sent), List.append_right_eq_self]

/-- A header of three bytes and a file of four, in blocks of two bytes, the second one written in
part. -/
theorem sends_all_short : ∃ b, Sends (create [1, 2, 3] (some [4, 5, 6, 7])) [1, 2, 3, 4] b ∧
    ([1, 2, 3, 4] : QByteArray) <+: [1, 2, 3, 4, 5, 6, 7] ∧
      (b.atEnd ↔ ([1, 2, 3, 4] : QByteArray) = [1, 2, 3, 4, 5, 6, 7]) := by
  have h₁ := @Sends.step (create [1, 2, 3] (some [4, 5, 6, 7])) _ _ 2 2 .start (by decide)
    (by decide) (by decide)
  have h₂ := @Sends.step _ _ _ 2 1 h₁ (by decide) (by decide) (by decide)
  have h₃ := @Sends.step _ _ _ 2 1 h₂ (by decide) (by decide) (by decide)
  exact ⟨_, h₃, sends_all h₃⟩

end TreeFrog.SendBuffer
