import TreeFrog.RedisReply

/-!
How a server reads commands: arrays of bulk strings, each with its length in front. Whatever
bytes the arguments consist of, it reads the commands that were written.
-/

namespace TreeFrog.RedisCommand

open Bytes Decimal RedisReply

/-- The number in front of a line end, and what follows it. -/
def readNumber (b : QByteArray) : Option (ℕ × QByteArray) :=
  let digits := b.takeWhile isdigit
  let rest := b.dropWhile isdigit
  if digits ≠ [] ∧ rest.take 2 = CRLF then some (digitsVal digits, rest.drop 2) else none

def readBulk : QByteArray → Option (QByteArray × QByteArray)
  | [] => none
  | c :: b =>
    if DataType.ofChar? c = some .bulkString then do
      let (n, b) ← readNumber b
      if (b.drop n).take 2 = CRLF then some (b.take n, b.drop (n + 2)) else none
    else none

def readBulks : ℕ → QByteArray → Option (List QByteArray × QByteArray)
  | 0, b => some ([], b)
  | n + 1, b => do
    let (d, b) ← readBulk b
    let (ds, b) ← readBulks n b
    return (d :: ds, b)

/-- A command, and what follows it. -/
def readMultiBulk : QByteArray → Option (List QByteArray × QByteArray)
  | [] => none
  | c :: b =>
    if DataType.ofChar? c = some .array then do
      let (n, b) ← readNumber b
      readBulks n b
    else none

/-- At most `fuel` commands, up to the end. -/
def readCommands : ℕ → QByteArray → Option (List (List QByteArray))
  | _, [] => some []
  | 0, _ :: _ => none
  | fuel + 1, c :: b => do
    let (data, rest) ← readMultiBulk (c :: b)
    let commands ← readCommands fuel rest
    return data :: commands

/-! ### Reading what was written -/

lemma readNumber_number (n : ℕ) (rest : QByteArray) :
    readNumber (number n ++ CRLF ++ rest) = some (n, rest) := by
  have hnumber : number n = decimal n := by simp [number]
  have hdigits : ∀ c ∈ decimal n, isdigit c = true := fun c hc => isdigit_of_mem_decimal hc
  have htake : (decimal n ++ (CRLF ++ rest)).takeWhile isdigit = decimal n := by
    rw [List.takeWhile_append_of_pos hdigits]
    simp [CRLF, CR, isdigit]
  have hdrop : (decimal n ++ (CRLF ++ rest)).dropWhile isdigit = CRLF ++ rest := by
    rw [List.dropWhile_append_of_pos hdigits]
    simp [CRLF, CR, isdigit]
  rw [hnumber, List.append_assoc, readNumber]
  simp only [htake, hdrop]
  rw [if_pos ⟨decimal_ne_nil n, rfl⟩, digitsVal_decimal]
  rfl

/-- **An argument** is read by its length, whatever it contains. -/
lemma readBulk_toBulk (d rest : QByteArray) : readBulk (toBulk d ++ rest) = some (d, rest) := by
  have hshape : toBulk d ++ rest = DataType.bulkString.char ::
      (number d.length ++ CRLF ++ (d ++ (CRLF ++ rest))) := by
    simp [toBulk]
  have hend : ((d ++ (CRLF ++ rest)).drop d.length).take 2 = CRLF := by
    rw [List.drop_left]
    rfl
  have hrest : (d ++ (CRLF ++ rest)).drop (d.length + 2) = rest := by
    rw [← List.drop_drop, List.drop_left]
    rfl
  rw [hshape, readBulk, if_pos (DataType.ofChar?_char _), readNumber_number]
  simp only [Option.bind_eq_bind, Option.bind_some, hend, if_true, List.take_left, hrest]

lemma readBulks_flatMap (data : List QByteArray) (rest : QByteArray) :
    readBulks data.length (data.flatMap toBulk ++ rest) = some (data, rest) := by
  induction data with
  | nil => rfl
  | cons d data ih =>
    rw [List.flatMap_cons, List.append_assoc, List.length_cons, readBulks, readBulk_toBulk]
    simp only [Option.bind_eq_bind, Option.bind_some, ih]
    rfl

/-- **A command** is read back from in front of anything. -/
lemma readMultiBulk_toMultiBulk (data : List QByteArray) (rest : QByteArray) :
    readMultiBulk (toMultiBulk data ++ rest) = some (data, rest) := by
  have hshape : toMultiBulk data ++ rest = DataType.array.char ::
      (number data.length ++ CRLF ++ (data.flatMap toBulk ++ rest)) := by
    simp [toMultiBulk, arrayHeader]
  rw [hshape, readMultiBulk, if_pos (DataType.ofChar?_char _), readNumber_number]
  simp only [Option.bind_eq_bind, Option.bind_some, readBulks_flatMap]

lemma toMultiBulk_injective : Function.Injective toMultiBulk := by
  intro a b h
  have ha := readMultiBulk_toMultiBulk a []
  rw [h, readMultiBulk_toMultiBulk] at ha
  exact (Prod.mk.inj (Option.some.inj ha)).1.symm

/-- **Commands** one behind the other are read as they were written, with none between them. -/
lemma readCommands_flatMap {fuel : ℕ} {commands : List (List QByteArray)}
    (h : commands.length ≤ fuel) :
    readCommands fuel (commands.flatMap toMultiBulk) = some commands := by
  induction commands generalizing fuel with
  | nil => cases fuel <;> rfl
  | cons data commands ih =>
    obtain ⟨n, rfl⟩ : ∃ n, fuel = n + 1 := ⟨fuel - 1, by simp at h; omega⟩
    have hread := readMultiBulk_toMultiBulk data (commands.flatMap toMultiBulk)
    rw [List.flatMap_cons]
    cases hstream : toMultiBulk data ++ commands.flatMap toMultiBulk with
    | nil => simp [toMultiBulk, arrayHeader] at hstream
    | cons c b =>
      rw [hstream] at hread
      rw [readCommands, hread]
      simp only [Option.bind_eq_bind, Option.bind_some, ih (Nat.le_of_succ_le_succ h)]
      rfl

/-- **The encoding of commands is lossless.** -/
theorem toMultiBulk_lossless :
    (∀ (data : List QByteArray) (rest : QByteArray),
      readMultiBulk (toMultiBulk data ++ rest) = some (data, rest)) ∧
    Function.Injective toMultiBulk ∧
    ∀ (commands : List (List QByteArray)) (more : ℕ),
      readCommands (commands.length + more) (commands.flatMap toMultiBulk) = some commands :=
  ⟨readMultiBulk_toMultiBulk, toMultiBulk_injective,
    fun _ _ => readCommands_flatMap (Nat.le_add_right _ _)⟩

end TreeFrog.RedisCommand
