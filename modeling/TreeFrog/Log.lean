import TreeFrog.DataStream

/-!
`TLog` and its operators for `QDataStream`: a log is its fields one behind the other, a list of
logs is their number and then the logs.
-/

namespace TreeFrog.Log

open Bytes BigEndian DataStream

/-- The day, the milliseconds of it, and what zone they are in. -/
structure QDateTime where
  date : UInt64
  time : UInt32
  spec : UInt8
  deriving DecidableEq

/-- The numbers stand for their bits, whether signed or not. -/
structure TLog where
  timestamp : QDateTime
  priority : UInt32
  pid : UInt64
  threadId : UInt64
  message : Option QByteArray
  deriving DecidableEq

/-- A number of `k` bytes; `none` if the status of the stream is not `Ok` any more. -/
def readNat (k : ℕ) (b : QByteArray) : Option (ℕ × QByteArray) :=
  if k ≤ b.length then some (ofBytes (b.take k), b.drop k) else none

def readMessage (b : QByteArray) : Option (Option QByteArray × QByteArray) := do
  let (len, b) ← readNat 4 b
  if len = NULL then some (none, b)
  else if b.length < len then none
  else some (some (b.take len), b.drop len)

/-- `operator<<`. -/
def writeTLog (log : TLog) : QByteArray :=
  toBytes 8 log.timestamp.date.toNat ++ (toBytes 4 log.timestamp.time.toNat ++
    (toBytes 1 log.timestamp.spec.toNat ++ (toBytes 4 log.priority.toNat ++
      (toBytes 8 log.pid.toNat ++ (toBytes 8 log.threadId.toNat ++ writeBytes log.message)))))

/-- `operator>>`. -/
def readTLog (b : QByteArray) : Option (TLog × QByteArray) := do
  let (date, b) ← readNat 8 b
  let (time, b) ← readNat 4 b
  let (spec, b) ← readNat 1 b
  let (priority, b) ← readNat 4 b
  let (pid, b) ← readNat 8 b
  let (threadId, b) ← readNat 8 b
  let (message, b) ← readMessage b
  return (⟨⟨.ofNat date, .ofNat time, .ofNat spec⟩, .ofNat priority, .ofNat pid,
    .ofNat threadId, message⟩, b)

/-- A list of logs. -/
def writeLogs (logs : List TLog) : QByteArray :=
  toBytes 4 logs.length ++ logs.flatMap writeTLog

def readTLogs : ℕ → QByteArray → Option (List TLog × QByteArray)
  | 0, b => some ([], b)
  | n + 1, b => do
    let (log, b) ← readTLog b
    let (logs, b) ← readTLogs n b
    return (log :: logs, b)

/-- The list that a stream begins with. -/
def readLogs (b : QByteArray) : Option (List TLog) := do
  let (n, b) ← readNat 4 b
  return (← readTLogs n b).1

/-! ### Round trips -/

lemma readNat_toBytes {k n : ℕ} (h : n < 256 ^ k) (rest : QByteArray) :
    readNat k (toBytes k n ++ rest) = some (n, rest) := by
  rw [readNat, if_pos (by simp), List.take_left' (length_toBytes k n),
    List.drop_left' (length_toBytes k n), ofBytes_toBytes h]

lemma readMessage_writeBytes {d : Option QByteArray} (h : (writeBytes d).length < 2 ^ 31)
    (rest : QByteArray) : readMessage (writeBytes d ++ rest) = some (d, rest) := by
  cases d with
  | none =>
    rw [writeBytes, readMessage, readNat_toBytes (by decide)]
    rfl
  | some d =>
    rw [writeBytes, List.length_append, length_toBytes] at h
    rw [writeBytes, readMessage, List.append_assoc, readNat_toBytes (by omega)]
    have hnull : d.length ≠ NULL := by
      unfold NULL
      omega
    have hall : ¬(d ++ rest).length < d.length := by
      rw [List.length_append]
      omega
    simp only [Option.bind_eq_bind, Option.bind_some, if_neg hnull, if_neg hall,
      List.take_left' rfl, List.drop_left' rfl]

lemma readTLog_writeTLog {log : TLog} (h : (writeTLog log).length < 2 ^ 31)
    (rest : QByteArray) : readTLog (writeTLog log ++ rest) = some (log, rest) := by
  obtain ⟨⟨date, time, spec⟩, priority, pid, threadId, message⟩ := log
  have hmessage : (writeBytes message).length < 2 ^ 31 := by
    simp only [writeTLog, List.length_append] at h
    omega
  simp only [writeTLog, readTLog, List.append_assoc, Option.bind_eq_bind]
  rw [readNat_toBytes date.toNat_lt, Option.bind_some,
    readNat_toBytes time.toNat_lt, Option.bind_some,
    readNat_toBytes spec.toNat_lt, Option.bind_some,
    readNat_toBytes priority.toNat_lt, Option.bind_some,
    readNat_toBytes pid.toNat_lt, Option.bind_some,
    readNat_toBytes threadId.toNat_lt, Option.bind_some,
    readMessage_writeBytes hmessage, Option.bind_some]
  simp

lemma readTLogs_flatMap (logs : List TLog) (h : (logs.flatMap writeTLog).length < 2 ^ 31)
    (rest : QByteArray) :
    readTLogs logs.length (logs.flatMap writeTLog ++ rest) = some (logs, rest) := by
  induction logs with
  | nil => rfl
  | cons log logs ih =>
    rw [List.flatMap_cons, List.length_append] at h
    rw [List.length_cons, readTLogs, List.flatMap_cons, List.append_assoc,
      readTLog_writeTLog (by omega), Option.bind_eq_bind, Option.bind_some]
    simp only [ih (by omega), Option.bind_some, Option.bind_eq_bind]
    rfl

lemma length_le_flatMap (logs : List TLog) : logs.length ≤ (logs.flatMap writeTLog).length := by
  induction logs with
  | nil => rfl
  | cons log logs ih =>
    simp only [List.flatMap_cons, List.length_append, List.length_cons, writeTLog,
      length_toBytes]
    omega

/-- **A list of logs** is read back, whatever comes behind it. -/
theorem readLogs_writeLogs {logs : List TLog} (h : (writeLogs logs).length < 2 ^ 31)
    (rest : QByteArray) : readLogs (writeLogs logs ++ rest) = some logs := by
  have hlength := length_le_flatMap logs
  rw [writeLogs, List.length_append] at h
  rw [readLogs, writeLogs, List.append_assoc, readNat_toBytes (by omega), Option.bind_eq_bind,
    Option.bind_some]
  simp only [readTLogs_flatMap logs (by omega), Option.bind_eq_bind, Option.bind_some]
  rfl

end TreeFrog.Log
