import Mathlib.Logic.Function.Basic
import TreeFrog.Log

/-!
`TSharedMemoryLogStream`: the logs of all processes wait in one segment of shared memory, as a
list that is written over the old one, until they do not fit or someone flushes them. Every call
is done under the lock of the segment.
-/

namespace TreeFrog.SharedMemoryLogStream

open Bytes

/-- `QDataStream` on lists of `L`: what is written is read back, whatever comes behind it. -/
structure QDataStream (L : Type) where
  write : List L → QByteArray
  read : QByteArray → Option (List L)
  read_write : ∀ {logs : List L}, (write logs).length < 2 ^ 31 →
    ∀ rest, read (write logs ++ rest) = some logs

def tlogStream : QDataStream Log.TLog where
  write := Log.writeLogs
  read := Log.readLogs
  read_write := Log.readLogs_writeLogs

/-- What a process has of the stream. -/
structure Process where
  attached : Bool
  nonBuffering : Bool
  timerActive : Bool

/-- The segment, the processes, and the logs that were given to the loggers. -/
structure System (L P : Type) where
  data : QByteArray
  processes : P → Process
  output : List L

variable {L P : Type} [DecidableEq P] (ds : QDataStream L)

def dataSizeOf (logs : List L) : ℕ := (ds.write logs).length

namespace System

variable (s : System L P) (p : P)

def setTimer (active : Bool) : System L P :=
  { s with processes :=
    Function.update s.processes p { s.processes p with timerActive := active } }

/-- The loggers are opened, given the logs, flushed and closed. -/
def loggerWriteLog (logs : List L) : System L P := { s with output := s.output ++ logs }

def smWrite (logs : List L) : Bool × System L P :=
  let buffer := ds.write logs
  if s.data.length < buffer.length then (false, s)
  else if !(s.processes p).attached then (false, s)
  else (true, { s with data := buffer ++ s.data.drop buffer.length })

def clearBuffer : System L P := (s.smWrite ds p []).2.setTimer p false

def smRead : List L × System L P :=
  if !(s.processes p).attached then ([], s)
  else
    match ds.read s.data with
    | some logs => (logs, s)
    | none => ([], s.clearBuffer ds p)

def writeLog (log : L) : System L P :=
  if (s.processes p).nonBuffering then s.loggerWriteLog [log]
  else
    let (logs, s) := s.smRead ds p
    let logList := logs ++ [log]
    match s.smWrite ds p logList with
    | (true, s) => if (s.processes p).timerActive then s else s.setTimer p true
    | (false, s) => (s.loggerWriteLog logList).clearBuffer ds p

def flush : System L P :=
  if (s.processes p).nonBuffering then s
  else
    let (logs, s) := s.smRead ds p
    (s.loggerWriteLog logs).clearBuffer ds p

def timerEvent : System L P := (s.flush ds p).setTimer p false

def setNonBufferingMode : System L P :=
  let s :=
    if (s.processes p).nonBuffering then s
    else
      let s := s.flush ds p
      { s with processes := Function.update s.processes p { s.processes p with attached := false } }
  { s with processes := Function.update s.processes p { s.processes p with nonBuffering := true } }

end System

/-- The constructors of the processes: the segment is made of some memory and cleared by the one
that created it, if it is large enough for a list without logs. -/
def create (memory : QByteArray) (p : P) : Option (System L P) :=
  if memory.length < dataSizeOf ds ([] : List L) then none
  else
    some (System.clearBuffer ds ⟨memory, fun _ => ⟨true, false, false⟩, []⟩ p)

inductive Call (L : Type) where
  | writeLog (log : L)
  | flush
  | timerEvent
  | setNonBufferingMode

/-- A call of a process. -/
def step (s : System L P) : P × Call L → System L P
  | (p, .writeLog log) => s.writeLog ds p log
  | (p, .flush) => s.flush ds p
  | (p, .timerEvent) => s.timerEvent ds p
  | (p, .setNonBufferingMode) => s.setNonBufferingMode ds p

def run (s : System L P) (cs : List (P × Call L)) : System L P := cs.foldl (step ds) s

/-- The log that a call writes. -/
def written : P × Call L → List L
  | (_, .writeLog log) => [log]
  | (_, .flush) | (_, .timerEvent) | (_, .setNonBufferingMode) => []

/-- The process stays attached. -/
def Attached : P × Call L → Prop
  | (_, .setNonBufferingMode) => False
  | (_, .writeLog _) | (_, .flush) | (_, .timerEvent) => True

/-! ### The segment -/

/-- The segment holds the list `logs`, and perhaps the rest of longer lists behind it. -/
structure Holds (data : QByteArray) (logs : List L) : Prop where
  written : ∃ rest, data = ds.write logs ++ rest
  size : data.length < 2 ^ 31
  clear : dataSizeOf ds ([] : List L) ≤ data.length

variable {ds} {s : System L P} {p : P} {logs : List L}

lemma Holds.read {data : QByteArray} (h : Holds ds data logs) : ds.read data = some logs := by
  obtain ⟨rest, hdata⟩ := h.written
  have hsize := h.size
  rw [hdata, List.length_append] at hsize
  rw [hdata, ds.read_write (by omega)]

/-- The processes are in the modes that they were in; timers may differ. -/
def SameModes (s s' : System L P) : Prop :=
  ∀ q, (s'.processes q).attached = (s.processes q).attached ∧
    (s'.processes q).nonBuffering = (s.processes q).nonBuffering

lemma sameModes_setTimer (s : System L P) (p : P) (active : Bool) :
    SameModes s (s.setTimer p active) := by
  intro q
  by_cases hq : q = p
  · subst hq
    simp [System.setTimer]
  · simp [System.setTimer, hq]

omit [DecidableEq P] in
lemma smWrite_spec (h : Holds ds s.data logs) (ha : (s.processes p).attached = true)
    (logs' : List L) :
    (s.smWrite ds p logs' = (false, s) ∧ s.data.length < dataSizeOf ds logs') ∨
      ∃ data, s.smWrite ds p logs' = (true, { s with data }) ∧
        Holds ds data logs' := by
  unfold System.smWrite
  by_cases hfits : s.data.length < (ds.write logs').length
  · exact .inl ⟨if_pos hfits, hfits⟩
  · refine .inr ⟨_, by rw [if_neg hfits, ha]; rfl, ⟨_, rfl⟩, ?_, ?_⟩
    · have hsize := h.size
      simp only [List.length_append, List.length_drop]
      omega
    · have hclear := h.clear
      simp only [List.length_append, List.length_drop]
      omega

lemma clearBuffer_spec (h : Holds ds s.data logs) (ha : (s.processes p).attached = true) :
    Holds ds (s.clearBuffer ds p).data [] ∧ (s.clearBuffer ds p).output = s.output ∧
      SameModes s (s.clearBuffer ds p) := by
  unfold System.clearBuffer
  rcases smWrite_spec h ha [] with ⟨-, hsmall⟩ | ⟨data, hwrite, hdata⟩
  · exact absurd h.clear (by omega)
  · rw [hwrite]
    exact ⟨hdata, rfl, sameModes_setTimer _ p false⟩

lemma writeOut_spec (h : Holds ds s.data logs) (ha : (s.processes p).attached = true)
    (logs' : List L) :
    let s' := (s.loggerWriteLog logs').clearBuffer ds p
    Holds ds s'.data [] ∧ s'.output = s.output ++ logs' ∧ SameModes s s' :=
  clearBuffer_spec (s := s.loggerWriteLog logs') h ha

lemma smRead_spec (h : Holds ds s.data logs) (ha : (s.processes p).attached = true) :
    s.smRead ds p = (logs, s) := by
  simp [System.smRead, ha, h.read]

/-! ### A call -/

variable (ds) in
/-- What a call makes of the output and the buffer: the log goes to the end of both together, or,
from a process that does not buffer, to the end of the output. -/
structure Moves (c : P × Call L) (s : System L P) (logs : List L) (s' : System L P)
    (logs' : List L) : Prop where
  data : Holds ds s'.data logs'
  logs : s'.output ++ logs' = s.output ++ logs ++ written c ∨
    (s.processes c.1).nonBuffering = true ∧ s'.output = s.output ++ written c ∧ logs' = logs

variable (ds) in
/-- A process buffers as long as it is attached. -/
structure Inv (s : System L P) (logs : List L) : Prop where
  data : Holds ds s.data logs
  modes : ∀ q, (s.processes q).attached = !(s.processes q).nonBuffering

omit [DecidableEq P] in
lemma Inv.of_sameModes {s' : System L P} {logs' : List L} (h : Inv ds s logs)
    (hdata : Holds ds s'.data logs') (hmodes : SameModes s s') : Inv ds s' logs' :=
  ⟨hdata, fun q => by rw [(hmodes q).1, (hmodes q).2, h.modes]⟩

lemma writeLog_spec (h : Inv ds s logs) (log : L) :
    ∃ logs', Moves ds (p, .writeLog log) s logs (s.writeLog ds p log) logs' ∧
      SameModes s (s.writeLog ds p log) := by
  unfold System.writeLog
  by_cases hbuf : (s.processes p).nonBuffering = true
  · rw [if_pos hbuf]
    exact ⟨logs, ⟨h.data, .inr ⟨hbuf, rfl, rfl⟩⟩, fun q => ⟨rfl, rfl⟩⟩
  have ha : (s.processes p).attached = true := by simpa [hbuf] using h.modes p
  rw [if_neg hbuf, smRead_spec h.data ha]
  rcases smWrite_spec h.data ha (logs ++ [log]) with ⟨hwrite, -⟩ | ⟨data, hwrite, hdata⟩
  · -- the list does not fit any more and is output
    simp only [hwrite]
    obtain ⟨hclear, hout, hmodes⟩ := writeOut_spec h.data ha (logs ++ [log])
    exact ⟨[], ⟨hclear, .inl (by simp [hout, written])⟩, hmodes⟩
  · simp only [hwrite]
    refine ⟨logs ++ [log], ⟨?_, .inl ?_⟩, ?_⟩
    · split_ifs <;> exact hdata
    · split_ifs <;> simp [System.setTimer, written]
    · split_ifs
      · exact fun q => ⟨rfl, rfl⟩
      · exact sameModes_setTimer { s with data } p true

lemma flush_spec (h : Inv ds s logs) {c : P × Call L} (hc : c.1 = p) (hw : written c = []) :
    ∃ logs', Moves ds c s logs (s.flush ds p) logs' ∧ SameModes s (s.flush ds p) := by
  subst hc
  unfold System.flush
  by_cases hbuf : (s.processes c.1).nonBuffering = true
  · rw [if_pos hbuf]
    exact ⟨logs, ⟨h.data, .inl (by simp [hw])⟩, fun q => ⟨rfl, rfl⟩⟩
  have ha : (s.processes c.1).attached = true := by simpa [hbuf] using h.modes c.1
  rw [if_neg hbuf, smRead_spec h.data ha]
  obtain ⟨hclear, hout, hmodes⟩ := writeOut_spec h.data ha logs
  exact ⟨[], ⟨hclear, .inl (by simp [hout, hw])⟩, hmodes⟩

lemma read_flush (h : Inv ds s logs) (hbuf : (s.processes p).nonBuffering = false) :
    ds.read (s.flush ds p).data = some [] := by
  have ha : (s.processes p).attached = true := by simpa [hbuf] using h.modes p
  unfold System.flush
  rw [if_neg (by simp [hbuf]), smRead_spec h.data ha]
  exact (writeOut_spec h.data ha logs).1.read

lemma step_spec (h : Inv ds s logs) (c : P × Call L) :
    ∃ logs', Moves ds c s logs (step ds s c) logs' ∧ Inv ds (step ds s c) logs' ∧
      (Attached c → SameModes s (step ds s c)) := by
  obtain ⟨p, call⟩ := c
  cases call with
  | writeLog log =>
    obtain ⟨logs', hmoves, hmodes⟩ := writeLog_spec h log
    exact ⟨logs', hmoves, h.of_sameModes hmoves.data hmodes, fun _ => hmodes⟩
  | flush =>
    obtain ⟨logs', hmoves, hmodes⟩ := flush_spec h (c := (p, .flush)) rfl rfl
    exact ⟨logs', hmoves, h.of_sameModes hmoves.data hmodes, fun _ => hmodes⟩
  | timerEvent =>
    obtain ⟨logs', hmoves, hmodes⟩ := flush_spec h (c := (p, .timerEvent)) rfl rfl
    have hstep : SameModes s (step ds s (p, .timerEvent)) := fun q =>
      have htimer := sameModes_setTimer (s.flush ds p) p false q
      ⟨htimer.1.trans (hmodes q).1, htimer.2.trans (hmodes q).2⟩
    exact ⟨logs', ⟨hmoves.data, hmoves.logs⟩, h.of_sameModes hmoves.data hstep, fun _ => hstep⟩
  | setNonBufferingMode =>
    obtain ⟨logs', hmoves, hmodes⟩ := flush_spec h (c := (p, .setNonBufferingMode)) rfl rfl
    have hinv := h.of_sameModes hmoves.data hmodes
    by_cases hbuf : (s.processes p).nonBuffering = true
    · -- the process is in the mode already
      refine ⟨logs, ⟨?_, .inl ?_⟩, ⟨?_, fun q => ?_⟩, nofun⟩
      all_goals simp only [step, System.setNonBufferingMode, if_pos hbuf]
      · exact h.data
      · simp [written]
      · exact h.data
      · by_cases hq : q = p
        · subst hq
          simp [h.modes, hbuf]
        · simpa [hq] using h.modes q
    · refine ⟨logs', ⟨?_, .inl ?_⟩, ⟨?_, fun q => ?_⟩, nofun⟩
      all_goals simp only [step, System.setNonBufferingMode, if_neg hbuf]
      · exact hmoves.data
      · exact hmoves.logs.resolve_right fun hn => hbuf hn.1
      · exact hmoves.data
      · by_cases hq : q = p
        · subst hq
          simp
        · simpa [hq] using hinv.modes q

/-! ### Any run -/

lemma create_spec {memory : QByteArray} {p : P} {s₀ : System L P}
    (hsize : memory.length < 2 ^ 31) (hcreate : create ds memory p = some s₀) :
    Inv ds s₀ [] ∧ s₀.output = [] ∧ ∀ q, (s₀.processes q).nonBuffering = false := by
  unfold create at hcreate
  split_ifs at hcreate with hsmall
  obtain rfl := Option.some.inj hcreate
  unfold System.clearBuffer System.smWrite
  have hfits : ¬memory.length < (ds.write []).length := hsmall
  have hmodes := sameModes_setTimer (⟨ds.write [] ++ memory.drop (ds.write []).length,
    fun _ => ⟨true, false, false⟩, []⟩ : System L P) p false
  simp only [if_neg hfits, Bool.not_true, Bool.false_eq_true, if_false]
  refine ⟨⟨⟨⟨_, rfl⟩, ?_, ?_⟩, fun q => by rw [(hmodes q).1, (hmodes q).2]; rfl⟩, rfl,
    fun q => (hmodes q).2⟩
  all_goals
    simp only [System.setTimer, dataSizeOf, List.length_append, List.length_drop]
    omega

lemma run_spec {cs : List (P × Call L)} (h : Inv ds s logs)
    (hbuf : ∀ q, (s.processes q).nonBuffering = false) (hcs : ∀ c ∈ cs, Attached c) :
    ∃ logs', Inv ds (run ds s cs) logs' ∧
      (∀ q, ((run ds s cs).processes q).nonBuffering = false) ∧
      (run ds s cs).output ++ logs' = s.output ++ logs ++ cs.flatMap written := by
  induction cs generalizing s logs with
  | nil => exact ⟨logs, h, hbuf, (List.append_nil _).symm⟩
  | cons c cs ih =>
    obtain ⟨hc, hcs⟩ := List.forall_mem_cons.mp hcs
    obtain ⟨logs', hmoves, hinv, hmodes⟩ := step_spec h c
    have hbuf' : ∀ q, ((step ds s c).processes q).nonBuffering = false := fun q =>
      (hmodes hc q).2.trans (hbuf q)
    have hlogs := hmoves.logs.resolve_right fun hn => by simp [hbuf] at hn
    obtain ⟨logs'', hinv', hbuf'', hrun⟩ := ih hinv hbuf' hcs
    refine ⟨logs'', hinv', hbuf'', hrun.trans ?_⟩
    rw [hlogs, List.flatMap_cons, List.append_assoc _ (written c)]

/-- **No log is lost**: while all processes are attached, the logs that were output and behind
them those of the segment are the logs that were written, in the order of the calls; and behind a
flush there are none in the segment. -/
theorem run_logs (ds : QDataStream L) {memory : QByteArray} {p : P} {s₀ : System L P}
    (hsize : memory.length < 2 ^ 31) (hcreate : create ds memory p = some s₀)
    (cs : List (P × Call L)) (hcs : ∀ c ∈ cs, Attached c) :
    ∃ logs, ds.read (run ds s₀ cs).data = some logs ∧
      (run ds s₀ cs).output ++ logs = cs.flatMap written ∧
      ∀ q, cs.getLast? = some (q, .flush) → logs = [] := by
  obtain ⟨hinv, hout, hbuf⟩ := create_spec hsize hcreate
  obtain ⟨logs, hinv', -, hrun⟩ := run_spec hinv hbuf hcs
  refine ⟨logs, hinv'.data.read, by simpa [hout] using hrun, fun q hlast => ?_⟩
  obtain ⟨before, rfl⟩ := List.getLast?_eq_some_iff.mp hlast
  obtain ⟨logs', hinv'', hbuf', -⟩ :=
    run_spec hinv hbuf fun c hc => hcs c (List.mem_append_left _ hc)
  have hstep : run ds s₀ (before ++ [(q, .flush)]) = (run ds s₀ before).flush ds q := by
    rw [run, List.foldl_append]
    rfl
  have hread := hinv'.data.read
  rw [hstep, read_flush hinv'' (hbuf' q)] at hread
  exact (Option.some.inj hread).symm

/-- A log whose message has `n` bytes. -/
def logOf (n : ℕ) : Log.TLog := ⟨⟨0, 0, 0⟩, 0, 0, 0, some (List.replicate n 0)⟩

/-- A segment of 60 bytes. -/
def segment : System Log.TLog Bool :=
  System.clearBuffer tlogStream ⟨List.replicate 60 7, fun _ => ⟨true, false, false⟩, []⟩ true

/-- Two processes; the second log does not fit behind the first. -/
def calls : List (Bool × Call Log.TLog) :=
  [(true, .writeLog (logOf 1)), (false, .writeLog (logOf 9)), (true, .writeLog (logOf 2)),
    (false, .flush)]

theorem run_logs_two :
    tlogStream.read (run tlogStream segment calls).data = some [] ∧
      (run tlogStream segment calls).output = [logOf 1, logOf 9, logOf 2] := by
  have hsize : (List.replicate 60 (7 : UInt8)).length < 2 ^ 31 := by decide
  obtain ⟨logs, hread, hout, hflush⟩ :=
    run_logs tlogStream hsize rfl calls (by simp [calls, Attached])
  obtain rfl := hflush false rfl
  exact ⟨hread, (List.append_nil _).symm.trans hout⟩

/-- When processes leave the segment too, the order may change, and still no log is lost. -/
theorem run_perm (h : Inv ds s logs) (cs : List (P × Call L)) :
    ∃ logs', ds.read (run ds s cs).data = some logs' ∧
      ((run ds s cs).output ++ logs').Perm (s.output ++ logs ++ cs.flatMap written) := by
  induction cs generalizing s logs with
  | nil => exact ⟨logs, h.data.read, .of_eq (List.append_nil _).symm⟩
  | cons c cs ih =>
    obtain ⟨logs', hmoves, hinv, -⟩ := step_spec h c
    obtain ⟨logs'', hread, hperm⟩ := ih hinv
    refine ⟨logs'', hread, hperm.trans ?_⟩
    rw [List.flatMap_cons, ← List.append_assoc]
    refine List.Perm.append_right _ ?_
    rcases hmoves.logs with hlogs | ⟨-, hout, rfl⟩
    · exact .of_eq hlogs
    · rw [hout, List.append_assoc, List.append_assoc]
      exact List.perm_append_comm.append_left _

end TreeFrog.SharedMemoryLogStream
