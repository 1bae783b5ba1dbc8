import Mathlib.Algebra.Order.Ring.Int
import TreeFrog.SortedMap

/-!
`ServerManager` of `tfmanager`: the application servers and their ids. One more server is started
whenever one has started up, until there are enough; a server that finishes is started again
with its id. A counter of all starts gives the ids, so that an id stays in range only if the
servers that have finished meanwhile leave room for it.
-/

namespace TreeFrog.ApplicationServers

open SortedMap

inductive ManagerState where
  | notRunning
  | starting
  | running
  | stopping
  deriving DecidableEq, Repr

/-- `serversStatus` has the `QProcess` objects and their ids; `startCounter` is a `uint`. The next
object is created at the address `objects`. -/
structure ServerManager where
  maxServers : ℤ
  minServers : ℤ
  managerState : ManagerState
  serversStatus : List (ℕ × ℤ)
  startCounter : ℕ
  objects : ℕ

/-- A `uint` as an `int`. -/
def toInt (n : ℕ) : ℤ := if n < 2 ^ 31 then n else n - 2 ^ 32

namespace ServerManager

def create (maxServers minServers : Int32) : ServerManager :=
  let minServers := max minServers.toInt 1
  ⟨max maxServers.toInt minServers, minServers, .notRunning, [], 0, 0⟩

def isRunning (s : ServerManager) : Bool :=
  s.managerState = .running || s.managerState = .starting

def serverCount (s : ServerManager) : ℤ := s.serversStatus.length

/-- `startServer`; a negative id stands for the counter. -/
def startServer (s : ServerManager) (id : ℤ) : ServerManager :=
  let id := if id < 0 then toInt s.startCounter else id
  { s with
    serversStatus := insert s.objects id s.serversStatus,
    startCounter := (s.startCounter + 1) % 2 ^ 32,
    objects := s.objects + 1 }

def ajustServers (s : ServerManager) : ServerManager :=
  if s.isRunning then
    if s.serverCount < s.maxServers ∧ s.serverCount < s.minServers then s.startServer (-1)
    else if s.managerState ≠ .running then { s with managerState := .running }
    else s
  else s

/-- `start`, on an address or a file; `listening` is the outcome of `nativeListen`. -/
def start (s : ServerManager) (listening : Bool) : Bool × ServerManager :=
  if s.isRunning then (true, s)
  else if s.managerState = .stopping then (false, s)
  else if !listening then (false, s)
  else (true, { s with managerState := .starting }.ajustServers)

/-- `stop`: all servers are terminated and waited for. -/
def stop (s : ServerManager) : ServerManager :=
  if s.isRunning then
    { s with serversStatus := [], startCounter := 0, managerState := .notRunning }
  else s

def updateServerStatus (s : ServerManager) : ServerManager := s.ajustServers

/-- `serverFinish`; `QMap::take` gives 0 for a server that is not in the map. -/
def serverFinish (s : ServerManager) (server : ℕ) : ServerManager :=
  let id := (find s.serversStatus server).getD 0
  let s := { s with serversStatus := erase server s.serversStatus }
  if s.isRunning then s.startServer id else s

end ServerManager

open ServerManager

/-- The calls of the manager, and the signals of its servers. A server that crashes gives an
error, and then it has finished. -/
inductive Event where
  | start (listening : Bool)
  | stop
  | started (server : ℕ)
  | error (server : ℕ)
  | finished (server : ℕ)

/-- A signal comes from a server that there is. An error only kills it. -/
def step (s : ServerManager) : Event → ServerManager
  | .start listening => (s.start listening).2
  | .stop => s.stop
  | .started server =>
    if (find s.serversStatus server).isSome then s.updateServerStatus else s
  | .error _ => s
  | .finished server =>
    if (find s.serversStatus server).isSome then s.serverFinish server else s

/-! ### Runs -/

/-- A run: the manager, and how many servers have finished since it was started. -/
structure Run where
  manager : ServerManager
  finished : ℕ

namespace Run

def step (r : Run) (e : Event) : Run where
  manager := ApplicationServers.step r.manager e
  finished :=
    match e with
    | .finished server =>
      if (find r.manager.serversStatus server).isSome then r.finished + 1 else r.finished
    | .stop => if r.manager.isRunning then 0 else r.finished
    | .start _ | .started _ | .error _ => r.finished

def init (maxServers minServers : Int32) : Run := ⟨.create maxServers minServers, 0⟩

def run (r : Run) (es : List Event) : Run := es.foldl step r

/-- When a further server is to be started, the servers that there are and those that have
finished are fewer than `maxServers`. -/
def Room (r : Run) : Event → Prop
  | .started server =>
    (find r.manager.serversStatus server).isSome → r.manager.isRunning →
      r.manager.serverCount < r.manager.minServers →
      r.manager.serverCount + r.finished < r.manager.maxServers
  | .start _ | .stop | .error _ | .finished _ => True

/-- Each event of a run finds room. -/
def Roomy (r : Run) : List Event → Prop
  | [] => True
  | e :: es => r.Room e ∧ Roomy (r.step e) es

end Run

/-- The ids of the servers. -/
def ids (s : ServerManager) : List ℤ := values s.serversStatus

/-- The ids are distinct and in range, and there are not too many servers. -/
structure Good (s : ServerManager) : Prop where
  distinct : (ids s).Nodup
  inRange : ∀ id ∈ ids s, 0 ≤ id ∧ id < s.maxServers
  count : s.serverCount ≤ s.maxServers

structure Inv (r : Run) : Prop where
  good : Good r.manager
  ascending : Ascending r.manager.serversStatus
  objects : ∀ e ∈ r.manager.serversStatus, e.1 < r.manager.objects
  maxServers : 1 ≤ r.manager.maxServers ∧ r.manager.maxServers < 2 ^ 31
  minServers : r.manager.minServers ≤ r.manager.maxServers
  counter : r.manager.startCounter = (r.manager.serversStatus.length + r.finished) % 2 ^ 32
  /-- An id was given at a start before. -/
  given : ∀ id ∈ ids r.manager, id < r.manager.serverCount + r.finished
  idle : r.manager.isRunning = false → r.manager.serversStatus = [] ∧ r.finished = 0

section Step

variable {r : Run} {s : ServerManager} {n : ℕ}

lemma inv_startServer (h : Inv ⟨s, n⟩) (hrun : s.isRunning = true)
    (hcount : s.serverCount < s.maxServers) {id : ℤ} (hnew : id ∉ ids s)
    (h0 : 0 ≤ id) (hmax : id < s.maxServers) (hgiven : id ≤ s.serverCount + n) :
    Inv ⟨s.startServer id, n⟩ := by
  -- the new server gets the greatest key, so it comes last
  have hins : (s.startServer id).serversStatus = s.serversStatus ++ [(s.objects, id)] := by
    simp only [startServer, if_neg h0.not_gt]
    exact insert_last h.objects id
  have hids : ids (s.startServer id) = ids s ++ [id] := by simp [ids, hins, values]
  have hlen : (s.startServer id).serverCount = s.serverCount + 1 := by
    simp [serverCount, hins]
  refine ⟨⟨?_, ?_, by rw [hlen]; exact hcount⟩, h.ascending.insert _ _, ?_, h.maxServers,
    h.minServers, ?_, ?_, fun hidle => ?_⟩
  · rw [hids]
    exact List.nodup_append_comm.mp (List.nodup_cons.mpr ⟨hnew, h.good.distinct⟩)
  · intro i hi
    rw [hids, List.mem_append, List.mem_singleton] at hi
    rcases hi with hi | rfl
    · exact h.good.inRange i hi
    · exact ⟨h0, hmax⟩
  · intro e he
    rw [hins, List.mem_append, List.mem_singleton] at he
    rcases he with he | rfl
    · exact (h.objects e he).trans (Nat.lt_succ_self _)
    · exact Nat.lt_succ_self _
  · have hc := h.counter
    simp only [hins, List.length_append, List.length_singleton]
    simp only [startServer] at hc ⊢
    omega
  · intro i hi
    rw [hids, List.mem_append, List.mem_singleton] at hi
    simp only [hlen]
    rcases hi with hi | rfl
    · have := h.given i hi
      simp only at this
      omega
    · omega
  · exact absurd (hrun.symm.trans hidle) (by decide)

lemma inv_startNext (h : Inv ⟨s, n⟩) (hrun : s.isRunning = true)
    (hroom : s.serverCount + n < s.maxServers) : Inv ⟨s.startServer (-1), n⟩ := by
  have hcount : s.serverCount = s.serversStatus.length := rfl
  have hmax := h.maxServers.2
  have hid : toInt s.startCounter = s.serverCount + n := by
    have hc := h.counter
    simp only at hc hmax
    rw [toInt, hc, Nat.mod_eq_of_lt (by omega), if_pos (by omega)]
    push_cast
    omega
  have hstart : s.startServer (-1) = s.startServer (s.serverCount + n) := by
    have hnn : ¬s.serverCount + n < 0 := by omega
    simp only [startServer, hid, if_neg hnn]
    rfl
  rw [hstart]
  refine inv_startServer h hrun (by omega) (fun hmem => ?_) (by omega) hroom le_rfl
  exact lt_irrefl _ (h.given _ hmem)

lemma inv_ajustServers (h : Inv ⟨s, n⟩)
    (hroom : s.isRunning → s.serverCount < s.minServers →
      s.serverCount + n < s.maxServers) : Inv ⟨s.ajustServers, n⟩ := by
  unfold ajustServers
  split_ifs with hrun hcount
  · exact inv_startNext h hrun (hroom hrun hcount.2)
  · exact ⟨⟨h.good.distinct, h.good.inRange, h.good.count⟩, h.ascending, h.objects, h.maxServers,
      h.minServers, h.counter, h.given, nofun⟩
  · exact h
  · exact h

lemma inv_erase (h : Inv ⟨s, n⟩) (hrun : s.isRunning = true) {server : ℕ} {id : ℤ}
    (hfind : find s.serversStatus server = some id) :
    Inv ⟨{ s with serversStatus := erase server s.serversStatus }, n + 1⟩ ∧
      (erase server s.serversStatus).length + 1 = s.serversStatus.length ∧
      id ∉ values (erase server s.serversStatus) ∧ id ∈ ids s := by
  have hperm := perm_erase h.ascending hfind
  have hlen : (erase server s.serversStatus).length + 1 = s.serversStatus.length :=
    hperm.length_eq.symm
  have hvalues : (ids s).Perm (id :: values (erase server s.serversStatus)) := hperm.map Prod.snd
  have hnodup := List.nodup_cons.mp (hvalues.nodup_iff.mp h.good.distinct)
  have hsub : ∀ i ∈ values (erase server s.serversStatus), i ∈ ids s := fun i hi =>
    hvalues.mem_iff.mpr (List.mem_cons_of_mem _ hi)
  have hcount := h.good.count
  have hc := h.counter
  simp only [serverCount] at hcount hc
  refine ⟨⟨⟨hnodup.2, fun i hi => h.good.inRange i (hsub i hi), ?_⟩, h.ascending.erase _,
    fun e he => h.objects e (List.mem_of_mem_filter he), h.maxServers, h.minServers, ?_,
    fun i hi => ?_, fun hidle => absurd (hrun.symm.trans hidle) (by decide)⟩, hlen, hnodup.1,
    hvalues.mem_iff.mpr List.mem_cons_self⟩
  · simp only [serverCount]
    omega
  · simp only [← hlen] at hc ⊢
    rw [hc]
    congr 1
    omega
  · have hi := h.given i (hsub i hi)
    simp only [serverCount] at hi ⊢
    omega

lemma inv_serverFinish (h : Inv ⟨s, n⟩) {server : ℕ}
    (hlive : (find s.serversStatus server).isSome) : Inv ⟨s.serverFinish server, n + 1⟩ := by
  obtain ⟨id, hfind⟩ := Option.isSome_iff_exists.mp hlive
  have hrun : s.isRunning = true := by
    by_contra hidle
    have hnil := (h.idle (Bool.eq_false_iff.mpr hidle)).1
    simp only at hnil
    simp [hnil] at hfind
  obtain ⟨herase, hlen, hnew, hmem⟩ := inv_erase h hrun hfind
  have hrange := h.good.inRange id hmem
  have hgiven := h.given id hmem
  have hcount := h.good.count
  simp only [serverCount] at hgiven hcount hrange
  rw [serverFinish, hfind, Option.getD_some]
  refine (if_pos hrun).symm ▸ inv_startServer herase hrun ?_ hnew hrange.1 hrange.2 ?_
  · simp only [serverCount]
    omega
  · simp only [serverCount]
    omega

lemma inv_start (h : Inv ⟨s, n⟩) (listening : Bool) : Inv ⟨(s.start listening).2, n⟩ := by
  unfold ServerManager.start
  split_ifs with hrun hstop hlisten
  · exact h
  · exact h
  · exact h
  · obtain ⟨hnil, hn⟩ := h.idle (Bool.eq_false_iff.mpr hrun)
    simp only at hnil hn
    have hstarting : Inv ⟨{ s with managerState := .starting }, n⟩ :=
      ⟨⟨h.good.distinct, h.good.inRange, h.good.count⟩, h.ascending, h.objects, h.maxServers,
        h.minServers, h.counter, h.given, nofun⟩
    refine inv_ajustServers hstarting fun _ _ => ?_
    have hmax := h.maxServers.1
    simp only [serverCount, hnil, hn] at hmax ⊢
    simpa using by omega

lemma inv_stop (h : Inv ⟨s, n⟩) : Inv ⟨s.stop, if s.isRunning then 0 else n⟩ := by
  unfold ServerManager.stop
  have hmax := h.maxServers.1
  split_ifs with hrun
  · refine ⟨⟨List.nodup_nil, nofun, ?_⟩, List.Pairwise.nil, nofun, h.maxServers, h.minServers, rfl,
      nofun, fun _ => ⟨rfl, rfl⟩⟩
    simp only [serverCount, List.length_nil] at hmax ⊢
    omega
  · exact h

lemma inv_step (h : Inv r) {e : Event} (hroom : r.Room e) : Inv (r.step e) := by
  obtain ⟨s, n⟩ := r
  cases e with
  | start listening => exact inv_start h listening
  | stop => exact inv_stop h
  | started server =>
    simp only [Run.step, step]
    split_ifs with hlive
    · exact inv_ajustServers h (hroom hlive)
    · exact h
  | error server => exact h
  | finished server =>
    simp only [Run.step, step]
    split_ifs with hlive
    · exact inv_serverFinish h hlive
    · exact h

lemma inv_run (h : Inv r) {es : List Event} (hroom : r.Roomy es) : Inv (r.run es) := by
  induction es generalizing r with
  | nil => exact h
  | cons e es ih => exact ih (inv_step h hroom.1) hroom.2

end Step

lemma inv_init (maxServers minServers : Int32) : Inv (Run.init maxServers minServers) := by
  have hmax := maxServers.toInt_lt
  have hmin := minServers.toInt_lt
  refine ⟨⟨List.nodup_nil, nofun, ?_⟩, List.Pairwise.nil, nofun, ⟨?_, ?_⟩, ?_, rfl, nofun,
    fun _ => ⟨rfl, rfl⟩⟩
  all_goals simp only [Run.init, create, serverCount, List.length_nil]; omega

lemma roomy_initial {r : Run} {es es' : List Event} (h : r.Roomy es) (hpre : es' <+: es) :
    r.Roomy es' := by
  induction es' generalizing r es with
  | nil => trivial
  | cons e es' ih =>
    obtain ⟨rest, rfl⟩ := hpre
    exact ⟨h.1, ih h.2 (List.prefix_append _ _)⟩

/-- **The ids of the servers**: in a run that finds room at each start of a further server, they
are distinct and in range at every moment. -/
theorem run_good (maxServers minServers : Int32) (es : List Event)
    (hroom : (Run.init maxServers minServers).Roomy es) :
    ∀ es', es' <+: es → Good ((Run.init maxServers minServers).run es').manager :=
  fun _ hpre => (inv_run (inv_init maxServers minServers) (roomy_initial hroom hpre)).good

theorem run_good_two :
    Good ((Run.init 2 2).run [.start true, .started 0, .finished 1, .started 2]).manager :=
  run_good 2 2 [.start true, .started 0, .finished 1, .started 2]
    ⟨trivial, fun _ _ _ => by decide, trivial, fun _ _ h => absurd h (by decide), trivial⟩
    _ (List.prefix_refl _)

/-- Of three servers the first ends when the third is about to be started: that gets the id 3. -/
theorem not_good_after_finish :
    ¬Good ((Run.init 3 3).run [.start true, .started 0, .finished 0, .started 1]).manager := by
  intro h
  have hlt := (h.inRange 3 (by decide)).2
  exact absurd hlt (by decide)

end TreeFrog.ApplicationServers
