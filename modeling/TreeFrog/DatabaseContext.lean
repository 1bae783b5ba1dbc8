import TreeFrog.SqlTransaction

/-!
`TDatabaseContext`: the connections a thread holds, fetched from the pool on first use and given
back on release, and the transactions on them.
-/

namespace TreeFrog.DatabaseContext

open SqlTransaction SqlTransaction.TSqlTransaction

/-- What the application and its drivers fix. -/
structure App where
  isSqlDatabaseAvailable : Bool
  sqlDatabaseSettingsCount : ℕ
  /-- `hasFeature(QSqlDriver::Transactions)`. -/
  hasTransactions : Connection → Bool

structure TDatabaseContext where
  /-- The valid ones; an invalid database object is as one that is not there. -/
  sqlDatabases : List (ℤ × Connection)
  transactions : TSqlTransaction

namespace TDatabaseContext

def beginTransaction (app : App) (s : TDatabaseContext) (database : Option Connection)
    (ok : Bool) : Bool × TDatabaseContext :=
  if database.any app.hasTransactions then
    let result := s.transactions.begin database ok
    (result.1, { s with transactions := result.2 })
  else (true, s)

/-- `getSqlDatabase`; `pooled` is what the pool gives if it is asked, and `ok` the outcome of a
`transaction()`. A bad id throws. -/
def getSqlDatabase (app : App) (s : TDatabaseContext) (id : ℤ) (pooled : Option Connection)
    (ok : Bool) : Except String (Option Connection) × TDatabaseContext :=
  if !app.isSqlDatabaseAvailable then (.ok (s.sqlDatabases.lookup 0), s)
  else if id < 0 ∨ app.sqlDatabaseSettingsCount ≤ id then (.error "error database id", s)
  else
    match s.sqlDatabases.lookup id with
    | some c => (.ok (some c), s)
    | none =>
      let attached := pooled.toList.map (id, ·) ++ s.sqlDatabases
      (.ok pooled, (beginTransaction app { s with sqlDatabases := attached } pooled ok).2)

def setTransactionEnabled (s : TDatabaseContext) (enable : Bool) : TDatabaseContext :=
  { s with transactions := { s.transactions with enabled := enable } }

def commitTransactions (s : TDatabaseContext) (ok : ℕ → Bool) : TDatabaseContext :=
  { s with transactions := s.transactions.commitAll ok }

def commitTransaction (s : TDatabaseContext) (id : ℤ) (ok : Bool) : TDatabaseContext :=
  { s with transactions := (s.transactions.commit id ok).2 }

def rollbackTransactions (s : TDatabaseContext) (ok : ℕ → Bool) : TDatabaseContext :=
  { s with transactions := s.transactions.rollbackAll ok }

def rollbackTransaction (s : TDatabaseContext) (id : ℤ) (ok : Bool) : TDatabaseContext :=
  { s with transactions := (s.transactions.rollback id ok).2 }

/-- `releaseSqlDatabases`: the connections given back to the pool, and the context after it. -/
def releaseSqlDatabases (s : TDatabaseContext) (ok : ℕ → Bool) :
    List Connection × TDatabaseContext :=
  let s := s.rollbackTransactions ok
  (s.sqlDatabases.map Prod.snd, { s with sqlDatabases := [] })

end TDatabaseContext

/-- A call, with what comes of it on the connections; `ok i` is the outcome at place `i`. -/
inductive Call where
  | getSqlDatabase (id : ℤ) (pooled : Option Connection) (ok : Bool)
  | setTransactionEnabled (enable : Bool)
  | commitTransactions (ok : ℕ → Bool)
  | commitTransaction (id : ℤ) (ok : Bool)
  | rollbackTransactions (ok : ℕ → Bool)
  | rollbackTransaction (id : ℤ) (ok : Bool)
  | release (ok : ℕ → Bool)

def step (app : App) (s : TDatabaseContext) : Call → TDatabaseContext
  | .getSqlDatabase id pooled ok => (s.getSqlDatabase app id pooled ok).2
  | .setTransactionEnabled enable => s.setTransactionEnabled enable
  | .commitTransactions ok => s.commitTransactions ok
  | .commitTransaction id ok => s.commitTransaction id ok
  | .rollbackTransactions ok => s.rollbackTransactions ok
  | .rollbackTransaction id ok => s.rollbackTransaction id ok
  | .release ok => (s.releaseSqlDatabases ok).2

def run (app : App) (s : TDatabaseContext) (calls : List Call) : TDatabaseContext :=
  calls.foldl (step app) s

/-- A new context; no connection of the pool carries a transaction. -/
structure New (app : App) (s : TDatabaseContext) : Prop where
  sqlDatabases : s.sqlDatabases = []
  databases : s.transactions.databases = List.replicate app.sqlDatabaseSettingsCount none
  settled : ∀ c, Settled c s.transactions.log

/-- The property at one moment: whatever the rollbacks come to, a release gives back settled
connections only. -/
def ReleasesSettled (s : TDatabaseContext) : Prop :=
  ∀ ok, ∀ c ∈ (s.releaseSqlDatabases ok).1,
    Settled c (s.releaseSqlDatabases ok).2.transactions.log

/-- A commit succeeds where there is something to commit. -/
def Commits (s : TDatabaseContext) : Call → Prop
  | .commitTransactions ok => ∀ (i : ℕ) (c : Connection),
    s.transactions.databases[i]? = some (some c) → ¬ Settled c s.transactions.log → ok i = true
  | .commitTransaction id ok => ∀ (i : ℕ) (c : Connection), id = i →
    s.transactions.databases[i]? = some (some c) → ¬ Settled c s.transactions.log → ok = true
  | _ => True

/-- A run each commit of which succeeds where there is something to commit. -/
def CommitsRun (app : App) : TDatabaseContext → List Call → Prop
  | _, [] => True
  | s, call :: calls => Commits s call ∧ CommitsRun app (step app s call) calls

/-! ### The invariant -/

section
variable {app : App} {s : TDatabaseContext}

lemma covered_new (h : New app s) : s.transactions.Covered := fun c => .inl (h.settled c)

lemma covered_rollbackAll {t : TSqlTransaction} (h : t.Covered) (ok : ℕ → Bool) :
    (t.rollbackAll ok).Covered :=
  covered_foldl_finish (fun _ h => by cases h) ok _ h fun _ _ _ _ => .inr ⟨_, rfl⟩

lemma covered_step (h : s.transactions.Covered) {call : Call} (hcommits : Commits s call) :
    (step app s call).transactions.Covered := by
  cases call with
  | getSqlDatabase id pooled ok =>
    simp only [step, TDatabaseContext.getSqlDatabase]
    split
    · exact h
    · split
      · exact h
      · split
        · exact h
        · simp only [TDatabaseContext.beginTransaction]
          split
          · exact covered_begin h pooled ok
          · exact h
  | setTransactionEnabled enable => exact h
  | commitTransactions ok =>
    refine covered_foldl_finish (fun _ h => by cases h) ok _ h fun i c hget hc => .inl ?_
    rw [hcommits i c hget hc]
  | commitTransaction id ok =>
    refine covered_finish (fun _ h => by cases h) h fun i c hid hget hc => .inl ?_
    rw [hcommits i c hid hget hc]
  | rollbackTransactions ok => exact covered_rollbackAll h ok
  | rollbackTransaction id ok =>
    exact covered_finish (fun _ h => by cases h) h fun _ _ _ _ _ => .inr ⟨_, rfl⟩
  | release ok => exact covered_rollbackAll h ok

lemma covered_run {calls : List Call} (h : s.transactions.Covered)
    (hcommits : CommitsRun app s calls) : (run app s calls).transactions.Covered := by
  induction calls generalizing s with
  | nil => exact h
  | cons call calls ih => exact ih (covered_step h hcommits.1) hcommits.2

end

/-- **No transaction leaks** into the pool in a run whose commits succeed: the rollbacks of a
release come to every transaction that is open. -/
theorem releasesSettled_of_commits {app : App} {s : TDatabaseContext} (hs : New app s)
    {calls : List Call} (hcommits : CommitsRun app s calls) :
    ReleasesSettled (run app s calls) := by
  intro ok c _
  have hcovered := covered_rollbackAll (covered_run (covered_new hs) hcommits) ok
  exact (hcovered c).resolve_right (free_finishAll ok c)

/-! ### A commit that fails -/

/-- One database, and a driver with transactions. -/
def oneDatabase : App := ⟨true, 1, fun _ => true⟩

def fresh : TDatabaseContext := ⟨[], ⟨true, [none], []⟩⟩

lemma new_fresh : New oneDatabase fresh := ⟨rfl, rfl, settled_nil⟩

/-- A request that commits its transaction, a release, and a request that does not come to it. -/
def twoRequests : List Call :=
  [.getSqlDatabase 0 (some ⟨0, 0⟩) true, .commitTransactions fun _ => true, .release fun _ => true,
    .getSqlDatabase 0 (some ⟨0, 1⟩) true]

theorem releasesSettled_of_commits_twoRequests :
    ReleasesSettled (run oneDatabase fresh twoRequests) :=
  releasesSettled_of_commits new_fresh
    ⟨trivial, fun _ _ _ _ => rfl, trivial, trivial, trivial⟩

theorem not_releasesSettled_failedCommit :
    ¬ ∀ calls : List Call, ReleasesSettled (run oneDatabase fresh calls) := by
  intro h
  have hsettled := h
    [.getSqlDatabase 0 (some ⟨0, 0⟩) true, .commitTransactions fun _ => false]
    (fun _ => true) ⟨0, 0⟩ (by decide +kernel)
  have hlog : (TDatabaseContext.releaseSqlDatabases (run oneDatabase fresh
      [.getSqlDatabase 0 (some ⟨0, 0⟩) true, .commitTransactions fun _ => false])
      fun _ => true).2.transactions.log =
        [] ++ (⟨0, 0⟩, .begin true) :: [(⟨0, 0⟩, .commit false)] := by
    decide +kernel
  rcases hsettled _ _ hlog with hcommit | ⟨ok, hrollback⟩
  · simp at hcommit
  · simp at hrollback

end TreeFrog.DatabaseContext
