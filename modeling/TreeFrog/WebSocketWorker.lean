import TreeFrog.DatabaseContext

/-!
`TWebSocketWorker`: the messages of a connection are handled one after another in one database
context. A transaction is begun when a connection is fetched for the first time, and ended with
the message.
-/

namespace TreeFrog.WebSocketWorker

open SqlTransaction SqlTransaction.TSqlTransaction DatabaseContext

/-! ### The worker -/

/-- A statement of a handler on a database; `pooled` is the connection of that database the pool
gives if it is asked. -/
structure Query where
  id : ℤ
  pooled : Option ℕ
  sql : String

inductive Ending where
  | returned (rollbackRequested : Bool)
  | thrown
  deriving DecidableEq

/-- What the handler of a message does, and the outcomes of the commits or rollbacks behind it. -/
structure Message where
  queries : List Query
  ending : Ending
  ok : ℕ → Bool

/-- Fetches the connection, with a `transaction()` that succeeds, and executes the statement on it
if it is valid; `false` if the id is bad. -/
def query (app : App) (s : TDatabaseContext) (q : Query) : Bool × TDatabaseContext :=
  match s.getSqlDatabase app q.id (q.pooled.map fun i => ⟨q.id.toNat, i⟩) true with
  | (.error _, s) => (false, s)
  | (.ok none, s) => (true, s)
  | (.ok (some c), s) =>
    (true, { s with transactions :=
      { s.transactions with log := s.transactions.log ++ [(c, .statement q.sql)] } })

/-- The statements of a handler, up to one that throws. -/
def queries (app : App) : TDatabaseContext → List Query → Bool × TDatabaseContext
  | s, [] => (true, s)
  | s, q :: qs =>
    match query app s q with
    | (false, s) => (false, s)
    | (true, s) => queries app s qs

/-- `execute` for a received message. -/
def execute (app : App) (transactionEnabled : Bool) (s : TDatabaseContext) (m : Message) :
    TDatabaseContext :=
  match queries app (s.setTransactionEnabled transactionEnabled) m.queries, m.ending with
  | (true, s), .returned true => s.rollbackTransactions m.ok
  | (true, s), .returned false => s.commitTransactions m.ok
  | (_, s), _ => s

/-- `run` in the mode `Receiving`. -/
def run (app : App) (transactionEnabled : Bool) (s : TDatabaseContext) (ms : List Message) :
    TDatabaseContext :=
  ms.foldl (execute app transactionEnabled) s

/-- The context of a new worker. -/
def start (app : App) : TDatabaseContext :=
  ⟨[], ⟨true, List.replicate app.sqlDatabaseSettingsCount none, []⟩⟩

/-! ### What a message should do -/

/-- What is issued on one connection. -/
def events (c : Connection) (log : Log) : List Event :=
  (log.filter fun x => x.1 = c).map Prod.snd

/-- A connection: the statements of its open transaction, and those a rollback has undone. -/
structure Session where
  transaction : Option (List String)
  undone : List String

def Session.step (s : Session) : Event → Session
  | .begin true => { s with transaction := some (s.transaction.getD []) }
  | .commit true => { s with transaction := none }
  | .rollback true => ⟨none, s.undone ++ s.transaction.getD []⟩
  | .statement sql => { s with transaction := s.transaction.map (· ++ [sql]) }
  | _ => s

def session (c : Connection) (log : Log) : Session := (events c log).foldl Session.step ⟨none, []⟩

def statements : List Event → List String
  | [] => []
  | .statement sql :: es => sql :: statements es
  | _ :: es => statements es

/-- A transaction on the connection that was begun in `log` and not ended since. -/
def Begun (c : Connection) (log : Log) : Prop :=
  ∃ pre post, log = pre ++ (c, .begin true) :: post ∧
    ∀ ok, (c, .commit ok) ∉ post ∧ (c, .rollback ok) ∉ post

/-- **A unit of work**: each statement of the message is in a transaction begun for it, and a
rollback, if it is requested and succeeds, undoes these statements and no other. -/
structure UnitOfWork (app : App) (s : TDatabaseContext) (m : Message) (new : Log) : Prop where
  log : (execute app true s m).transactions.log = s.transactions.log ++ new
  inside : ∀ pre post c sql, new = pre ++ (c, .statement sql) :: post → Begun c pre
  undone : m.ending = .returned true → (queries app (s.setTransactionEnabled true) m.queries).1 →
    (∀ i, m.ok i = true) → ∀ c, (session c (s.transactions.log ++ new)).undone =
      (session c s.transactions.log).undone ++ statements (events c new)

/-- No message before has queried a database of this one, nor, if this one requests a rollback,
left its transaction open by an exception. -/
structure Separate (s : TDatabaseContext) (m : Message) : Prop where
  queries : ∀ q ∈ m.queries, s.sqlDatabases.lookup q.id = none
  ended : m.ending = .returned true → ∀ c, some c ∉ s.transactions.databases

/-- Names have two digits for the database, and the drivers have transactions. -/
structure Supported (app : App) : Prop where
  settings : app.sqlDatabaseSettingsCount ≤ 100
  transactions : ∀ c, app.hasTransactions c = true

/-! ### Events -/

@[simp] lemma events_nil (c : Connection) : events c [] = [] := rfl

lemma events_append (c : Connection) (a b : Log) :
    events c (a ++ b) = events c a ++ events c b := by
  simp [events]

lemma events_singleton (c d : Connection) (e : Event) :
    events c [(d, e)] = if d = c then [e] else [] := by
  by_cases h : d = c <;> simp [events, h]

lemma mem_of_mem_events {c : Connection} {log : Log} {e : Event} (h : e ∈ events c log) :
    (c, e) ∈ log := by
  obtain ⟨⟨d, e'⟩, hmem, rfl⟩ := List.mem_map.mp h
  obtain ⟨hlog, hd⟩ := List.mem_filter.mp hmem
  obtain rfl : d = c := by simpa using hd
  exact hlog

/-! ### The invariant of a run -/

/-- Connections are attached under the id of their database, transactions have the place of
theirs, and nothing is issued on a connection that is not attached. -/
structure Aligned (app : App) (s : TDatabaseContext) : Prop where
  available : app.isSqlDatabaseAvailable = false → s.sqlDatabases = []
  length : s.transactions.databases.length = app.sqlDatabaseSettingsCount
  own : ∀ id c, s.sqlDatabases.lookup id = some c → id = c.databaseId
  place : ∀ (i : ℕ) (c : Connection), s.transactions.databases[i]? = some (some c) →
    s.sqlDatabases.lookup (i : ℤ) = some c
  attached : ∀ c, events c s.transactions.log ≠ [] →
    s.sqlDatabases.lookup (c.databaseId : ℤ) = some c

lemma aligned_start (app : App) : Aligned app (start app) where
  available _ := rfl
  length := by simp [start]
  own id c h := by simp [start] at h
  place i c h := by
    simp only [start, List.getElem?_replicate] at h
    split at h <;> cases h
  attached c h := absurd rfl h

section
variable {app : App} {s : TDatabaseContext}

/-- The context with a connection attached and a transaction begun on it. -/
def attach (s : TDatabaseContext) (c : Connection) : TDatabaseContext where
  sqlDatabases := (c.databaseId, c) :: s.sqlDatabases
  transactions := { s.transactions with
    databases := s.transactions.databases.set c.databaseId (some c)
    log := s.transactions.log ++ [(c, .begin true)] }

/-- What fetching a connection comes to. -/
inductive Fetched (app : App) (s : TDatabaseContext) (id : ℤ) :
    Except String (Option Connection) × TDatabaseContext → Prop
  | refused (e : String) : Fetched app s id (.error e, s)
  | invalid : Fetched app s id (.ok none, s)
  | attached (c : Connection) (h : s.sqlDatabases.lookup id = some c) :
      Fetched app s id (.ok (some c), s)
  | begun (c : Connection) (havailable : app.isSqlDatabaseAvailable = true)
      (hid : id = c.databaseId) (hlt : c.databaseId < app.sqlDatabaseSettingsCount)
      (h : s.sqlDatabases.lookup (c.databaseId : ℤ) = none) :
      Fetched app s id (.ok (some c), attach s c)

lemma fetched (hs : Supported app) (ha : Aligned app s) (hen : s.transactions.enabled = true)
    (id : ℤ) (pooled : Option ℕ) :
    Fetched app s id (s.getSqlDatabase app id (pooled.map fun i => ⟨id.toNat, i⟩) true) := by
  unfold TDatabaseContext.getSqlDatabase
  split
  · rename_i havailable
    rw [ha.available (by simpa using havailable)]
    exact .invalid
  · rename_i havailable
    split
    · exact .refused _
    · rename_i hrange
      split
      · -- the database is attached already
        rename_i c hlookup
        exact .attached c hlookup
      · rename_i hlookup
        cases pooled with
        | none => exact .invalid
        | some i =>
          have hid : id = (id.toNat : ℤ) := by omega
          have hlt : id.toNat < app.sqlDatabaseSettingsCount := by omega
          have hname : getDatabaseId ⟨id.toNat, i⟩ = id := by
            have hsettings := hs.settings
            rw [getDatabaseId_eq (by simp only; omega)]
            exact hid.symm
          -- the place of the database is free, since it is not attached
          have hfree : s.transactions.databases[id.toNat]?.join = none := by
            cases hget : s.transactions.databases[id.toNat]?.join with
            | none => rfl
            | some d =>
              have hplace := ha.place id.toNat d (by simpa [Option.join_eq_some_iff] using hget)
              rw [← hid, hlookup] at hplace
              cases hplace
          have hlength := ha.length
          have hbegin : s.transactions.begin (some ⟨id.toNat, i⟩) true =
              (true, (attach s ⟨id.toNat, i⟩).transactions) := by
            simp only [begin, hen, hname, hfree, Bool.not_true, Bool.false_eq_true, if_false,
              Option.isSome_none]
            rw [if_neg (by omega)]
            simp [attach, hen]
          have hattach : (Option.toList (some (⟨id.toNat, i⟩ : Connection))).map (id, ·) ++
              s.sqlDatabases = (attach s ⟨id.toNat, i⟩).sqlDatabases := by
            simp [attach, ← hid]
          simp only [Option.map_some, TDatabaseContext.beginTransaction, Option.any_some,
            hs.transactions, if_true, hbegin, hattach]
          exact .begun ⟨id.toNat, i⟩ (by simpa using havailable) hid hlt
            (by rw [← hid]; exact hlookup)

/-- The context with one more event in the log. -/
def issue (s : TDatabaseContext) (c : Connection) (sql : String) : TDatabaseContext :=
  { s with transactions := { s.transactions with
    log := s.transactions.log ++ [(c, .statement sql)] } }

lemma lookup_attach (s : TDatabaseContext) (c : Connection) (id : ℤ) :
    (attach s c).sqlDatabases.lookup id =
      if id = c.databaseId then some c else s.sqlDatabases.lookup id := by
  rw [attach, List.lookup_cons]
  by_cases h : id = c.databaseId
  · simp [h]
  · simp [h, beq_false_of_ne h]

lemma aligned_attach (ha : Aligned app s) {c : Connection}
    (havailable : app.isSqlDatabaseAvailable = true)
    (hnone : s.sqlDatabases.lookup (c.databaseId : ℤ) = none) : Aligned app (attach s c) where
  available h := by
    rw [havailable] at h
    cases h
  length := by simp [attach, ha.length]
  own id d h := by
    rw [lookup_attach] at h
    split at h
    · obtain rfl := Option.some.inj h
      assumption
    · exact ha.own id d h
  place i d h := by
    rw [lookup_attach]
    simp only [attach, List.getElem?_set] at h
    split at h
    · split at h
      · rename_i hi _
        rw [if_pos (by exact_mod_cast hi.symm)]
        exact Option.some.inj h
      · cases h
    · rename_i hi
      rw [if_neg (by exact_mod_cast Ne.symm hi)]
      exact ha.place i d h
  attached d h := by
    rw [lookup_attach]
    by_cases hd : c = d
    · subst hd
      rw [if_pos rfl]
    · have hlookup := ha.attached d (by simpa [attach, events_append, events_singleton, hd] using h)
      rw [if_neg, hlookup]
      intro hid
      rw [hid, hnone] at hlookup
      cases hlookup

lemma aligned_issue (ha : Aligned app s) {c : Connection}
    (hc : s.sqlDatabases.lookup (c.databaseId : ℤ) = some c) (sql : String) :
    Aligned app (issue s c sql) where
  available := ha.available
  length := ha.length
  own := ha.own
  place := ha.place
  attached d h := by
    by_cases hd : c = d
    · subst hd
      exact hc
    · refine ha.attached d ?_
      simpa [issue, events_append, events_singleton, hd] using h

/-- What `query` comes to, by what the fetch comes to. -/
inductive Queried (app : App) (s : TDatabaseContext) (q : Query) : Bool × TDatabaseContext → Prop
  | refused : Queried app s q (false, s)
  | invalid : Queried app s q (true, s)
  | attached (c : Connection) (h : s.sqlDatabases.lookup q.id = some c) :
      Queried app s q (true, issue s c q.sql)
  | begun (c : Connection) (havailable : app.isSqlDatabaseAvailable = true)
      (hid : q.id = c.databaseId) (hlt : c.databaseId < app.sqlDatabaseSettingsCount)
      (h : s.sqlDatabases.lookup (c.databaseId : ℤ) = none) :
      Queried app s q (true, issue (attach s c) c q.sql)

lemma queried (hs : Supported app) (ha : Aligned app s) (hen : s.transactions.enabled = true)
    (q : Query) : Queried app s q (query app s q) := by
  have h := fetched hs ha hen q.id q.pooled
  unfold query
  generalize s.getSqlDatabase app q.id (q.pooled.map fun i => ⟨q.id.toNat, i⟩) true = r at h ⊢
  cases h with
  | refused e => exact .refused
  | invalid => exact .invalid
  | attached c h => exact .attached c h
  | begun c havailable hid hlt h => exact .begun c havailable hid hlt h

lemma aligned_query (hs : Supported app) (ha : Aligned app s)
    (hen : s.transactions.enabled = true) (q : Query) :
    Aligned app (query app s q).2 ∧ (query app s q).2.transactions.enabled = true := by
  have h := queried hs ha hen q
  generalize query app s q = r at h ⊢
  cases h with
  | refused => exact ⟨ha, hen⟩
  | invalid => exact ⟨ha, hen⟩
  | attached c h =>
    have hid := ha.own q.id c h
    exact ⟨aligned_issue ha (by rw [← hid]; exact h) q.sql, hen⟩
  | begun c havailable hid hlt h =>
    refine ⟨aligned_issue (aligned_attach ha havailable h) ?_ q.sql, hen⟩
    rw [lookup_attach, if_pos rfl]

lemma aligned_queries (hs : Supported app) (ha : Aligned app s)
    (hen : s.transactions.enabled = true) (qs : List Query) :
    Aligned app (queries app s qs).2 := by
  induction qs generalizing s with
  | nil => exact ha
  | cons q qs ih =>
    obtain ⟨ha', hen'⟩ := aligned_query hs ha hen q
    rw [queries]
    split
    · rename_i heq
      rw [heq] at ha'
      exact ha'
    · rename_i heq
      rw [heq] at ha' hen'
      exact ih ha' hen'

lemma aligned_finish (ha : Aligned app s) (event : Bool → Event) (i : ℕ) (ok : Bool) :
    Aligned app { s with transactions := (finish event s.transactions i ok).2 } := by
  rcases finish_cases event s.transactions i ok with heq | ⟨j, c, -, hget, heq⟩
  · rw [heq]
    exact ha
  · rw [heq]
    refine ⟨ha.available, by simpa using ha.length, ha.own, fun k d hk => ?_, fun d hd => ?_⟩
    · simp only [List.getElem?_set] at hk
      split at hk
      · split at hk <;> cases hk
      · exact ha.place k d hk
    · by_cases hcd : c = d
      · subst hcd
        have hplace := ha.place j c hget
        rw [ha.own j c hplace] at hplace
        exact hplace
      · refine ha.attached d ?_
        simpa [events_append, events_singleton, hcd] using hd

lemma aligned_finishAll (ha : Aligned app s) (event : Bool → Event) (ok : ℕ → Bool) :
    Aligned app { s with transactions := finishAll event s.transactions ok } := by
  have hfold : ∀ (is : List ℕ) (t : TSqlTransaction), Aligned app { s with transactions := t } →
      Aligned app { s with transactions :=
        (is.foldl (fun t (i : ℕ) => (finish event t i (ok i)).2) t) } := by
    intro is
    induction is with
    | nil => exact fun t h => h
    | cons i is ih => exact fun t h => ih _ (aligned_finish h event i (ok i))
  exact hfold _ _ ha

lemma aligned_setTransactionEnabled (ha : Aligned app s) (enable : Bool) :
    Aligned app (s.setTransactionEnabled enable) :=
  ⟨ha.available, ha.length, ha.own, ha.place, ha.attached⟩

lemma aligned_execute (hs : Supported app) (ha : Aligned app s) (m : Message) :
    Aligned app (execute app true s m) := by
  have h := aligned_queries hs (aligned_setTransactionEnabled ha true) rfl m.queries
  unfold execute
  generalize queries app (s.setTransactionEnabled true) m.queries = r at h ⊢
  split
  · exact aligned_finishAll h .rollback m.ok
  · exact aligned_finishAll h .commit m.ok
  · exact h

lemma aligned_run (hs : Supported app) (ha : Aligned app s) (ms : List Message) :
    Aligned app (run app true s ms) := by
  induction ms generalizing s with
  | nil => exact ha
  | cons m ms ih => exact ih (aligned_execute hs ha m)

/-! ### The handling of one message -/

lemma begun_of_events {c : Connection} {log : Log} {sqls : List String}
    (h : events c log = .begin true :: sqls.map .statement) : Begun c log := by
  have hbegin : (c, Event.begin true) ∈ log := mem_of_mem_events (by rw [h]; simp)
  obtain ⟨pre, post, rfl⟩ := List.append_of_mem hbegin
  have hnone : ∀ e, (c, e) ∈ post → e = .begin true ∨ ∃ sql, e = .statement sql := by
    intro e he
    have hmem : e ∈ events c (pre ++ (c, .begin true) :: post) :=
      List.mem_map.mpr ⟨(c, e), List.mem_filter.mpr ⟨by simp [he], by simp⟩, rfl⟩
    rw [h, List.mem_cons, List.mem_map] at hmem
    exact hmem.imp_right fun ⟨sql, _, heq⟩ => ⟨sql, heq.symm⟩
  refine ⟨pre, post, rfl, fun ok => ⟨fun hc => ?_, fun hr => ?_⟩⟩
  · rcases hnone _ hc with heq | ⟨sql, heq⟩ <;> cases heq
  · rcases hnone _ hr with heq | ⟨sql, heq⟩ <;> cases heq

/-- The context while a message is handled that began with `s₀`, and what has been issued: all of
it on connections attached since, in transactions begun since. -/
structure Handling (s₀ s : TDatabaseContext) (new : Log) : Prop where
  log : s.transactions.log = s₀.transactions.log ++ new
  old : ∀ id c, s₀.sqlDatabases.lookup id = some c → s.sqlDatabases.lookup id = some c
  issued : ∀ c, events c new ≠ [] → s₀.sqlDatabases.lookup (c.databaseId : ℤ) = none ∧
    s.transactions.databases[c.databaseId]? = some (some c) ∧
    ∃ sqls : List String, events c new = .begin true :: sqls.map .statement
  fresh : ∀ id c, s.sqlDatabases.lookup id = some c → s₀.sqlDatabases.lookup id = none →
    events c new ≠ []
  places : ∀ (i : ℕ) (c : Connection), s.transactions.databases[i]? = some (some c) →
    s₀.transactions.databases[i]? = some (some c) ∨ events c new ≠ []
  inside : ∀ pre post c sql, new = pre ++ (c, .statement sql) :: post → Begun c pre

lemma handling_start (s : TDatabaseContext) :
    Handling s (s.setTransactionEnabled true) [] where
  log := by simp [TDatabaseContext.setTransactionEnabled]
  old _ _ h := h
  issued c h := absurd rfl h
  fresh id c h h' := by
    rw [TDatabaseContext.setTransactionEnabled, h'] at h
    cases h
  places _ _ h := .inl h
  inside pre post c sql h := by simp at h

lemma handling_attach {s₀ : TDatabaseContext} {new : Log} (ha : Aligned app s)
    (h : Handling s₀ s new) {c : Connection} (hlt : c.databaseId < app.sqlDatabaseSettingsCount)
    (hnone : s.sqlDatabases.lookup (c.databaseId : ℤ) = none) :
    Handling s₀ (attach s c) (new ++ [(c, .begin true)]) := by
  have hc : events c new = [] := by
    by_contra hne
    have hlookup := ha.attached c (by rw [h.log, events_append]; simp [hne])
    rw [hnone] at hlookup
    cases hlookup
  have hlength := ha.length
  -- the place of the connection was free
  have hplace : ∀ d, d ≠ c → events d new ≠ [] → d.databaseId ≠ c.databaseId := by
    intro d hd hne heq
    have hlookup := ha.place _ d (h.issued d hne).2.1
    rw [heq, hnone] at hlookup
    cases hlookup
  refine ⟨by simp [attach, h.log], fun id d hd => ?_, fun d hd => ?_, fun id d hd hid => ?_,
    fun i d hd => ?_, fun pre post d sql hsplit => ?_⟩
  · rw [lookup_attach, if_neg, h.old id d hd]
    rintro rfl
    have hlookup := h.old _ d hd
    rw [hnone] at hlookup
    cases hlookup
  · by_cases hdc : c = d
    · subst hdc
      refine ⟨?_, ?_, [], by simp [events_append, events_singleton, hc]⟩
      · cases h₀ : s₀.sqlDatabases.lookup (c.databaseId : ℤ) with
        | none => rfl
        | some d =>
          rw [h.old _ d h₀] at hnone
          cases hnone
      · exact List.getElem?_set_self (by omega)
    · have hsame : events d (new ++ [(c, .begin true)]) = events d new := by
        simp [events_append, events_singleton, hdc]
      rw [hsame] at hd ⊢
      obtain ⟨h₀, hget, hsqls⟩ := h.issued d hd
      refine ⟨h₀, ?_, hsqls⟩
      rw [attach, List.getElem?_set_ne (hplace d (Ne.symm hdc) hd).symm, hget]
  · rw [lookup_attach] at hd
    rw [events_append]
    split at hd
    · obtain rfl := Option.some.inj hd
      simp [events_singleton]
    · simp [h.fresh id d hd hid]
  · rw [events_append]
    simp only [attach, List.getElem?_set] at hd
    split at hd
    · split at hd
      · obtain rfl := Option.some.inj (Option.some.inj hd)
        simp [events_singleton]
      · cases hd
    · exact (h.places i d hd).imp_right fun hne => by simp [hne]
  · rcases List.append_eq_append_iff.mp hsplit with ⟨t, rfl, ht⟩ | ⟨t, rfl, ht⟩
    · cases t with
      | nil => cases ht
      | cons x t => simp at ht
    · cases t with
      | nil => cases ht
      | cons x t =>
        obtain ⟨rfl, -⟩ := List.cons.inj ht
        exact h.inside pre t d sql rfl

lemma handling_issue {s₀ : TDatabaseContext} {new : Log} (h : Handling s₀ s new) {c : Connection}
    (hc : events c new ≠ []) (sql : String) :
    Handling s₀ (issue s c sql) (new ++ [(c, Event.statement sql)]) := by
  obtain ⟨h₀, hget, sqls, hsqls⟩ := h.issued c hc
  refine ⟨by simp [issue, h.log], h.old, fun d hd => ?_, fun id d hd hid => ?_,
    fun i d hd => ?_, fun pre post d sql' hsplit => ?_⟩
  · by_cases hdc : c = d
    · subst hdc
      exact ⟨h₀, hget, sqls ++ [sql], by simp [events_append, events_singleton, hsqls]⟩
    · have hsame : events d (new ++ [(c, .statement sql)]) = events d new := by
        simp [events_append, events_singleton, hdc]
      rw [hsame] at hd ⊢
      exact h.issued d hd
  · rw [events_append]
    simp [h.fresh id d hd hid]
  · rw [events_append]
    exact (h.places i d hd).imp_right fun hne => by simp [hne]
  · rcases List.append_eq_append_iff.mp hsplit with ⟨t, rfl, ht⟩ | ⟨t, rfl, ht⟩
    · cases t with
      | nil =>
        obtain ⟨heq, -⟩ := List.cons.inj ht
        obtain rfl := congrArg Prod.fst heq
        rw [List.append_nil]
        exact begun_of_events hsqls
      | cons x t => simp at ht
    · cases t with
      | nil =>
        obtain ⟨heq, -⟩ := List.cons.inj ht
        obtain rfl := congrArg Prod.fst heq
        rw [List.append_nil] at hsqls
        exact begun_of_events hsqls
      | cons x t =>
        obtain ⟨rfl, -⟩ := List.cons.inj ht
        exact h.inside pre t d sql' rfl

/-- **The statements** of a message whose databases were not attached before it. -/
lemma handling_queries (hs : Supported app) {s₀ : TDatabaseContext} {new : Log}
    (ha : Aligned app s) (hen : s.transactions.enabled = true) (h : Handling s₀ s new)
    {qs : List Query} (hqs : ∀ q ∈ qs, s₀.sqlDatabases.lookup q.id = none) :
    ∃ new', Handling s₀ (queries app s qs).2 (new ++ new') ∧ Aligned app (queries app s qs).2 := by
  induction qs generalizing s new with
  | nil => exact ⟨[], by rw [List.append_nil]; exact h, ha⟩
  | cons q qs ih =>
    obtain ⟨ha', hen'⟩ := aligned_query hs ha hen q
    have hnone := hqs q (by simp)
    have hstep : ∃ new', Handling s₀ (query app s q).2 (new ++ new') := by
      have hq := queried hs ha hen q
      generalize query app s q = r at hq ⊢
      cases hq with
      | refused => exact ⟨[], by rw [List.append_nil]; exact h⟩
      | invalid => exact ⟨[], by rw [List.append_nil]; exact h⟩
      | attached c hc => exact ⟨_, handling_issue h (h.fresh q.id c hc hnone) q.sql⟩
      | begun c havailable hid hlt hc =>
        have hattach := handling_attach ha h hlt hc
        refine ⟨[(c, .begin true)] ++ [(c, .statement q.sql)], ?_⟩
        rw [← List.append_assoc]
        exact handling_issue hattach (by simp [events_append, events_singleton]) q.sql
    obtain ⟨new₁, h₁⟩ := hstep
    rw [queries]
    split
    · rename_i heq
      rw [heq] at ha' h₁
      exact ⟨new₁, h₁, ha'⟩
    · rename_i heq
      rw [heq] at ha' hen' h₁
      obtain ⟨new₂, h₂, ha₂⟩ := ih ha' hen' h₁ fun q hq => hqs q (List.mem_cons_of_mem _ hq)
      exact ⟨new₁ ++ new₂, by rw [← List.append_assoc]; exact h₂, ha₂⟩

/-! ### The end of a message -/

lemma log_foldl_finish (event : Bool → Event) (ok : ℕ → Bool) {is : List ℕ} (his : is.Nodup)
    (t : TSqlTransaction) :
    ∃ ends, (is.foldl (fun t (i : ℕ) => (finish event t i (ok i)).2) t).log = t.log ++ ends ∧
      (∀ x ∈ ends, ∃ ok', x.2 = event ok') ∧
      ∀ c, (∀ i : ℕ, t.databases[i]? = some (some c) → i = c.databaseId) →
        events c ends = if c.databaseId ∈ is ∧ t.databases[c.databaseId]? = some (some c) then
          [event (ok c.databaseId)] else [] := by
  induction is generalizing t with
  | nil => exact ⟨[], by simp, by simp, by simp⟩
  | cons i is ih =>
    obtain ⟨hi, his'⟩ := List.nodup_cons.mp his
    obtain ⟨ends, hlog, hends, hevents⟩ := ih his' (finish event t i (ok i)).2
    rw [List.foldl_cons, hlog]
    rw [finish_natCast] at hevents ⊢
    cases hget : t.databases[i]?.join with
    | none =>
      simp only [hget] at hevents
      refine ⟨ends, rfl, hends, fun c hc => ?_⟩
      rw [hevents c hc]
      by_cases heq : c.databaseId = i
      · -- no connection is at this place
        have hnot : t.databases[c.databaseId]? ≠ some (some c) := by
          intro h
          rw [heq] at h
          rw [h] at hget
          cases hget
        rw [if_neg fun h => hnot h.2, if_neg fun h => hnot h.2]
      · simp [heq]
    | some d =>
      simp only [hget] at hevents
      have hplace : t.databases[i]? = some (some d) := by
        simpa [Option.join_eq_some_iff] using hget
      refine ⟨(d, event (ok i)) :: ends, by simp, ?_, fun c hc => ?_⟩
      · -- the event of the place, and those behind it
        intro x hx
        rcases List.mem_cons.mp hx with rfl | hx
        · exact ⟨_, rfl⟩
        · exact hends x hx
      · have hrest := hevents c fun j hj => by
          rw [List.getElem?_set] at hj
          split at hj
          · split at hj <;> cases hj
          · exact hc j hj
        have hcons : events c ((d, event (ok i)) :: ends) =
            events c [(d, event (ok i))] ++ events c ends := events_append c [_] ends
        rw [hcons, events_singleton, hrest]
        by_cases hd : d = c
        · subst hd
          -- the place is that of `c`, and no later one is
          have hid := hc i hplace
          rw [if_pos rfl, if_neg fun h => hi (hid ▸ h.1), List.append_nil,
            if_pos ⟨by simp [← hid], by rw [← hid]; exact hplace⟩, ← hid]
        · rw [if_neg hd, List.nil_append, List.getElem?_set]
          by_cases heq : i = c.databaseId
          · have hnot : t.databases[c.databaseId]? ≠ some (some c) := by
              rw [← heq, hplace]
              exact fun h => hd (Option.some.inj (Option.some.inj h))
            rw [if_neg fun h => hi (heq ▸ h.1), if_neg fun h => hnot h.2]
          · simp [heq, Ne.symm heq]

lemma statements_append (a b : List Event) :
    statements (a ++ b) = statements a ++ statements b := by
  induction a with
  | nil => rfl
  | cons e a ih => cases e <;> simp [statements, ih]

lemma statements_map (sqls : List String) : statements (sqls.map .statement) = sqls := by
  induction sqls with
  | nil => rfl
  | cons sql sqls ih => simp [statements, ih]

lemma foldl_step_statements (sqls before undone : List String) :
    (sqls.map Event.statement).foldl Session.step ⟨some before, undone⟩ =
      ⟨some (before ++ sqls), undone⟩ := by
  induction sqls generalizing before with
  | nil => simp
  | cons sql sqls ih =>
    rw [List.map_cons, List.foldl_cons, Session.step, Option.map_some, ih]
    simp

lemma inside_append {new ends : Log} {event : Bool → Event}
    (hinside : ∀ pre post c sql, new = pre ++ (c, Event.statement sql) :: post → Begun c pre)
    (hends : ∀ x ∈ ends, ∃ ok', x.2 = event ok') (hevent : ∀ ok sql, event ok ≠ .statement sql)
    {pre post : Log} {c : Connection} {sql : String}
    (h : new ++ ends = pre ++ (c, Event.statement sql) :: post) : Begun c pre := by
  have hnot : (c, .statement sql) ∉ ends := by
    intro hmem
    obtain ⟨ok, hok⟩ := hends _ hmem
    exact hevent ok sql hok.symm
  rcases List.append_eq_append_iff.mp h with ⟨t, rfl, ht⟩ | ⟨t, rfl, ht⟩
  · exact absurd (by rw [ht]; simp) hnot
  · cases t with
    | nil => exact absurd (by rw [← List.nil_append ends, ← ht]; simp) hnot
    | cons x t =>
      obtain ⟨rfl, -⟩ := List.cons.inj ht
      exact hinside pre t c sql rfl

/-- What a message leaves to a rollback: the connections it has attached, each with a transaction
of the statements of the message. -/
lemma undone_rollback {s₀ : TDatabaseContext} {new ends : Log} (ha₀ : Aligned app s₀)
    (h : Handling s₀ s new)
    (hempty : ∀ c, some c ∉ s₀.transactions.databases) {ok : ℕ → Bool} (hok : ∀ i, ok i = true)
    (c : Connection)
    (hevents : events c ends = if c.databaseId ∈ List.range s.transactions.databases.length ∧
      s.transactions.databases[c.databaseId]? = some (some c) then
        [.rollback (ok c.databaseId)] else []) :
    (session c (s₀.transactions.log ++ (new ++ ends))).undone =
      (session c s₀.transactions.log).undone ++ statements (events c (new ++ ends)) := by
  rw [session, events_append, events_append, List.foldl_append, ← session]
  by_cases hnew : events c new = []
  · have hnone : events c ends = [] := by
      rw [hevents, if_neg]
      rintro ⟨-, hplace⟩
      rcases h.places _ c hplace with h₀ | hne
      · exact hempty c (List.mem_iff_getElem?.mpr ⟨_, h₀⟩)
      · exact hne hnew
    simp [hnew, hnone, statements]
  · obtain ⟨h₀, hplace, sqls, hsqls⟩ := h.issued c hnew
    have hbefore : events c s₀.transactions.log = [] := by
      by_contra hne
      have hlookup := ha₀.attached c hne
      rw [h₀] at hlookup
      cases hlookup
    obtain ⟨hlt, -⟩ := List.getElem?_eq_some_iff.mp hplace
    rw [hevents, if_pos ⟨List.mem_range.mpr hlt, hplace⟩, hok, hsqls, session, hbefore]
    simp only [List.foldl_nil, List.cons_append, List.foldl_cons, Session.step, Option.getD_none,
      List.foldl_append, foldl_step_statements, List.nil_append, Option.getD_some, statements,
      statements_append, statements_map, List.append_nil]

lemma log_finishAll {s₀ : TDatabaseContext} {new : Log} (ha : Aligned app s)
    (h : Handling s₀ s new) (event : Bool → Event) (ok : ℕ → Bool) :
    ∃ ends, (finishAll event s.transactions ok).log = s₀.transactions.log ++ (new ++ ends) ∧
      (∀ x ∈ ends, ∃ ok', x.2 = event ok') ∧
      ∀ c, events c ends = if c.databaseId ∈ List.range s.transactions.databases.length ∧
        s.transactions.databases[c.databaseId]? = some (some c) then
          [event (ok c.databaseId)] else [] := by
  obtain ⟨ends, hlog, hends, hevents⟩ := log_foldl_finish event ok List.nodup_range s.transactions
  refine ⟨ends, ?_, hends, fun c => hevents c fun i hi => ?_⟩
  · rw [finishAll, hlog, h.log, List.append_assoc]
  · exact_mod_cast ha.own i c (ha.place i c hi)

lemma unitOfWork_of_aligned (hs : Supported app) (ha : Aligned app s) {m : Message}
    (hm : Separate s m) : ∃ new, UnitOfWork app s m new := by
  obtain ⟨new, h, ha'⟩ := handling_queries hs (aligned_setTransactionEnabled ha true) rfl
    (handling_start s) hm.queries
  rw [List.nil_append] at h
  rcases hq : queries app (s.setTransactionEnabled true) m.queries with ⟨returned, s₁⟩
  rw [hq] at h ha'
  cases returned with
  | false =>
    refine ⟨new, ?_, h.inside, fun _ hreturned => ?_⟩
    · rw [← h.log, execute, hq]
    · rw [hq] at hreturned
      cases hreturned
  | true =>
    cases hending : m.ending with
    | thrown =>
      refine ⟨new, ?_, h.inside, fun hr => ?_⟩
      · rw [← h.log, execute, hq, hending]
      · rw [hending] at hr
        cases hr
    | returned rollbackRequested =>
      cases rollbackRequested with
      | false =>
        obtain ⟨ends, hlog, hends, -⟩ := log_finishAll ha' h .commit m.ok
        refine ⟨new ++ ends, ?_, fun _ _ _ _ => inside_append h.inside hends
          (fun _ _ h => (by cases h)),
          fun hr => ?_⟩
        · rw [← hlog, execute, hq, hending]
          rfl
        · rw [hending] at hr
          cases hr
      | true =>
        obtain ⟨ends, hlog, hends, hevents⟩ := log_finishAll ha' h .rollback m.ok
        refine ⟨new ++ ends, ?_, fun _ _ _ _ => inside_append h.inside hends
          (fun _ _ h => (by cases h)),
          fun _ _ hok c => undone_rollback ha h (hm.ended hending) hok c (hevents c)⟩
        rw [← hlog, execute, hq, hending]
        rfl

end

/-- **Every unit of work** runs in a transaction of its own, in any run, if it queries no database
a message before it has queried. -/
theorem unitOfWork_of_separate {app : App} (hs : Supported app) (ms : List Message) {m : Message}
    (hm : Separate (run app true (start app) ms) m) :
    ∃ new, UnitOfWork app (run app true (start app) ms) m new :=
  unitOfWork_of_aligned hs (aligned_run hs (aligned_start app) ms) hm

/-! ### Two messages -/

/-- A message with one statement. -/
def insertion (id : ℤ) (sql : String) (rollbackRequested : Bool) : Message :=
  ⟨[⟨id, some 0, sql⟩], .returned rollbackRequested, fun _ => true⟩

def twoDatabases : App := ⟨true, 2, fun _ => true⟩

/-- The message before was about the other database. -/
theorem unitOfWork_of_separate_other :
    ∃ new, UnitOfWork twoDatabases
      (run twoDatabases true (start twoDatabases)
        [insertion 1 "INSERT INTO log VALUES ('a')" false])
      (insertion 0 "INSERT INTO chat VALUES ('a')" true) new := by
  have hsupported : Supported twoDatabases := ⟨by decide, fun _ => rfl⟩
  have hended : (run twoDatabases true (start twoDatabases)
      [insertion 1 "INSERT INTO log VALUES ('a')" false]).transactions.databases =
        [none, none] := by
    decide +kernel
  refine unitOfWork_of_separate hsupported _ ⟨fun q hq => ?_, fun _ c hc => ?_⟩
  · obtain rfl := List.mem_singleton.mp hq
    decide +kernel
  · rw [hended] at hc
    simp at hc

theorem not_unitOfWork_second :
    ¬ ∀ (ms : List Message) (m : Message),
      ∃ new, UnitOfWork oneDatabase (run oneDatabase true (start oneDatabase) ms) m new := by
  intro h
  obtain ⟨new, hlog, hinside, -⟩ := h [insertion 0 "INSERT INTO chat VALUES ('a')" false]
    (insertion 0 "INSERT INTO chat VALUES ('b')" true)
  have hnew : new = [(⟨0, 0⟩, .statement "INSERT INTO chat VALUES ('b')")] := by
    refine List.append_cancel_left (hlog.symm.trans ?_)
    decide +kernel
  obtain ⟨pre, post, hpre, -⟩ := hinside [] [] _ _ hnew
  simp at hpre

end TreeFrog.WebSocketWorker
