import Mathlib.Data.List.Nodup
import TreeFrog.ConnectionPool
import TreeFrog.SqlTransaction

/-!
`TSqlDatabasePool`: a connection that is given back goes to the cache of the database that its name
tells, which has two digits for it.
-/

namespace TreeFrog.SqlDatabasePool

open TreeFrog.ConnectionPool TreeFrog.SqlTransaction

/-- The pool of so many configured databases. -/
def TSqlDatabasePool (settingsCount : ℕ) : Pool Connection where
  home c := c.databaseId
  serves id := id < settingsCount
  cacheOf c :=
    let databaseId := getDatabaseId c
    if 0 ≤ databaseId ∧ databaseId < settingsCount then some databaseId.toNat else none
  keepsFailed := true

/-- The names that `init` pushes, the last one on top; `connects` tells how many for a database. -/
def init (settingsCount : ℕ) (connects : ℕ → ℕ) (id : ℕ) : List Connection :=
  if id < settingsCount then (List.range (connects id)).reverse.map fun i => ⟨id, i⟩ else []

variable {Caller : Type*} {settingsCount : ℕ} {connects : ℕ → ℕ}

/-- The connections given back are of databases with a number of two digits. -/
def TwoDigits (s : State Caller Connection) : Act Caller → Prop
  | .pool i => ∀ o, s.out[i]? = some o → o.2.databaseId < 100
  | _ => True

lemma mem_init {id : ℕ} {c : Connection} (h : c ∈ init settingsCount connects id) :
    c.databaseId = id ∧ id < settingsCount := by
  rw [init] at h
  split_ifs at h with hid
  · obtain ⟨i, -, rfl⟩ := List.mem_map.mp h
    exact ⟨rfl, hid⟩
  · exact absurd h List.not_mem_nil

lemma created_init : Created (TSqlDatabasePool settingsCount) (init settingsCount connects) where
  home _ _ h := (mem_init h).1
  nodup id := by
    rw [init]
    split_ifs
    · exact (List.nodup_reverse.mpr List.nodup_range).map fun i j hij => (Connection.mk.inj hij).2
    · exact List.nodup_nil

/-- A name with two digits leads back to its database. -/
lemma cacheOf_eq {c : Connection} (hdigits : c.databaseId < 100)
    (hcount : c.databaseId < settingsCount) :
    (TSqlDatabasePool settingsCount).cacheOf c = some c.databaseId := by
  unfold TSqlDatabasePool
  dsimp only
  rw [getDatabaseId_eq hdigits, if_pos ⟨by omega, by omega⟩, Int.toNat_natCast]

lemma inOrder_of_twoDigits {s : State Caller Connection} {a : Act Caller}
    (h : Sound (TSqlDatabasePool settingsCount) (init settingsCount connects) s)
    (ha : TwoDigits s a) : InOrder (TSqlDatabasePool settingsCount) s a := by
  cases a with
  | pool i =>
    intro o ho
    have hmem := h.created_out (List.mem_of_getElem? ho)
    exact cacheOf_eq (ha o ho) (mem_init hmem).2
  | resume i isOpen => exact fun _ _ _ _ => .inr rfl
  | database _ _ => trivial
  | timer _ => trivial

/-- **No connection is lost, doubled or misfiled** as long as those that are given back are of
databases with a number of two digits. -/
theorem conserved_of_twoDigits {s : State Caller Connection}
    (h : Reaches (TSqlDatabasePool settingsCount) TwoDigits
      (start (init settingsCount connects)) s) :
    Conserved (TSqlDatabasePool settingsCount) (init settingsCount connects) s :=
  conserved_of_reaches created_init (fun _ _ => inOrder_of_twoDigits) h

/-- A caller opens a connection and gives it back. -/
theorem conserved_of_twoDigits_back :
    ∃ s : State Unit Connection,
      Reaches (TSqlDatabasePool 2) TwoDigits (start (init 2 fun _ => 1)) s ∧
        s.cachedDatabase 1 = [⟨1, 0⟩] ∧ Conserved (TSqlDatabasePool 2) (init 2 fun _ => 1) s := by
  obtain ⟨s, h, hs⟩ : ∃ s : State Unit Connection,
      Reaches (TSqlDatabasePool 2) TwoDigits (start (init 2 fun _ => 1)) s ∧
        s.cachedDatabase 1 = [⟨1, 0⟩] := by
    refine ⟨_, .tail (.tail (.tail (.tail (.tail .refl ⟨.database () 1, trivial, rfl⟩)
      ⟨.resume 0 true, trivial, rfl⟩) ⟨.resume 0 true, trivial, rfl⟩)
      ⟨.resume 0 true, trivial, rfl⟩) ⟨.pool 0, fun o ho => ?_, rfl⟩, rfl⟩
    obtain rfl := Option.some.inj ho
    decide
  exact ⟨s, h, hs, conserved_of_twoDigits h⟩

/-- The database with the number 100 alone has a connection. -/
def hundredth (id : ℕ) : ℕ := if id = 100 then 1 else 0

/-- **A connection of the database 100** is given back to the cache of the database 10. -/
theorem not_conserved_hundred :
    ∃ s : State Unit Connection,
      Reaches (TSqlDatabasePool 101) (fun _ _ => True) (start (init 101 hundredth)) s ∧
        s.cachedDatabase 10 = [⟨100, 0⟩] ∧
        ¬ Conserved (TSqlDatabasePool 101) (init 101 hundredth) s := by
  refine ⟨_, .tail (.tail (.tail (.tail (.tail .refl ⟨.database () 100, trivial, rfl⟩)
    ⟨.resume 0 true, trivial, rfl⟩) ⟨.resume 0 true, trivial, rfl⟩)
    ⟨.resume 0 true, trivial, rfl⟩) ⟨.pool 0, trivial, rfl⟩, rfl, fun h => ?_⟩
  exact absurd (h 100).1.length_eq (by decide)

end TreeFrog.SqlDatabasePool
