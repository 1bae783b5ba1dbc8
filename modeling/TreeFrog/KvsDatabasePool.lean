import Mathlib.Data.List.Nodup
import TreeFrog.ConnectionPool

/-!
`TKvsDatabasePool`: each engine has connections of its own, and a connection that cannot be opened
is not given back.
-/

namespace TreeFrog.KvsDatabasePool

open TreeFrog.ConnectionPool

/-- `TKvsDatabase::Type`. -/
inductive KvsType where
  | mongoDB
  | redis
  deriving DecidableEq

def KvsType.toNat : KvsType → ℕ
  | mongoDB => 0
  | redis => 1

/-- The key of the driver of an engine. -/
def driverName : KvsType → String
  | .mongoDB => "MONGODB"
  | .redis => "REDIS"

def kvsTypeHash : List (String × KvsType) := [("MONGODB", .mongoDB), ("REDIS", .redis)]

/-- A pooled connection, with the name `kvs<type>_<index>`. -/
structure TKvsDatabase where
  type : KvsType
  index : ℕ
  deriving DecidableEq

/-- The pool, with the engines that are available. -/
def TKvsDatabasePool (isKvsAvailable : KvsType → Bool) : Pool TKvsDatabase where
  home db := db.type.toNat
  serves id := id = 0 && isKvsAvailable .mongoDB || id = 1 && isKvsAvailable .redis
  cacheOf db := (kvsTypeHash.lookup (driverName db.type)).map KvsType.toNat
  keepsFailed := false

/-- The names of an engine that `init` pushes, the last one on top. -/
def names (isKvsAvailable : KvsType → Bool) (maxConnects : ℕ) (type : KvsType) :
    List TKvsDatabase :=
  if isKvsAvailable type then (List.range maxConnects).reverse.map fun i => ⟨type, i⟩ else []

def init (isKvsAvailable : KvsType → Bool) (maxConnects : ℕ) : ℕ → List TKvsDatabase
  | 0 => names isKvsAvailable maxConnects .mongoDB
  | 1 => names isKvsAvailable maxConnects .redis
  | _ => []

variable {Caller : Type*} {isKvsAvailable : KvsType → Bool} {maxConnects : ℕ}

/-- Every connection that is to be opened is opened. -/
def Opens (s : State Caller TKvsDatabase) : Act Caller → Prop
  | .resume i isOpen => ∀ caller id n, s.calls[i]? = some (.opening caller id n) → isOpen = true
  | _ => True

lemma mem_names {type : KvsType} {db : TKvsDatabase}
    (h : db ∈ names isKvsAvailable maxConnects type) : db.type = type := by
  rw [names] at h
  split_ifs at h
  · obtain ⟨i, -, rfl⟩ := List.mem_map.mp h
    rfl
  · exact absurd h List.not_mem_nil

lemma nodup_names (type : KvsType) : (names isKvsAvailable maxConnects type).Nodup := by
  rw [names]
  split_ifs
  · exact (List.nodup_reverse.mpr List.nodup_range).map fun i j hij => (TKvsDatabase.mk.inj hij).2
  · exact List.nodup_nil

lemma created_init :
    Created (TKvsDatabasePool isKvsAvailable) (init isKvsAvailable maxConnects) where
  home
    | 0, _, h => congrArg KvsType.toNat (mem_names h)
    | 1, _, h => congrArg KvsType.toNat (mem_names h)
    | _ + 2, _, h => absurd h List.not_mem_nil
  nodup
    | 0 => nodup_names .mongoDB
    | 1 => nodup_names .redis
    | _ + 2 => List.nodup_nil

lemma inOrder_of_opens {s : State Caller TKvsDatabase} {a : Act Caller} (ha : Opens s a) :
    InOrder (TKvsDatabasePool isKvsAvailable) s a := by
  cases a with
  | pool i =>
    rintro ⟨caller, ⟨type, index⟩⟩ -
    cases type <;> rfl
  | resume i isOpen => exact fun caller id n h => .inl (ha caller id n h)
  | database _ _ => trivial
  | timer _ => trivial

/-- **No connection is lost or doubled** as long as every attempt to open one succeeds. -/
theorem conserved_of_opens {s : State Caller TKvsDatabase}
    (h : Reaches (TKvsDatabasePool isKvsAvailable) Opens (start (init isKvsAvailable maxConnects))
      s) :
    Conserved (TKvsDatabasePool isKvsAvailable) (init isKvsAvailable maxConnects) s :=
  conserved_of_reaches created_init (fun _ _ _ => inOrder_of_opens) h

/-- A connection is opened, given back and closed by the timer. -/
theorem conserved_of_opens_closed :
    ∃ s : State Unit TKvsDatabase,
      Reaches (TKvsDatabasePool fun _ => true) Opens (start (init (fun _ => true) 2)) s ∧
        s.availableNames 1 = [⟨.redis, 1⟩, ⟨.redis, 0⟩] ∧
        Conserved (TKvsDatabasePool fun _ => true) (init (fun _ => true) 2) s := by
  obtain ⟨s, h, hs⟩ : ∃ s : State Unit TKvsDatabase,
      Reaches (TKvsDatabasePool fun _ => true) Opens (start (init (fun _ => true) 2)) s ∧
        s.availableNames 1 = [⟨.redis, 1⟩, ⟨.redis, 0⟩] :=
    ⟨_, .tail (.tail (.tail (.tail (.tail (.tail (.tail .refl ⟨.database () 1, trivial, rfl⟩)
      ⟨.resume 0 true, fun _ _ _ _ => rfl, rfl⟩) ⟨.resume 0 true, fun _ _ _ _ => rfl, rfl⟩)
      ⟨.resume 0 true, fun _ _ _ _ => rfl, rfl⟩) ⟨.pool 0, trivial, rfl⟩)
      ⟨.timer 1, trivial, rfl⟩) ⟨.resume 0 true, fun _ _ _ _ => rfl, rfl⟩, rfl⟩
  exact ⟨s, h, hs, conserved_of_opens h⟩

/-- **A connection that cannot be opened** is on neither stack afterwards, and nobody has it. -/
theorem not_conserved_failed :
    ∃ s : State Unit TKvsDatabase,
      Reaches (TKvsDatabasePool fun _ => true) (fun _ _ => True) (start (init (fun _ => true) 1))
        s ∧
        s.cachedDatabase 1 = [] ∧ s.availableNames 1 = [] ∧ s.held = [] ∧
        ¬ Conserved (TKvsDatabasePool fun _ => true) (init (fun _ => true) 1) s := by
  refine ⟨_, .tail (.tail (.tail (.tail .refl ⟨.database () 1, trivial, rfl⟩)
    ⟨.resume 0 true, trivial, rfl⟩) ⟨.resume 0 true, trivial, rfl⟩)
    ⟨.resume 0 false, trivial, rfl⟩, rfl, rfl, rfl, fun h => ?_⟩
  exact absurd (h 1).1.length_eq (by decide)

end TreeFrog.KvsDatabasePool
