import Mathlib.Data.List.Basic
import Mathlib.Algebra.Order.Ring.Int

/-!
`TSqlTransaction`: the table of the connections on which a transaction was begun, one place for
each database, and what is issued on the connections, in order.
-/

namespace TreeFrog.SqlTransaction

/-- A pooled connection, the `index`-th of its database. -/
structure Connection where
  databaseId : ℕ
  index : ℕ
  deriving DecidableEq

inductive Event where
  | begin (ok : Bool)
  | commit (ok : Bool)
  | rollback (ok : Bool)
  | statement (sql : String)
  deriving DecidableEq

abbrev Log := List (Connection × Event)

/-- The name by the format `rdb%02d_%d`. -/
def connectionName (c : Connection) : List Char :=
  let digits := Nat.toDigits 10 c.databaseId
  ['r', 'd', 'b'] ++ (if c.databaseId < 10 then '0' :: digits else digits) ++
    '_' :: Nat.toDigits 10 c.index

/-- `TSqlDatabasePool::getDatabaseId`: the two characters behind `rdb` as a number. -/
def getDatabaseId (c : Connection) : ℤ :=
  let text := ((connectionName c).drop 3).take 2
  if text.all Char.isDigit then text.foldl (fun n d => 10 * n + (d.toNat - 48 : ℕ)) 0 else -1

/-- A number by the format `%02d`. -/
def twoDigits (j : ℕ) : List Char :=
  if j < 10 then '0' :: Nat.toDigits 10 j else Nat.toDigits 10 j

lemma twoDigits_spec : ∀ j < 100, (twoDigits j).length = 2 ∧
    (twoDigits j).all Char.isDigit = true ∧
    (twoDigits j).foldl (fun (n : ℤ) d => 10 * n + (d.toNat - 48 : ℕ)) 0 = j := by
  decide +kernel

lemma getDatabaseId_eq {c : Connection} (h : c.databaseId < 100) :
    getDatabaseId c = c.databaseId := by
  obtain ⟨hlength, hdigits, hvalue⟩ := twoDigits_spec c.databaseId h
  have htext : ((connectionName c).drop 3).take 2 = twoDigits c.databaseId := by
    change (twoDigits c.databaseId ++ '_' :: Nat.toDigits 10 c.index).take 2 = _
    rw [← hlength, List.take_left]
  rw [getDatabaseId]
  simp only [htext, hdigits, hvalue, if_true]

structure TSqlTransaction where
  enabled : Bool
  /-- An invalid database object is `none`. -/
  databases : List (Option Connection)
  log : Log

namespace TSqlTransaction

/-- `begin`; `ok` is what `transaction()` returns. -/
def begin (t : TSqlTransaction) (database : Option Connection) (ok : Bool) :
    Bool × TSqlTransaction :=
  match database with
  | none => (false, t)
  | some c =>
    if !t.enabled then (true, t)
    else
      let id := getDatabaseId c
      if id < 0 ∨ t.databases.length ≤ id then (false, t)
      else if (t.databases[id.toNat]?.join).isSome then (true, t)
      else (true, { t with
        databases := t.databases.set id.toNat (some c)
        log := t.log ++ [(c, .begin ok)] })

/-- `commit` and `rollback` of one database: whatever comes of it, the place is free then. -/
def finish (event : Bool → Event) (t : TSqlTransaction) (id : ℤ) (ok : Bool) :
    Bool × TSqlTransaction :=
  if id < 0 then (false, t)
  else
    match t.databases[id.toNat]?.join with
    | none => (false, t)
    | some c => (ok, { t with
        databases := t.databases.set id.toNat none
        log := t.log ++ [(c, event ok)] })

def commit (t : TSqlTransaction) (id : ℤ) (ok : Bool) : Bool × TSqlTransaction :=
  finish .commit t id ok

def rollback (t : TSqlTransaction) (id : ℤ) (ok : Bool) : Bool × TSqlTransaction :=
  finish .rollback t id ok

/-- The loop over the places; `ok` tells the outcome at each of them. -/
def finishAll (event : Bool → Event) (t : TSqlTransaction) (ok : ℕ → Bool) : TSqlTransaction :=
  (List.range t.databases.length).foldl (fun t (i : ℕ) => (finish event t i (ok i)).2) t

def commitAll (t : TSqlTransaction) (ok : ℕ → Bool) : TSqlTransaction := finishAll .commit t ok

def rollbackAll (t : TSqlTransaction) (ok : ℕ → Bool) : TSqlTransaction := finishAll .rollback t ok

end TSqlTransaction

/-! ### What has been issued -/

/-- Behind every successful begin on the connection there is a rollback or a successful
commit. -/
def Settled (c : Connection) (log : Log) : Prop :=
  ∀ pre post, log = pre ++ (c, .begin true) :: post →
    (c, .commit true) ∈ post ∨ ∃ ok, (c, .rollback ok) ∈ post

lemma settled_nil (c : Connection) : Settled c [] := by
  rintro pre post h
  simp at h

lemma settled_append {c : Connection} {log new : Log} (h : Settled c log)
    (hnew : (c, .begin true) ∉ new) : Settled c (log ++ new) := by
  intro pre post hsplit
  rcases List.append_eq_append_iff.mp hsplit with ⟨t, rfl, ht⟩ | ⟨t, rfl, ht⟩
  · exact absurd (by rw [ht]; simp) hnew
  · cases t with
    | nil => exact absurd (by rw [← List.nil_append new, ← ht]; simp) hnew
    | cons x t =>
      obtain ⟨rfl, rfl⟩ := List.cons.inj ht
      rcases h pre t rfl with hc | ⟨ok, hr⟩
      · exact .inl (List.mem_append_left _ hc)
      · exact .inr ⟨ok, List.mem_append_left _ hr⟩

lemma settled_of_last {c : Connection} {log : Log} {e : Event}
    (he : e = .commit true ∨ ∃ ok, e = .rollback ok) : Settled c (log ++ [(c, e)]) := by
  intro pre post hsplit
  have hmem : (c, e) ∈ post := by
    rcases List.append_eq_append_iff.mp hsplit with ⟨t, rfl, ht⟩ | ⟨t, -, ht⟩
    · rcases t with _ | ⟨x, t⟩
      · obtain ⟨heq, -⟩ := List.cons.inj ht
        have hbegin := congrArg Prod.snd heq
        rcases he with rfl | ⟨ok, rfl⟩ <;> cases hbegin
      · obtain ⟨-, hnil⟩ := List.cons.inj ht
        simp at hnil
    · rcases t with _ | ⟨x, t⟩
      · obtain ⟨heq, -⟩ := List.cons.inj ht
        have hbegin := congrArg Prod.snd heq
        rcases he with rfl | ⟨ok, rfl⟩ <;> cases hbegin
      · obtain ⟨-, rfl⟩ := List.cons.inj ht
        simp
  rcases he with rfl | ⟨ok, rfl⟩
  · exact .inl hmem
  · exact .inr ⟨ok, hmem⟩

/-! ### Where the open transactions are -/

namespace TSqlTransaction

variable {t : TSqlTransaction} {event : Bool → Event} {id : ℤ} {ok : Bool}

/-- Every connection is settled or has a place in the table. -/
def Covered (t : TSqlTransaction) : Prop := ∀ c, Settled c t.log ∨ some c ∈ t.databases

lemma finish_cases (event : Bool → Event) (t : TSqlTransaction) (id : ℤ) (ok : Bool) :
    (finish event t id ok).2 = t ∨ ∃ (i : ℕ) (c : Connection), id = i ∧
      t.databases[i]? = some (some c) ∧ (finish event t id ok).2 =
        { t with databases := t.databases.set i none, log := t.log ++ [(c, event ok)] } := by
  unfold finish
  split
  · exact .inl rfl
  · rename_i hid
    cases hget : t.databases[id.toNat]?.join with
    | none => exact .inl rfl
    | some c =>
      refine .inr ⟨id.toNat, c, by omega, ?_, rfl⟩
      simpa [Option.join_eq_some_iff] using hget

lemma finish_natCast (event : Bool → Event) (t : TSqlTransaction) (i : ℕ) (ok : Bool) :
    (finish event t i ok).2 =
      match t.databases[i]?.join with
      | none => t
      | some c => { t with
          databases := t.databases.set i none, log := t.log ++ [(c, event ok)] } := by
  unfold finish
  rw [if_neg (by omega), Int.toNat_natCast]
  cases t.databases[i]?.join <;> rfl

lemma getElem?_finish (event : Bool → Event) (t : TSqlTransaction) (i j : ℕ) (ok : Bool)
    (c : Connection) (h : (finish event t i ok).2.databases[j]? = some (some c)) :
    j ≠ i ∧ t.databases[j]? = some (some c) := by
  rw [finish_natCast] at h
  cases hget : t.databases[i]?.join with
  | none =>
    simp only [hget] at h
    refine ⟨?_, h⟩
    rintro rfl
    rw [h] at hget
    cases hget
  | some d =>
    simp only [hget, List.getElem?_set] at h
    split at h
    · split at h <;> cases h
    · rename_i hne
      exact ⟨Ne.symm hne, h⟩

lemma settled_finish (hevent : ∀ ok, event ok ≠ .begin true) {c : Connection}
    (h : Settled c t.log) : Settled c (finish event t id ok).2.log := by
  rcases finish_cases event t id ok with heq | ⟨i, d, -, -, heq⟩
  · rw [heq]
    exact h
  · rw [heq]
    refine settled_append h ?_
    rw [List.mem_singleton]
    exact fun hbegin => hevent ok (congrArg Prod.snd hbegin).symm

/-- **One place**: if the event ends the transaction, or there is none to end, every connection is
settled or has a place still. -/
lemma covered_finish (hevent : ∀ ok, event ok ≠ .begin true) (h : Covered t)
    (hends : ∀ (i : ℕ) (c : Connection), id = i → t.databases[i]? = some (some c) →
      ¬ Settled c t.log → event ok = .commit true ∨ ∃ ok', event ok = .rollback ok') :
    Covered (finish event t id ok).2 := by
  rcases finish_cases event t id ok with heq | ⟨i, d, hid, hget, heq⟩
  · rw [heq]
    exact h
  · intro c
    by_cases hc : Settled c t.log
    · exact .inl (settled_finish hevent hc)
    · rw [heq]
      by_cases hcd : c = d
      · subst hcd
        exact .inl (settled_of_last (hends i c hid hget hc))
      · right
        obtain ⟨j, hj⟩ := List.mem_iff_getElem?.mp ((h c).resolve_left hc)
        refine List.mem_iff_getElem?.mpr ⟨j, ?_⟩
        rw [List.getElem?_set_ne, hj]
        rintro rfl
        rw [hget] at hj
        exact hcd (Option.some.inj (Option.some.inj hj)).symm

lemma covered_foldl_finish (hevent : ∀ ok, event ok ≠ .begin true) (ok : ℕ → Bool) (is : List ℕ)
    (h : Covered t)
    (hends : ∀ (i : ℕ) (c : Connection), t.databases[i]? = some (some c) → ¬ Settled c t.log →
      event (ok i) = .commit true ∨ ∃ ok', event (ok i) = .rollback ok') :
    Covered (is.foldl (fun t (i : ℕ) => (finish event t i (ok i)).2) t) := by
  induction is generalizing t with
  | nil => exact h
  | cons i is ih =>
    refine ih (covered_finish hevent h fun j c hj hget hc => ?_) fun j c hget hc => ?_
    · obtain rfl : i = j := by exact_mod_cast hj
      exact hends i c hget hc
    · exact hends j c (getElem?_finish event t i j (ok i) c hget).2
        fun hsettled => hc (settled_finish hevent hsettled)

lemma free_foldl_finish (ok : ℕ → Bool) (is : List ℕ) {j : ℕ} {c : Connection}
    (h : (is.foldl (fun t (i : ℕ) => (finish event t i (ok i)).2) t).databases[j]? =
      some (some c)) : j ∉ is ∧ t.databases[j]? = some (some c) := by
  induction is generalizing t with
  | nil => exact ⟨by simp, h⟩
  | cons i is ih =>
    obtain ⟨hj, hget⟩ := ih h
    obtain ⟨hne, hget'⟩ := getElem?_finish event t i j (ok i) c hget
    exact ⟨by simp [hne, hj], hget'⟩

lemma free_finishAll (ok : ℕ → Bool) (c : Connection) :
    some c ∉ (finishAll event t ok).databases := by
  intro hmem
  obtain ⟨j, hj⟩ := List.mem_iff_getElem?.mp hmem
  obtain ⟨hnot, hget⟩ := free_foldl_finish ok _ hj
  obtain ⟨hlt, -⟩ := List.getElem?_eq_some_iff.mp hget
  exact hnot (List.mem_range.mpr hlt)

lemma covered_begin (h : Covered t) (database : Option Connection) (ok : Bool) :
    Covered (begin t database ok).2 := by
  unfold begin
  split
  · exact h
  · split
    · exact h
    · dsimp only
      split
      · exact h
      · rename_i c _ hrange
        split
        · exact h
        · rename_i hfree
          intro d
          have hlt : (getDatabaseId c).toNat < t.databases.length := by omega
          by_cases hd : d = c
          · subst hd
            exact .inr (List.mem_iff_getElem?.mpr ⟨_, List.getElem?_set_self hlt⟩)
          · rcases h d with hs | hmem
            · refine .inl (settled_append hs ?_)
              rw [List.mem_singleton]
              exact fun heq => hd (congrArg Prod.fst heq)
            · right
              obtain ⟨j, hj⟩ := List.mem_iff_getElem?.mp hmem
              refine List.mem_iff_getElem?.mpr ⟨j, ?_⟩
              rw [List.getElem?_set_ne, hj]
              rintro rfl
              rw [hj] at hfree
              exact hfree rfl

end TSqlTransaction

end TreeFrog.SqlTransaction
