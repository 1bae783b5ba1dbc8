import TreeFrog.Hex
import TreeFrog.Session

/-!
Sessions kept in the cookie: the identifier is the data in hexadecimal digits, and a digest of them
with the secret of the application.
-/

namespace TreeFrog.SessionCookieStore

open Bytes Hex Session

variable {QVariantMap : Type}

/-- What the store rests on: how maps are written, the hash function, the secret, and what
`TSession::reset` leaves in a session. -/
structure TSessionCookieStore (QVariantMap : Type) where
  stream : QDataStream QVariantMap
  hash : QByteArray → QByteArray
  hash_ne_nil : ∀ b, hash b ≠ []
  secret : QByteArray
  reset : QVariantMap

namespace TSessionCookieStore

variable (c : TSessionCookieStore QVariantMap)

def UNDERSCORE : UInt8 := 95

def digest (ba : QByteArray) : QByteArray := c.hash (ba ++ c.secret)

def store [DecidableEq QVariantMap] (s : TSession QVariantMap) : Bool × TSession QVariantMap :=
  if s.data = c.stream.empty then (true, s)
  else if c.stream.saves s.data then
    let ba := c.stream.write s.data
    (true, { s with sessionId := toHex ba ++ [UNDERSCORE] ++ toHex (c.digest ba) })
  else (false, s)

/-- The payload and the digest of an identifier of two parts. -/
def parts (id : QByteArray) : Option (QByteArray × QByteArray) :=
  match id.splitOn UNDERSCORE with
  | [a, b] => if a ≠ [] ∧ b ≠ [] then some (fromHex a, fromHex b) else none
  | _ => none

def find (id : QByteArray) : TSession QVariantMap :=
  match parts id with
  | none => ⟨c.stream.empty, id⟩
  | some (ba, digest) =>
    if c.digest ba ≠ digest then ⟨c.stream.empty, id⟩
    else match c.stream.read ba with
      | some d => ⟨d, id⟩
      | none => ⟨c.reset, id⟩

/-! ### The property and the condition -/

/-- The payload has been stored: with data, and with success. -/
def Stored (history : List (TSession QVariantMap)) (ba : QByteArray) : Prop :=
  ∃ s ∈ history, s.data ≠ c.stream.empty ∧ c.stream.saves s.data = true ∧ ba = c.stream.write s.data

/-- The digest of the identifier matches. -/
def Authentic (id : QByteArray) : Prop := ∃ ba, parts id = some (ba, c.digest ba)

/-- The digest of the identifier matches for a payload that was stored only. -/
def Genuine (history : List (TSession QVariantMap)) (id : QByteArray) : Prop :=
  ∀ ba, parts id = some (ba, c.digest ba) → c.Stored history ba

/-- What is stored is found; and what was not stored is not. -/
structure Faithful [DecidableEq QVariantMap] (history : List (TSession QVariantMap))
    (s : TSession QVariantMap) : Prop where
  current : ∀ s', c.store s = (true, s') → (c.find s'.sessionId).data = s.data
  forged : ∀ id, c.Genuine history id →
    (∀ ba digest, parts id = some (ba, digest) → ¬ c.Stored history ba) →
    (c.find id).data = c.stream.empty

/-! ### Storing and finding -/

lemma underscore_not_mem_toHex (b : QByteArray) : UNDERSCORE ∉ toHex b := by
  intro h
  obtain ⟨n, hn, hx⟩ := mem_toHex h
  have hdigits : ∀ n < 16, UNDERSCORE ≠ hexDigit n := by decide
  exact hdigits n hn hx

lemma parts_join {a b : QByteArray} (ha : a ≠ []) (hb : b ≠ []) :
    parts (toHex a ++ [UNDERSCORE] ++ toHex b) = some (a, b) := by
  have hjoin : toHex a ++ [UNDERSCORE] ++ toHex b =
      [UNDERSCORE].intercalate [toHex a, toHex b] := by
    simp [List.intercalate]
  have hsplit : ([UNDERSCORE].intercalate [toHex a, toHex b]).splitOn UNDERSCORE =
      [toHex a, toHex b] :=
    List.splitOn_intercalate UNDERSCORE (by simp [underscore_not_mem_toHex]) (List.cons_ne_nil _ _)
  rw [parts, hjoin, hsplit]
  dsimp only
  rw [if_pos ⟨toHex_ne_nil ha, toHex_ne_nil hb⟩, fromHex_toHex, fromHex_toHex]

lemma find_of_not_authentic {id : QByteArray} (h : ¬ c.Authentic id) :
    (c.find id).data = c.stream.empty := by
  unfold find
  cases hp : parts id with
  | none => rfl
  | some p =>
    obtain ⟨ba, digest⟩ := p
    have hne : c.digest ba ≠ digest := by
      rintro rfl
      exact h ⟨ba, hp⟩
    dsimp only
    rw [if_pos hne]

lemma find_of_stored {id ba : QByteArray} {d : QVariantMap}
    (h : parts id = some (ba, c.digest ba)) (hread : c.stream.read ba = some d) :
    (c.find id).data = d := by
  unfold find
  rw [h]
  dsimp only
  rw [if_neg (not_not_intro rfl), hread]

variable [DecidableEq QVariantMap]

lemma find_store {s s' : TSession QVariantMap} (hne : s.data ≠ c.stream.empty)
    (h : c.store s = (true, s')) : (c.find s'.sessionId).data = s.data := by
  rw [store, if_neg hne] at h
  split_ifs at h with hsaves
  · cases h
    exact c.find_of_stored (parts_join (c.stream.write_ne_nil _) (c.hash_ne_nil _))
      (c.stream.read_write _ hsaves)
  · cases h

lemma store_empty {s : TSession QVariantMap} (h : s.data = c.stream.empty) :
    c.store s = (true, s) := if_pos h

/-- **What is stored is found and nothing else, exactly when there are data, or the identifier the
session had before is not one that matches.** -/
theorem faithful_iff {history : List (TSession QVariantMap)} {s : TSession QVariantMap}
    (hs : c.Genuine history s.sessionId) :
    c.Faithful history s ↔ s.data ≠ c.stream.empty ∨ ¬ c.Authentic s.sessionId := by
  constructor
  · intro h
    by_contra hnot
    rw [not_or, not_not, not_not] at hnot
    obtain ⟨hempty, ba, hparts⟩ := hnot
    obtain ⟨t, -, hne, hsaves, rfl⟩ := hs ba hparts
    have hold := c.find_of_stored hparts (c.stream.read_write t.data hsaves)
    have hnew := h.current s (c.store_empty hempty)
    rw [hold, hempty] at hnew
    exact hne hnew
  · intro h
    refine ⟨fun s' hstore => ?_, fun id hid hnone => ?_⟩
    · by_cases hempty : s.data = c.stream.empty
      · rw [c.store_empty hempty] at hstore
        cases hstore
        rw [hempty]
        exact c.find_of_not_authentic (h.resolve_left (not_not_intro hempty))
      · exact c.find_store hempty hstore
    · refine c.find_of_not_authentic ?_
      rintro ⟨ba, hparts⟩
      exact hnone ba _ hparts (hid ba hparts)

end TSessionCookieStore

/-! ### A store -/

/-- The digest of the sample with the secret, as SHA-1 gives it. -/
def sampleDigest : QByteArray :=
  [49, 71, 95, 98, 196, 88, 51, 179, 243, 15, 118, 130, 112, 98, 2, 216, 193, 63, 181, 153]

def sampleStore : TSessionCookieStore Sample where
  stream := sampleStream
  hash b := if b = writeSample .admin ++ ascii "secret" then sampleDigest else List.replicate 20 0
  hash_ne_nil b := by
    split_ifs
    · decide
    · decide
  secret := ascii "secret"
  reset := .none

/-- The identifier of the session of `admin`. -/
def sampleId : QByteArray := (sampleStore.store ⟨.admin, []⟩).2.sessionId

lemma genuine_sampleId : sampleStore.Genuine [⟨.admin, []⟩] sampleId := by
  intro ba hba
  have hparts : TSessionCookieStore.parts sampleId =
      some (writeSample .admin, sampleDigest) := by
    decide +kernel
  rw [hparts] at hba
  obtain ⟨rfl, -⟩ := Prod.mk.inj (Option.some.inj hba)
  exact ⟨⟨.admin, []⟩, List.mem_singleton.mpr rfl, by decide, by decide, rfl⟩

/-- The session is stored again, under the identifier it has. -/
theorem faithful_iff_admin : sampleStore.Faithful [⟨.admin, []⟩] ⟨.admin, sampleId⟩ :=
  (sampleStore.faithful_iff (s := ⟨.admin, sampleId⟩) genuine_sampleId).mpr (.inl (by decide))

/-- A session of a user who has logged out: all its data are removed. -/
theorem not_faithful_loggedOut :
    ¬ sampleStore.Faithful [⟨.admin, []⟩] ⟨.none, sampleId⟩ := by
  intro h
  have hfound := h.current _ (sampleStore.store_empty rfl)
  exact absurd hfound (by decide +kernel)

end TreeFrog.SessionCookieStore
