import Mathlib.Data.List.AList
import TreeFrog.LexicalPath
import TreeFrog.Session

/-!
Sessions kept in files: the identifier, whatever it is, is the name of the file.
-/

namespace TreeFrog.SessionFileStore

open Bytes (QByteArray ascii)
open LexicalPath Session

/-! ### The store -/

/-- The components of an absolute path. -/
abbrev Path := List Text

structure File where
  content : QByteArray
  lastModified : ℤ

abbrev FileSystem := AList fun _ : Path => File

/-- A text that names a file of a directory. -/
structure Plain (name : Text) : Prop where
  ne_nil : name ≠ []
  slash : SLASH ∉ name
  nul : 0 ∉ name
  here : name ≠ here
  up : name ≠ up

variable {QVariantMap : Type}

/-- What the store rests on: how maps are written, how texts are decoded, and the file that a path
denotes, if it denotes one that can be opened. A plain name behind the path of the directory denotes
a file of the directory. -/
structure TSessionFileStore (QVariantMap : Type) where
  stream : QDataStream QVariantMap
  fromUtf8 : QByteArray → Text
  toUtf8 : Text → QByteArray
  lifeTimeSecs : ℤ
  sessionDirPath : Text
  dir : Path
  locate : Text → Option Path
  locate_plain : ∀ name, Plain name → ∀ p ∈ locate (sessionDirPath ++ name), p = dir ++ [name]

/-- A call, and the time. -/
inductive Call (QVariantMap : Type)
  | store (now : ℤ) (session : TSession QVariantMap)
  | find (now : ℤ) (id : QByteArray)
  | remove (id : QByteArray)
  | gc (expire : ℤ)

inductive Result (QVariantMap : Type)
  | stored (res : Bool)
  | found (session : TSession QVariantMap)
  | removed (res : Bool)
  | collected (res : ℕ)

/-- What a call does: the files afterwards, what it returns, and the files that it reads, overwrites
or deletes. -/
structure Outcome (QVariantMap : Type) where
  files : FileSystem
  result : Result QVariantMap
  touched : List Path

namespace TSessionFileStore

variable (c : TSessionFileStore QVariantMap)

/-- The file of an identifier. -/
def file (id : QByteArray) : Option Path := c.locate (c.sessionDirPath ++ c.fromUtf8 id)

def store (fs : FileSystem) (now : ℤ) (s : TSession QVariantMap) : Outcome QVariantMap :=
  match c.file s.sessionId with
  | none => ⟨fs, .stored false, []⟩
  | some p => ⟨fs.insert p ⟨c.stream.write s.data, now⟩, .stored (c.stream.saves s.data), [p]⟩

/-- `TSession()`. -/
def noSession : TSession QVariantMap := ⟨c.stream.empty, []⟩

def find (fs : FileSystem) (now : ℤ) (id : QByteArray) : Outcome QVariantMap :=
  match c.file id with
  | none => ⟨fs, .found c.noSession, []⟩
  | some p =>
    match fs.lookup p with
    | none => ⟨fs, .found c.noSession, []⟩
    | some f =>
      if now - c.lifeTimeSecs ≤ f.lastModified then
        match c.stream.read f.content with
        | some d => ⟨fs, .found ⟨d, id⟩, [p]⟩
        | none => ⟨fs, .found c.noSession, [p]⟩
      else ⟨fs, .found c.noSession, []⟩

def remove (fs : FileSystem) (id : QByteArray) : Outcome QVariantMap :=
  match c.file id with
  | none => ⟨fs, .removed false, []⟩
  | some p => if p ∈ fs then ⟨fs.erase p, .removed true, [p]⟩ else ⟨fs, .removed false, []⟩

/-- The files of the directory, but for the hidden ones. -/
def entryInfoList (fs : FileSystem) : List (Path × File) :=
  (fs.entries.filter fun e =>
    e.1.dropLast = c.dir ∧ ∃ name ∈ e.1.getLast?, name.head? ≠ some DOT).map fun e => (e.1, e.2)

/-- Those that were last modified before `expire`; the source takes them in this order. -/
def gc (fs : FileSystem) (expire : ℤ) : Outcome QVariantMap :=
  let expired := ((c.entryInfoList fs).filter fun e => e.2.lastModified < expire).map Prod.fst
  ⟨expired.foldl (fun fs p => fs.erase p) fs, .collected expired.length, expired⟩

def call (fs : FileSystem) : Call QVariantMap → Outcome QVariantMap
  | .store now s => c.store fs now s
  | .find now id => c.find fs now id
  | .remove id => c.remove fs id
  | .gc expire => c.gc fs expire

end TSessionFileStore

/-! ### Runs -/

structure Record (QVariantMap : Type) where
  call : Call QVariantMap
  result : Result QVariantMap
  touched : List Path

/-- The files, and the calls so far. -/
structure World (QVariantMap : Type) where
  files : FileSystem
  log : List (Record QVariantMap)

namespace TSessionFileStore

variable (c : TSessionFileStore QVariantMap)

def step (w : World QVariantMap) (k : Call QVariantMap) : World QVariantMap :=
  ⟨(c.call w.files k).files,
    w.log ++ [⟨k, (c.call w.files k).result, (c.call w.files k).touched⟩]⟩

def run (w : World QVariantMap) (ks : List (Call QVariantMap)) : World QVariantMap :=
  ks.foldl c.step w

end TSessionFileStore

/-- What has been stored under an identifier, once a call is over. -/
def note (id : QByteArray) (last : Option QVariantMap) (r : Record QVariantMap) :
    Option QVariantMap :=
  match r.call, r.result with
  | .store _ s, .stored true => if s.sessionId = id then some s.data else last
  | .remove id', .removed true => if id' = id then none else last
  | _, _ => last

/-- The data that were stored under an identifier most recently and not removed since. -/
def lastStored (id : QByteArray) (log : List (Record QVariantMap)) : Option QVariantMap :=
  log.foldl (note id) none

namespace TSessionFileStore

variable (c : TSessionFileStore QVariantMap)

/-- A call touches files of the directory only, and finds nothing or what was stored. -/
structure Sound (before : List (Record QVariantMap)) (r : Record QVariantMap) : Prop where
  inside : ∀ p ∈ r.touched, ∃ name, p = c.dir ++ [name]
  found : ∀ now id s, r.call = .find now id → r.result = .found s →
    s.data = c.stream.empty ∨ s.sessionId = id ∧ lastStored id before = some s.data

def Isolated (log : List (Record QVariantMap)) : Prop :=
  ∀ before r behind, log = before ++ r :: behind → c.Sound before r

/-- The identifier denotes no file that can be opened, or is a plain file name in UTF-8. -/
def Named (id : QByteArray) : Prop :=
  ∀ p ∈ c.file id, Plain (c.fromUtf8 id) ∧ c.toUtf8 (c.fromUtf8 id) = id

/-- The identifier has been stored or removed. -/
def Known (id : QByteArray) (log : List (Record QVariantMap)) : Prop :=
  ∃ r ∈ log, (∃ now s, r.call = .store now s ∧ s.sessionId = id) ∨ r.call = .remove id

/-- The identifier of a call is `Named`; and what is to be found has been stored or removed before,
or there was no file of its name in the beginning that can be read as a session. -/
def Proper (initial : FileSystem) (log : List (Record QVariantMap)) : Call QVariantMap → Prop
  | .store _ s => c.Named s.sessionId
  | .find _ id => c.Named id ∧ (Known id log ∨
      ∀ p ∈ c.file id, ∀ f ∈ initial.lookup p, c.stream.read f.content = none)
  | .remove id => c.Named id
  | .gc _ => True

/-- A run of proper calls. -/
def ProperRun (initial : FileSystem) : World QVariantMap → List (Call QVariantMap) → Prop
  | _, [] => True
  | w, k :: ks => c.Proper initial w.log k ∧ ProperRun initial (c.step w k) ks

/-- The file of an identifier is the one that was stored, or was there in the beginning. -/
def InvAt (initial : FileSystem) (w : World QVariantMap) (id : QByteArray) : Prop :=
  ∀ p ∈ c.file id, ∀ f ∈ w.files.lookup p,
    (Known id w.log → ∃ d, lastStored id w.log = some d ∧ f.content = c.stream.write d) ∧
      (¬ Known id w.log → initial.lookup p = some f)

def Inv (initial : FileSystem) (w : World QVariantMap) : Prop :=
  ∀ id, c.Named id → c.InvAt initial w id

/-! ### The log -/

lemma lastStored_concat (id : QByteArray) (log : List (Record QVariantMap))
    (r : Record QVariantMap) : lastStored id (log ++ [r]) = note id (lastStored id log) r := by
  rw [lastStored, List.foldl_append]
  rfl

lemma known_concat {id : QByteArray} {log : List (Record QVariantMap)} {r : Record QVariantMap} :
    Known id (log ++ [r]) ↔ Known id log ∨
      (∃ now s, r.call = .store now s ∧ s.sessionId = id) ∨ r.call = .remove id := by
  unfold Known
  constructor
  · rintro ⟨x, hx, h⟩
    rcases List.mem_append.mp hx with hx | hx
    · exact .inl ⟨x, hx, h⟩
    · rw [List.mem_singleton.mp hx] at h
      exact .inr h
  · rintro (⟨x, hx, h⟩ | h)
    · exact ⟨x, List.mem_append_left _ hx, h⟩
    · exact ⟨r, List.mem_append_right _ (List.mem_singleton.mpr rfl), h⟩

lemma isolated_concat {log : List (Record QVariantMap)} {r : Record QVariantMap}
    (hlog : c.Isolated log) (hr : c.Sound log r) : c.Isolated (log ++ [r]) := by
  intro before x behind h
  rcases List.eq_nil_or_concat behind with rfl | ⟨behind', y, rfl⟩
  · obtain ⟨rfl, hx⟩ := List.append_inj' h rfl
    rw [← (List.cons.inj hx).1]
    exact hr
  · rw [List.concat_eq_append, ← List.cons_append, ← List.append_assoc] at h
    exact hlog before x behind' (List.append_inj' h rfl).1

/-! ### Files -/

variable {c}

lemma eq_of_named {id : QByteArray} {p : Path} (h : c.Named id) (hp : p ∈ c.file id) :
    p = c.dir ++ [c.fromUtf8 id] :=
  c.locate_plain _ (h p hp).1 p hp

lemma id_eq_of_file {id id' : QByteArray} {p : Path} (h : c.Named id) (h' : c.Named id')
    (hp : p ∈ c.file id) (hp' : p ∈ c.file id') : id = id' := by
  have heq := (eq_of_named h hp).symm.trans (eq_of_named h' hp')
  have hname : c.fromUtf8 id = c.fromUtf8 id' := by simpa using heq
  rw [← (h p hp).2, hname, (h' p hp').2]

lemma lookup_foldl_erase {fs : FileSystem} {ps : List Path} {p : Path} {f : File}
    (h : (ps.foldl (fun fs p => fs.erase p) fs).lookup p = some f) : fs.lookup p = some f := by
  induction ps generalizing fs with
  | nil => exact h
  | cons q ps ih =>
    have hrest := ih h
    by_cases hpq : p = q
    · subst hpq
      rw [AList.lookup_erase] at hrest
      cases hrest
    · rwa [AList.lookup_erase_ne hpq] at hrest

/-! ### One call -/

variable {initial : FileSystem} {w : World QVariantMap}

lemma invAt_step {id : QByteArray} {k : Call QVariantMap} (h : c.InvAt initial w id)
    (hfiles : ∀ p ∈ c.file id, ∀ f, (c.call w.files k).files.lookup p = some f →
      w.files.lookup p = some f)
    (hstore : ∀ now s, k = .store now s → s.sessionId ≠ id) (hremove : k ≠ .remove id) :
    c.InvAt initial (c.step w k) id := by
  have hknown : Known id (c.step w k).log ↔ Known id w.log := by
    refine known_concat.trans ⟨fun h => h.resolve_right ?_, .inl⟩
    rintro (⟨now, s, hk, hs⟩ | hk)
    · exact hstore now s hk hs
    · exact hremove hk
  -- no data of this identifier are stored or removed
  have hlast : lastStored id (c.step w k).log = lastStored id w.log := by
    rw [step, lastStored_concat]
    cases k with
    | store now s =>
      unfold note
      dsimp only
      split
      · next hcall _ =>
        cases hcall
        rw [if_neg (hstore _ _ rfl)]
      · next hcall _ => cases hcall
      · rfl
    | remove id' =>
      have hne : id' ≠ id := fun h => hremove (by rw [h])
      unfold note
      dsimp only
      split
      · next hcall _ => cases hcall
      · next hcall _ =>
        cases hcall
        rw [if_neg hne]
      · rfl
    | find now id' => rfl
    | gc expire => rfl
  intro p hp f hf
  rw [hknown, hlast]
  exact h p hp f (hfiles p hp f hf)

variable {fs : FileSystem} {now : ℤ} {s : TSession QVariantMap} {id : QByteArray} {p : Path}

lemma lookup_store (h : p ∈ c.file s.sessionId) :
    (c.store fs now s).files.lookup p = some ⟨c.stream.write s.data, now⟩ := by
  rw [store, Option.mem_def.mp h]
  exact AList.lookup_insert _

lemma result_store (h : p ∈ c.file s.sessionId) :
    (c.store fs now s).result = .stored (c.stream.saves s.data) := by
  rw [store, Option.mem_def.mp h]

lemma lookup_store_ne (h : p ∉ c.file s.sessionId) :
    (c.store fs now s).files.lookup p = fs.lookup p := by
  rw [store]
  cases hq : c.file s.sessionId with
  | none => rfl
  | some q =>
    have hne : p ≠ q := by
      rintro rfl
      exact h hq
    exact AList.lookup_insert_ne hne

lemma mem_file_of_store (h : p ∈ (c.store fs now s).touched) : p ∈ c.file s.sessionId := by
  rw [store] at h
  cases hq : c.file s.sessionId with
  | none =>
    rw [hq] at h
    exact absurd h List.not_mem_nil
  | some q =>
    rw [hq] at h
    exact congrArg some (List.mem_singleton.mp h).symm

lemma lookup_remove (h : p ∈ c.file id) : (c.remove fs id).files.lookup p = none := by
  rw [remove, Option.mem_def.mp h]
  dsimp only
  split_ifs with hmem
  · exact AList.lookup_erase p fs
  · exact AList.lookup_eq_none.mpr hmem

lemma lookup_remove_ne (h : p ∉ c.file id) :
    (c.remove fs id).files.lookup p = fs.lookup p := by
  rw [remove]
  cases hq : c.file id with
  | none => rfl
  | some q =>
    have hne : p ≠ q := by
      rintro rfl
      exact h hq
    dsimp only
    split_ifs
    · exact AList.lookup_erase_ne hne
    · rfl

lemma mem_file_of_remove (h : p ∈ (c.remove fs id).touched) : p ∈ c.file id := by
  rw [remove] at h
  cases hq : c.file id with
  | none =>
    rw [hq] at h
    exact absurd h List.not_mem_nil
  | some q =>
    rw [hq] at h
    dsimp only at h
    split_ifs at h
    · exact congrArg some (List.mem_singleton.mp h).symm
    · exact absurd h List.not_mem_nil

lemma files_find (fs : FileSystem) (now : ℤ) (id : QByteArray) :
    (c.find fs now id).files = fs := by
  unfold find
  split
  · rfl
  · split
    · rfl
    · split_ifs
      · split <;> rfl
      · rfl

lemma mem_file_of_find (h : p ∈ (c.find fs now id).touched) : p ∈ c.file id := by
  unfold find at h
  split at h
  · exact absurd h List.not_mem_nil
  · next q hq =>
    split at h
    · exact absurd h List.not_mem_nil
    · split_ifs at h
      · split at h <;> exact hq.trans (congrArg some (List.mem_singleton.mp h).symm)
      · exact absurd h List.not_mem_nil

lemma found_of_find (h : (c.find fs now id).result = .found s) :
    s.data = c.stream.empty ∨
      s.sessionId = id ∧ ∃ p ∈ c.file id, ∃ f, fs.lookup p = some f ∧
        c.stream.read f.content = some s.data := by
  unfold find at h
  split at h
  · cases h
    exact .inl rfl
  · next q hq =>
    split at h
    · cases h
      exact .inl rfl
    · next f hf =>
      split_ifs at h
      · split at h
        · next d hd =>
          cases h
          exact .inr ⟨rfl, q, hq, f, hf, hd⟩
        · cases h
          exact .inl rfl
      · cases h
        exact .inl rfl

/-- **The invariant** is kept by a proper call. -/
theorem inv_step (hsaves : ∀ d, c.stream.saves d = true) (hw : c.Inv initial w)
    {k : Call QVariantMap} (hk : c.Proper initial w.log k) : c.Inv initial (c.step w k) := by
  intro id hid
  have hat := hw id hid
  cases k with
  | store now s =>
    by_cases hs : s.sessionId = id
    · subst hs
      intro p hp f hf
      have hknown : Known s.sessionId (c.step w (.store now s)).log :=
        known_concat.mpr (.inr (.inl ⟨now, s, rfl, rfl⟩))
      refine ⟨fun _ => ⟨s.data, ?_, ?_⟩, fun hnot => absurd hknown hnot⟩
      · rw [step, lastStored_concat, call, result_store hp, hsaves]
        exact if_pos rfl
      · have hlookup : (c.step w (.store now s)).files.lookup p =
            some ⟨c.stream.write s.data, now⟩ := lookup_store hp
        rw [Option.mem_def, hlookup] at hf
        cases hf
        rfl
    · refine invAt_step hat (fun p hp f hf => ?_) (fun now' s' h => ?_) (fun h => by cases h)
      · -- another identifier has a file of its own
        have hother : p ∉ c.file s.sessionId := fun hq => hs (id_eq_of_file hk hid hq hp)
        rwa [call, lookup_store_ne hother] at hf
      · cases h
        exact hs
  | find now id' =>
    refine invAt_step hat (fun p _ f hf => ?_) (fun now' s' h => by cases h) (fun h => by cases h)
    rwa [call, files_find] at hf
  | remove id' =>
    by_cases hs : id' = id
    · subst hs
      intro p hp f hf
      have hgone : (c.step w (.remove id')).files.lookup p = none := lookup_remove hp
      rw [Option.mem_def, hgone] at hf
      cases hf
    · refine invAt_step hat (fun p hp f hf => ?_) (fun now' s' h => by cases h) (fun h => ?_)
      · have hother : p ∉ c.file id' := fun hq => hs (id_eq_of_file hk hid hq hp)
        rwa [call, lookup_remove_ne hother] at hf
      · cases h
        exact hs rfl
  | gc expire =>
    refine invAt_step hat (fun p _ f hf => ?_) (fun now' s' h => by cases h) (fun h => by cases h)
    exact lookup_foldl_erase hf

lemma lastStored_of_find (hsaves : ∀ d, c.stream.saves d = true) (hw : c.Inv initial w)
    (hk : c.Proper initial w.log (.find now id)) (h : (c.find w.files now id).result = .found s) :
    s.data = c.stream.empty ∨ s.sessionId = id ∧ lastStored id w.log = some s.data := by
  obtain ⟨hid, hknown⟩ := hk
  refine (found_of_find h).imp_right ?_
  rintro ⟨hs, p, hp, f, hf, hread⟩
  refine ⟨hs, ?_⟩
  have hat := hw id hid p hp f hf
  by_cases hlog : Known id w.log
  · obtain ⟨d, hlast, hcontent⟩ := hat.1 hlog
    rw [hcontent, c.stream.read_write d (hsaves d)] at hread
    rw [hlast, hread]
  · -- a file from before the run that could not be read
    have hnone := hknown.resolve_left hlog p hp f (hat.2 hlog)
    rw [hread] at hnone
    cases hnone

/-- **A proper call is sound.** -/
theorem sound_step (hsaves : ∀ d, c.stream.saves d = true) (hw : c.Inv initial w)
    {k : Call QVariantMap} (hk : c.Proper initial w.log k) :
    c.Sound w.log ⟨k, (c.call w.files k).result, (c.call w.files k).touched⟩ := by
  have hinside : ∀ id p, c.Named id → p ∈ c.file id → ∃ name, p = c.dir ++ [name] :=
    fun id p hid hp => ⟨_, eq_of_named hid hp⟩
  cases k with
  | store now s =>
    exact ⟨fun p hp => hinside _ p hk (mem_file_of_store hp), fun now' id s' h => by cases h⟩
  | find now id =>
    refine ⟨fun p hp => hinside _ p hk.1 (mem_file_of_find hp), fun now' id' s' hcall hs => ?_⟩
    cases hcall
    exact lastStored_of_find hsaves hw hk hs
  | remove id =>
    exact ⟨fun p hp => hinside _ p hk (mem_file_of_remove hp), fun now' id' s' h => by cases h⟩
  | gc expire =>
    refine ⟨fun p hp => ?_, fun now' id s' h => by cases h⟩
    obtain ⟨e, he, rfl⟩ := List.mem_map.mp hp
    obtain ⟨e', he', rfl⟩ := List.mem_map.mp (List.mem_of_mem_filter he)
    have hentry := of_decide_eq_true (List.mem_filter.mp he').2
    obtain ⟨hdir, name, hname, -⟩ := hentry
    exact ⟨name, by rw [← hdir]; exact (List.dropLast_append_getLast? name hname).symm⟩

/-! ### Runs -/

lemma isolated_run (hsaves : ∀ d, c.stream.saves d = true) {ks : List (Call QVariantMap)}
    (hw : c.Inv initial w) (hlog : c.Isolated w.log) (h : c.ProperRun initial w ks) :
    c.Isolated (c.run w ks).log := by
  induction ks generalizing w with
  | nil => exact hlog
  | cons k ks ih =>
    obtain ⟨hk, hrest⟩ := h
    exact ih (inv_step hsaves hw hk) (c.isolated_concat hlog (sound_step hsaves hw hk)) hrest

/-- **Sessions in files are isolated**: in a run of proper calls, a session that is found is empty
or is the one that was stored under its identifier most recently and not removed since, and no call
touches a file outside of the directory. -/
theorem isolated_of_proper (hsaves : ∀ d, c.stream.saves d = true) (initial : FileSystem)
    {ks : List (Call QVariantMap)} (h : c.ProperRun initial ⟨initial, []⟩ ks) :
    c.Isolated (c.run ⟨initial, []⟩ ks).log := by
  refine isolated_run hsaves ?_ ?_ h
  · intro id _ p _ f hf
    refine ⟨?_, fun _ => hf⟩
    rintro ⟨r, hr, -⟩
    exact absurd hr List.not_mem_nil
  · intro before r behind hnil
    exact absurd hnil.symm (List.append_ne_nil_of_right_ne_nil _ (List.cons_ne_nil _ _))

end TSessionFileStore

/-! ### A store -/

def sampleRoot : Text := fromAscii (ascii "/app/tmp/session")

/-- A store whose paths are resolved as they are written. -/
def sampleStore : TSessionFileStore Sample where
  stream := sampleStream
  fromUtf8 := fromAscii
  toUtf8 t := t.map UInt16.toUInt8
  lifeTimeSecs := 3600
  sessionDirPath := sampleRoot ++ [SLASH]
  dir := resolve [] (components sampleRoot)
  locate t := some (resolve [] (components t))
  locate_plain name h p hp := by
    have hlocate := resolve_name h.ne_nil h.slash h.here h.up sampleRoot
    rw [List.append_assoc, List.singleton_append, hlocate] at hp
    exact (Option.mem_some_iff.mp hp).symm

namespace TSessionFileStore

/-- A session is stored and found. -/
theorem isolated_of_proper_stored :
    sampleStore.Isolated (sampleStore.run ⟨∅, []⟩
      [.store 0 ⟨.admin, ascii "abc"⟩, .find 1 (ascii "abc")]).log := by
  have hplain : Plain (fromAscii (ascii "abc")) :=
    ⟨by decide, by decide, by decide, by decide, by decide⟩
  have hnamed : sampleStore.Named (ascii "abc") := fun _ _ => ⟨hplain, by decide⟩
  exact sampleStore.isolated_of_proper (fun _ => rfl) ∅
    ⟨hnamed, ⟨hnamed, .inl ⟨_, List.mem_singleton.mpr rfl, .inl ⟨_, _, rfl, rfl⟩⟩⟩, trivial⟩

/-- The path of a file that a user has uploaded, as an identifier. -/
theorem not_isolated_upload :
    ¬ sampleStore.Isolated (sampleStore.run
      ⟨AList.singleton (resolve [] (components (fromAscii (ascii "/app/upload/a"))))
        ⟨writeSample .admin, 0⟩, []⟩
      [.find 1 (ascii "../../upload/a")]).log := by
  intro h
  have hsound := h [] ⟨.find 1 (ascii "../../upload/a"),
    .found ⟨.admin, ascii "../../upload/a"⟩,
    [resolve [] (components (fromAscii (ascii "/app/upload/a")))]⟩ [] rfl
  rcases hsound.found _ _ _ rfl rfl with hempty | ⟨-, hlast⟩
  · cases hempty
  · cases hlast

end TSessionFileStore

end TreeFrog.SessionFileStore
