import TreeFrog.SqlUpdate

/-!
Clients that load, change, update and remove one row, in any order, each statement being
atomic. A client that updates only what it has loaded, or updated successfully, since its last
failure loses no update; one that updates again after a failure can.
-/

namespace TreeFrog.OptimisticLock

open MetaObject SqlRecord SqlObject SqlUpdate

/-! ### The system -/

/-- A client: its object, the version of the row the object is made from, the properties changed
since the last load, and whether an update has failed since then. -/
structure Client (V : Type) where
  object : TSqlObject V
  base : ℕ
  changed : List String
  failed : Bool

/-- The row, the number of times it was written, and the clients. -/
structure State (ι V : Type) where
  row : Option (QSqlRecord V)
  version : ℕ
  client : ι → Client V

/-- What a client does. A `failure` is an error of the driver, before anything is executed. -/
inductive Action (ι V : Type) where
  | load (c : ι)
  | change (c : ι) (name : String) (v : V)
  | update (c : ι) (now user : V) (failure : Option String)
  | remove (c : ι) (del : String) (failure : Option String)

variable {ι V : Type} [DecidableEq ι]

def State.setClient (s : State ι V) (c : ι) (client : Client V) : State ι V :=
  { s with client := Function.update s.client c client }

@[simp] lemma client_setClient_self (s : State ι V) (c : ι) (client : Client V) :
    (s.setClient c client).client c = client := Function.update_self ..

lemma client_setClient_of_ne (s : State ι V) {c d : ι} (h : d ≠ c) (client : Client V) :
    (s.setClient c client).client d = s.client d := Function.update_of_ne h ..

@[simp] lemma row_setClient (s : State ι V) (c : ι) (client : Client V) :
    (s.setClient c client).row = s.row := rfl

@[simp] lemma version_setClient (s : State ι V) (c : ι) (client : Client V) :
    (s.setClient c client).version = s.version := rfl

variable [Variant V] [DecidableEq V]

/-- Whether a statement with these conditions is executed and affects the row. -/
def hits (row : Option (QSqlRecord V)) (failure : Option String)
    (conditions : List (String × Literal V)) : Bool :=
  failure.isNone && row.any (selects conditions)

/-- The number of rows affected, or the error. -/
def affected (row : Option (QSqlRecord V)) (failure : Option String)
    (conditions : List (String × Literal V)) : Except String ℤ :=
  match failure with
  | some e => .error e
  | none => .ok (if row.any (selects conditions) then 1 else 0)

namespace State

def load (cls : SqlClass) (s : State ι V) (c : ι) : State ι V :=
  s.setClient c ⟨setRecord cls (s.client c).object (s.row.getD []) "", s.version, [], false⟩

def change (s : State ι V) (c : ι) (name : String) (v : V) : State ι V :=
  let client := s.client c
  s.setClient c { client with
    object := { client.object with property := setProperty client.object.property name v }
    changed := name :: client.changed }

def update (cls : SqlClass) (s : State ι V) (c : ι) (now user : V) (failure : Option String) :
    Outcome × State ι V :=
  let client := s.client c
  let result := SqlObject.update cls now user (fun u => affected s.row failure u.conditions)
    client.object
  let failed := client.failed || result.1 ≠ .returned true
  match result.2.2.filter fun u => hits s.row failure u.conditions with
  | none => (result.1, s.setClient c { client with object := result.2.1, failed })
  | some u =>
    (result.1, State.setClient ⟨s.row.map u.apply, s.version + 1, s.client⟩ c
      { client with object := result.2.1, base := s.version + 1, failed })

def remove (cls : SqlClass) (s : State ι V) (c : ι) (del : String) (failure : Option String) :
    Outcome × State ι V :=
  let client := s.client c
  let result := SqlObject.remove cls del (fun d => affected s.row failure d.conditions)
    client.object
  match result.2.2.filter fun d => hits s.row failure d.conditions with
  | none => (result.1, s.setClient c { client with object := result.2.1 })
  | some _ =>
    (result.1, State.setClient ⟨none, s.version + 1, s.client⟩ c
      { client with object := result.2.1 })

def step (cls : SqlClass) (s : State ι V) : Action ι V → State ι V
  | .load c => s.load cls c
  | .change c name v => s.change c name v
  | .update c now user failure => (s.update cls c now user failure).2
  | .remove c del failure => (s.remove cls c del failure).2

def run (cls : SqlClass) (s : State ι V) (as : List (Action ι V)) : State ι V :=
  as.foldl (step cls) s

end State

/-! ### The condition -/

/-- A property for a column that `update` neither stamps nor restores. -/
structure Ordinary (cls : SqlClass) (n : String) : Prop where
  mem : n ∈ names cls
  column : n ∈ cls.columns
  not_stamped : isStamped n = false
  not_key : ¬ IsKey cls n

/-- The steps without the defect: only ordinary properties are changed, and an object whose
update has failed is loaded before it is updated again; the next revision is an `int`. -/
def Tame (cls : SqlClass) (lock : String) (s : State ι V) : Action ι V → Prop
  | .load _ => True
  | .change _ name _ => Ordinary cls name
  | .update c _ _ _ => (s.client c).failed = false ∧
    ∀ old, Variant.toInt ((s.client c).object.property lock) = some old → old + 1 < 2 ^ 31
  | .remove _ _ _ => True

/-- A run each step of which is one of these. -/
def TameRun (cls : SqlClass) (lock : String) : State ι V → List (Action ι V) → Prop
  | _, [] => True
  | s, a :: as => Tame cls lock s a ∧ TameRun cls lock (s.step cls a) as

/-! ### The invariant -/

def revision (lock : String) (row : Option (QSqlRecord V)) : Option ℤ :=
  (row.bind fun r => r.value lock).bind Variant.toInt

/-- The row there is at the start; no client has loaded it. -/
structure Initial (cls : SqlClass) (s : State ι V) : Prop where
  row : ∀ r, s.row = some r → r.map Prod.fst = cls.columns
  version : s.version = 0
  record : ∀ c, (s.client c).object.record = []
  changed : ∀ c, (s.client c).changed = []

/-- The object of a client is one of the version `base`, and changed since. -/
structure Tracks (cls : SqlClass) (lock : String) (init : Option ℤ) (s : State ι V)
    (client : Client V) : Prop where
  fields : client.object.record.map Prod.fst = cls.columns
  shown : client.object.record.value lock = some (client.object.property lock)
  revision : Variant.toInt (client.object.property lock) = init.map (· + (client.base : ℤ))
  le : client.base ≤ s.version
  current : client.base = s.version → ∃ r, s.row = some r ∧
    ∀ n ∈ names cls, n ∈ cls.columns → r.value n = client.object.record.value n

/-- The revision of the row counts its versions up from `init`, and a client that has not failed
has an object of the version it is said to have. -/
structure Inv (cls : SqlClass) (lock : String) (init : Option ℤ) (s : State ι V) : Prop where
  fields : ∀ r, s.row = some r → r.map Prod.fst = cls.columns
  revision : s.row.isSome = true → revision lock s.row = init.map (· + (s.version : ℤ))
  client : ∀ c, (s.client c).failed = false →
    (s.client c).object.record = [] ∨ Tracks cls lock init s (s.client c)
  changed : ∀ c, ∀ n ∈ (s.client c).changed, Ordinary cls n

/-! ### One update -/

/-- What the property says of one update. -/
structure Lossless (cls : SqlClass) (lock : String) (s : State ι V) (c : ι) (now user : V)
    (failure : Option String) : Prop where
  /-- A success is computed from the current row, and leaves in it what the client changed. -/
  success : (s.update cls c now user failure).1 = .returned true →
    (s.client c).base = s.version ∧ ∃ row row' k,
      s.row = some row ∧ (s.update cls c now user failure).2.row = some row' ∧
      (∀ n ∈ (s.client c).changed, row'.value n = some ((s.client c).object.property n)) ∧
      revision lock (some row) = some k ∧ revision lock (some row') = some (k + 1)
  /-- Everything else leaves the row alone. -/
  refused : (s.update cls c now user failure).1 ≠ .returned true →
    (s.update cls c now user failure).2.row = s.row
  /-- An overwritten version is refused. -/
  stale : (s.client c).base ≠ s.version → (s.update cls c now user failure).1 ≠ .returned true

section
variable {cls : SqlClass} {lock : String} {init : Option ℤ} {s : State ι V} {c : ι}

/-- An update that did not write, with its outcome and the state after it. -/
structure Refused (s : State ι V) (c : ι) (outcome : Outcome) (s' : State ι V) : Prop where
  not_success : outcome ≠ .returned true
  row : s'.row = s.row
  version : s'.version = s.version
  other : ∀ d ≠ c, s'.client d = s.client d
  failed : (s'.client c).failed = true
  changed : (s'.client c).changed = (s.client c).changed

/-- An update that wrote the row. -/
structure Wrote (cls : SqlClass) (lock : String) (s : State ι V) (c : ι) (outcome : Outcome)
    (s' : State ι V) : Prop where
  success : outcome = .returned true
  written : ∃ old after statement row, Executes cls lock old (s.client c).object after statement ∧
    s.row = some row ∧ selects statement.conditions row = true ∧
    s'.row = some (statement.apply row) ∧
    (s'.client c).object = { after with sqlError := "" }
  version : s'.version = s.version + 1
  other : ∀ d ≠ c, s'.client d = s.client d
  base : (s'.client c).base = s.version + 1
  changed : (s'.client c).changed = (s.client c).changed

lemma refused_of_update {now user : V} {failure : Option String} {outcome : Outcome}
    {o : TSqlObject V} {statement : Option (UpdateStatement V)}
    (hupdate : SqlObject.update cls now user (fun u => affected s.row failure u.conditions)
      (s.client c).object = (outcome, o, statement))
    (hne : outcome ≠ .returned true)
    (hmiss : ∀ u ∈ statement, hits s.row failure u.conditions = false) :
    Refused s c (s.update cls c now user failure).1 (s.update cls c now user failure).2 := by
  have hnone : (statement.filter fun u => hits s.row failure u.conditions) = none := by
    rw [Option.filter_eq_none_iff]
    intro u hu
    simp [hmiss u hu]
  simp only [State.update, hupdate, hnone]
  exact ⟨hne, rfl, rfl, fun d hd => client_setClient_of_ne s hd _, by simp [hne], by simp⟩

lemma refused_of_isNew (hrecord : (s.client c).object.record = []) (now user : V)
    (failure : Option String) :
    Refused s c (s.update cls c now user failure).1 (s.update cls c now user failure).2 := by
  have hnew : isNew (s.client c).object = true := by simp [isNew, hrecord]
  have hupdate : SqlObject.update cls now user (fun u => affected s.row failure u.conditions)
      (s.client c).object =
      (.returned false, { (s.client c).object with sqlError := "No record to update" }, none) := by
    rw [SqlObject.update, if_pos hnew]
  exact refused_of_update hupdate (by simp) (by simp)

/-- **An update** of an object whose record shows its revision writes the row or is refused. -/
lemma update_cases (hm : Mapped cls lock) (haligned : KeysAligned cls)
    (ht : Tracks cls lock init s (s.client c)) {now user : V} {failure : Option String}
    (htame : Tame cls lock s (.update c now user failure)) :
    Refused s c (s.update cls c now user failure).1 (s.update cls c now user failure).2 ∨
      Wrote cls lock s c (s.update cls c now user failure).1
        (s.update cls c now user failure).2 := by
  rcases update_executes hm haligned ht.fields ht.shown htame.2 now user
    (fun u => affected s.row failure u.conditions) with
    ⟨o', hupdate⟩ | ⟨old, after, statement, hexecutes, hupdate⟩
  · exact .inl (refused_of_update hupdate (by simp) (by simp))
  · cases failure with
    | some e =>
      simp only [affected] at hupdate
      -- the statement has failed
      exact .inl (refused_of_update hupdate (by simp) (by simp [hits]))
    | none =>
      cases hselects : s.row.any (selects statement.conditions) with
      | false =>
        have haffected : affected s.row none statement.conditions = .ok 0 := by
          simp [affected, hselects]
        simp only [haffected] at hupdate
        rw [if_pos (by decide)] at hupdate
        exact .inl (refused_of_update hupdate (by simp) (by simp [hits, hselects]))
      | true =>
        -- the statement selects the row, and writes it
        have haffected : affected s.row none statement.conditions = .ok 1 := by
          simp [affected, hselects]
        simp only [haffected] at hupdate
        rw [if_neg (by decide)] at hupdate
        obtain ⟨row, hrow, hsel⟩ : ∃ row, s.row = some row ∧
            selects statement.conditions row = true := by
          simpa [Option.any_eq_true] using hselects
        have hfilter : ((some statement).filter fun u => hits s.row none u.conditions) =
            some statement := by
          simp [hits, hselects]
        right
        simp only [State.update, hupdate, hfilter]
        exact ⟨rfl, ⟨old, after, statement, row, hexecutes, hrow, hsel, by simp [hrow], by simp⟩,
          rfl, fun d hd => client_setClient_of_ne _ hd _, by simp, by simp⟩

omit [DecidableEq ι] [DecidableEq V] in
lemma base_eq_of_selects (hinv : Inv cls lock init s) (ht : Tracks cls lock init s (s.client c))
    {old : ℤ} {row : QSqlRecord V} (hrow : s.row = some row)
    (hold : Variant.toInt ((s.client c).object.property lock) = some old)
    (hselected : ∃ v, row.value lock = some v ∧ Variant.toInt v = some old) :
    (s.client c).base = s.version ∧ revision lock (some row) = some old := by
  obtain ⟨v, hv, hint⟩ := hselected
  have hrevision : revision lock (some row) = some old := by simp [revision, hv, hint]
  have h1 := hinv.revision (by rw [hrow]; rfl)
  rw [hrow, hrevision] at h1
  have h2 := ht.revision
  rw [hold, h1] at h2
  refine ⟨?_, hrevision⟩
  cases init with
  | none => cases h1
  | some k =>
    have hsum : k + (s.version : ℤ) = k + ((s.client c).base : ℤ) := Option.some.inj h2
    omega

lemma lossless_of_inv (hm : Mapped cls lock) (haligned : KeysAligned cls)
    (hinv : Inv cls lock init s) {now user : V} {failure : Option String}
    (htame : Tame cls lock s (.update c now user failure)) :
    Lossless cls lock s c now user failure := by
  have hrefused : Refused s c (s.update cls c now user failure).1
      (s.update cls c now user failure).2 → Lossless cls lock s c now user failure :=
    fun h => ⟨fun hs => absurd hs h.not_success, fun _ => h.row, fun _ => h.not_success⟩
  rcases hinv.client c htame.1 with hnew | ht
  · exact hrefused (refused_of_isNew hnew now user failure)
  rcases update_cases hm haligned ht htame with h | h
  · exact hrefused h
  obtain ⟨old, after, statement, row, hexecutes, hrow, hselects, hrow', -⟩ := h.written
  obtain ⟨hbase, hold⟩ := base_eq_of_selects hinv ht hrow hexecutes.before
    (hexecutes.revision row hselects)
  have hagree : ∀ n ∈ names cls, n ∈ cls.columns →
      row.value n = (s.client c).object.record.value n := by
    obtain ⟨r, hr, hagree⟩ := ht.current hbase
    obtain rfl : row = r := Option.some.inj (hrow.symm.trans hr)
    exact hagree
  have hnew := hexecutes.row row hagree
  refine ⟨fun _ => ⟨hbase, row, _, old, hrow, hrow', fun n hn => ?_, hold, ?_⟩,
    fun hne => absurd h.success hne, fun hne => absurd hbase hne⟩
  · have hord := hinv.changed c n hn
    rw [hnew n hord.mem hord.column, hexecutes.kept n hord.not_stamped hord.not_key]
  · have hlt := htame.2 old hexecutes.before
    have hpos := hexecutes.pos
    simp only [revision, Option.bind_some, hnew lock hm.lock_mem hm.lock_column, hexecutes.lock]
    exact Variant.toInt_ofInt _ (by omega) hlt

/-! ### The steps keep the invariant -/

omit [DecidableEq ι] [DecidableEq V] in
lemma Tracks.mono {s' : State ι V} {client client' : Client V}
    (h : Tracks cls lock init s client) (hrecord : client'.object.record = client.object.record)
    (hproperty : client'.object.property lock = client.object.property lock)
    (hbase : client'.base = client.base)
    (hstate : s'.row = s.row ∧ s'.version = s.version ∨ s.version < s'.version) :
    Tracks cls lock init s' client' := by
  have hle := h.le
  refine ⟨by rw [hrecord]; exact h.fields, by rw [hrecord, hproperty]; exact h.shown,
    by rw [hproperty, hbase]; exact h.revision, by omega, fun heq => ?_⟩
  rcases hstate with ⟨hrow, hversion⟩ | hlt
  · rw [hrow, hrecord]
    exact h.current (by omega)
  · omega

omit [Variant V] [DecidableEq V] in
lemma foldl_setProperty (g : String → V) {n : String} (hn : n ∈ names cls) (fs : QSqlRecord V)
    (p : String → V) :
    fs.foldl (fun p f => if f.1 ∈ cls.ownProperties.map QMetaProperty.name then
      setProperty p f.1 (g f.1) else p) p n = if n ∈ fs.map Prod.fst then g n else p n := by
  induction fs generalizing p with
  | nil => simp
  | cons f fs ih =>
    rw [List.foldl_cons, ih]
    by_cases hlater : n ∈ fs.map Prod.fst
    · have hany : n ∈ (f :: fs).map Prod.fst := List.mem_cons_of_mem _ hlater
      rw [if_pos hlater, if_pos hany]
    · rw [if_neg hlater]
      by_cases hf : f.1 = n
      · subst hf
        have hown : f.1 ∈ cls.ownProperties.map QMetaProperty.name := hn
        have hany : f.1 ∈ (f :: fs).map Prod.fst := List.mem_cons_self
        rw [if_pos hown, if_pos hany, setProperty, Function.update_self]
      · have hnone : n ∉ (f :: fs).map Prod.fst := by
          rw [List.map_cons, List.mem_cons, not_or]
          exact ⟨Ne.symm hf, hlater⟩
        rw [if_neg hnone]
        split
        · rw [setProperty, Function.update_of_ne (Ne.symm hf)]
        · rfl

omit [DecidableEq V] in
lemma property_syncToObject (o : TSqlObject V) {n : String} (hn : n ∈ names cls)
    (hcolumn : n ∈ o.record.map Prod.fst) :
    (syncToObject cls o).property n = (o.record.value n).getD Variant.null :=
  (foldl_setProperty (fun m => (o.record.value m).getD Variant.null) hn o.record
    o.property).trans (if_pos hcolumn)

omit [DecidableEq V] in
lemma inv_load (hm : Mapped cls lock) (hinv : Inv cls lock init s) :
    Inv cls lock init (s.load cls c) := by
  refine ⟨hinv.fields, hinv.revision, fun d => ?_, fun d n hn => ?_⟩
  · by_cases hd : d = c
    · subst hd
      intro _
      simp only [State.load, client_setClient_self]
      cases hrow : s.row with
      | none => exact .inl rfl
      | some r =>
        right
        have hfields := hinv.fields r hrow
        obtain ⟨v, hv⟩ := QSqlRecord.exists_value hfields hm.lock_column
        have hproperty : (setRecord cls (s.client d).object r "").property lock = v := by
          have hmem : lock ∈ r.map Prod.fst := by rw [hfields]; exact hm.lock_column
          have h := property_syncToObject { (s.client d).object with record := r } hm.lock_mem hmem
          rw [hv] at h
          exact h
        have hrevision := hinv.revision (by rw [hrow]; rfl)
        simp only [hrow, revision, Option.bind_some, hv] at hrevision
        refine ⟨hfields, ?_, ?_, le_refl _, fun _ => ⟨r, hrow, fun n _ _ => rfl⟩⟩
        · exact hv.trans (congrArg some hproperty.symm)
        · exact (congrArg Variant.toInt hproperty).trans hrevision
    · rw [State.load, client_setClient_of_ne _ hd]
      exact fun hfailed => (hinv.client d hfailed).imp_right
        fun h => h.mono rfl rfl rfl (.inl ⟨rfl, rfl⟩)
  · by_cases hd : d = c
    · subst hd
      simp [State.load] at hn
    · rw [State.load, client_setClient_of_ne _ hd] at hn
      exact hinv.changed d n hn

omit [DecidableEq V] in
lemma inv_change (hm : Mapped cls lock) (hinv : Inv cls lock init s) {name : String} {v : V}
    (hname : Ordinary cls name) : Inv cls lock init (s.change c name v) := by
  have hne : lock ≠ name := by
    rintro rfl
    have hstamped := hname.not_stamped
    rw [isStamped, hm.lock_name, Bool.or_true] at hstamped
    cases hstamped
  refine ⟨hinv.fields, hinv.revision, fun d => ?_, fun d n hn => ?_⟩
  · by_cases hd : d = c
    · subst hd
      simp only [State.change, client_setClient_self]
      exact fun hfailed => (hinv.client d hfailed).imp_right
        fun h => h.mono rfl (Function.update_of_ne hne ..) rfl (.inl ⟨rfl, rfl⟩)
    · rw [State.change, client_setClient_of_ne _ hd]
      exact fun hfailed => (hinv.client d hfailed).imp_right
        fun h => h.mono rfl rfl rfl (.inl ⟨rfl, rfl⟩)
  · by_cases hd : d = c
    · subst hd
      simp only [State.change, client_setClient_self, List.mem_cons] at hn
      rcases hn with rfl | hn
      · exact hname
      · exact hinv.changed d n hn
    · rw [State.change, client_setClient_of_ne _ hd] at hn
      exact hinv.changed d n hn

omit [DecidableEq V] in
lemma remove_keeps (cls : SqlClass) (del : String) (exec : DeleteStatement V → Except String ℤ)
    (o : TSqlObject V) :
    (SqlObject.remove cls del exec o).2.1.property = o.property ∧
      ((SqlObject.remove cls del exec o).2.1.record = [] ∨
        (SqlObject.remove cls del exec o).2.1.record = o.record) := by
  simp only [SqlObject.remove]
  split_ifs
  · exact ⟨rfl, .inr rfl⟩
  · exact ⟨rfl, .inr rfl⟩
  · exact ⟨rfl, .inr rfl⟩
  · exact ⟨rfl, .inr rfl⟩
  · split
    · exact ⟨rfl, .inr rfl⟩
    · split
      · exact ⟨rfl, .inr rfl⟩
      · split_ifs
        · exact ⟨rfl, .inr rfl⟩
        · exact ⟨rfl, .inl rfl⟩

omit [DecidableEq ι] [DecidableEq V] in
/-- The clients whose record and revision are as they were keep the invariant, whatever the row
is now, if it has a new version. -/
lemma inv_of_clients {s' : State ι V} (hinv : Inv cls lock init s)
    (hstate : s'.row = s.row ∧ s'.version = s.version ∨ s.version < s'.version)
    (hfields : ∀ r, s'.row = some r → r.map Prod.fst = cls.columns)
    (hrevision : s'.row.isSome = true → revision lock s'.row = init.map (· + (s'.version : ℤ)))
    (hother : ∀ d ≠ c, s'.client d = s.client d)
    (hclient : (s'.client c).failed = false →
      (s'.client c).object.record = [] ∨ Tracks cls lock init s' (s'.client c))
    (hchanged : (s'.client c).changed = (s.client c).changed) : Inv cls lock init s' := by
  refine ⟨hfields, hrevision, fun d hfailed => ?_, fun d n hn => ?_⟩
  · by_cases hd : d = c
    · subst hd
      exact hclient hfailed
    · rw [hother d hd] at hfailed ⊢
      exact (hinv.client d hfailed).imp_right fun h => h.mono rfl rfl rfl hstate
  · by_cases hd : d = c
    · subst hd
      exact hinv.changed d n (hchanged ▸ hn)
    · exact hinv.changed d n (hother d hd ▸ hn)

lemma inv_remove (hinv : Inv cls lock init s) {del : String} {failure : Option String} :
    Inv cls lock init (s.remove cls c del failure).2 := by
  obtain ⟨hproperty, hrecord⟩ := remove_keeps cls del
    (fun d => affected s.row failure d.conditions) (s.client c).object
  simp only [State.remove]
  split
  · refine inv_of_clients (c := c) hinv (.inl ⟨rfl, rfl⟩) hinv.fields hinv.revision
      (fun d hd => client_setClient_of_ne _ hd _) ?_ (by simp)
    simp only [client_setClient_self]
    intro hfailed
    rcases hrecord with h | h
    · exact .inl h
    · exact (hinv.client c hfailed).imp (fun hnil => h.trans hnil)
        fun ht => ht.mono h (congrFun hproperty lock) rfl (.inl ⟨rfl, rfl⟩)
  · refine inv_of_clients (c := c) hinv (.inr (Nat.lt_succ_self _)) (fun r hr => by cases hr)
      (fun h => by cases h) (fun d hd => client_setClient_of_ne _ hd _) ?_ (by simp)
    simp only [client_setClient_self]
    intro hfailed
    rcases hrecord with h | h
    · exact .inl h
    · exact (hinv.client c hfailed).imp (fun hnil => h.trans hnil)
        fun ht => ht.mono h (congrFun hproperty lock) rfl (.inr (Nat.lt_succ_self _))

omit [DecidableEq ι] [DecidableEq V] in
lemma inv_of_refused (hinv : Inv cls lock init s) {outcome : Outcome} {s' : State ι V}
    (h : Refused s c outcome s') : Inv cls lock init s' := by
  refine inv_of_clients hinv (.inl ⟨h.row, h.version⟩) (by rw [h.row]; exact hinv.fields)
    (by rw [h.row, h.version]; exact hinv.revision) h.other (fun hfailed => ?_) h.changed
  rw [h.failed] at hfailed
  cases hfailed

omit [DecidableEq ι] in
lemma inv_of_wrote (hm : Mapped cls lock) (hinv : Inv cls lock init s)
    (ht : Tracks cls lock init s (s.client c)) {outcome : Outcome} {s' : State ι V}
    (hlt : ∀ old, Variant.toInt ((s.client c).object.property lock) = some old → old + 1 < 2 ^ 31)
    (h : Wrote cls lock s c outcome s') : Inv cls lock init s' := by
  obtain ⟨old, after, statement, row, hexecutes, hrow, hselects, hrow', hobject⟩ := h.written
  obtain ⟨hbase, hold⟩ := base_eq_of_selects hinv ht hrow hexecutes.before
    (hexecutes.revision row hselects)
  have hnew : ∀ n ∈ names cls, n ∈ cls.columns →
      (statement.apply row).value n = some (after.property n) := by
    obtain ⟨r, hr, hagree⟩ := ht.current hbase
    obtain rfl : row = r := Option.some.inj (hrow.symm.trans hr)
    exact hexecutes.row row hagree
  -- both the row and the object show the next revision
  have hnext : Variant.toInt (after.property lock) = init.map (· + ((s.version + 1 : ℕ) : ℤ)) := by
    have hpos := hexecutes.pos
    have hrevision := ht.revision
    rw [hexecutes.before, hbase] at hrevision
    rw [hexecutes.lock, Variant.toInt_ofInt _ (by omega) (hlt old hexecutes.before)]
    cases init with
    | none => cases hrevision
    | some k =>
      have hsum : old = k + (s.version : ℤ) := Option.some.inj hrevision
      simp only [Option.map_some, Option.some.injEq]
      omega
  refine inv_of_clients (c := c) hinv (.inr (by rw [h.version]; omega)) ?_ ?_ h.other
    (fun _ => .inr ?_) h.changed
  · rw [hrow']
    rintro r hr
    obtain rfl := Option.some.inj hr
    rw [UpdateStatement.apply, QSqlRecord.map_fst_foldl_setValue]
    exact hinv.fields row hrow
  · intro _
    rw [hrow', h.version, revision, Option.bind_some, hnew lock hm.lock_mem hm.lock_column]
    exact hnext
  · refine ⟨by rw [hobject]; exact hexecutes.fields,
      by rw [hobject]; exact hexecutes.record lock hm.lock_mem hm.lock_column,
      by rw [hobject, h.base]; exact hnext, by rw [h.base, h.version], fun _ => ?_⟩
    refine ⟨_, hrow', fun n hn hcolumn => ?_⟩
    rw [hobject, hnew n hn hcolumn]
    exact (hexecutes.record n hn hcolumn).symm

lemma inv_step (hm : Mapped cls lock) (haligned : KeysAligned cls) (hinv : Inv cls lock init s)
    {a : Action ι V} (htame : Tame cls lock s a) : Inv cls lock init (s.step cls a) := by
  cases a with
  | load c => exact inv_load hm hinv
  | change c name v => exact inv_change hm hinv htame
  | update c now user failure =>
    rcases hinv.client c htame.1 with hnew | ht
    · exact inv_of_refused hinv (refused_of_isNew hnew now user failure)
    · rcases update_cases hm haligned ht htame with h | h
      · exact inv_of_refused hinv h
      · exact inv_of_wrote hm hinv ht htame.2 h
  | remove c del failure => exact inv_remove hinv

end

/-! ### Runs -/

omit [DecidableEq ι] [DecidableEq V] in
lemma inv_initial {cls : SqlClass} {lock : String} {s : State ι V} (h : Initial cls s) :
    Inv cls lock (revision lock s.row) s := by
  refine ⟨h.row, fun _ => ?_, fun c _ => .inl (h.record c), fun c n hn => ?_⟩
  · simp [h.version]
  · rw [h.changed c] at hn
    cases hn

lemma inv_run {cls : SqlClass} {lock : String} {init : Option ℤ} (hm : Mapped cls lock)
    (haligned : KeysAligned cls) {s : State ι V} {as : List (Action ι V)}
    (hinv : Inv cls lock init s) (hrun : TameRun cls lock s as) :
    Inv cls lock init (s.run cls as) := by
  induction as generalizing s with
  | nil => exact hinv
  | cons a as ih => exact ih (inv_step hm haligned hinv hrun.1) hrun.2

/-- **Optimistic locking** loses no update in the runs in which an object whose update has failed
is loaded again before the next one. -/
theorem lossless_of_tameRun {cls : SqlClass} {lock : String} (hm : Mapped cls lock)
    (haligned : KeysAligned cls) {s : State ι V} (hs : Initial cls s) {as : List (Action ι V)}
    (hrun : TameRun cls lock s as) {c : ι} {now user : V} {failure : Option String}
    (htame : Tame cls lock (s.run cls as) (.update c now user failure)) :
    Lossless cls lock (s.run cls as) c now user failure :=
  lossless_of_inv hm haligned (inv_run hm haligned (inv_initial hs) hrun) htame

/-! ### A table of notes -/

inductive Cell where
  | null
  | int (n : ℤ)
  | text (s : String)
  deriving DecidableEq

instance : Variant Cell where
  null := .null
  toInt
    | .null => none
    | .int n => some n
    | .text s => s.toInt?
  ofInt := .int
  toInt_ofInt _ _ _ := rfl

def note : SqlClass where
  metaObject := ⟨[⟨"objectName", 10⟩, ⟨"id", 2⟩, ⟨"name", 10⟩, ⟨"lock_revision", 2⟩], 1⟩
  primaryKeyIndexList := [0]
  tableName := "note"
  columns := ["id", "name", "lock_revision"]

/-- A note that no client has loaded yet. -/
def start : State Bool Cell :=
  ⟨some [("id", .int 1), ("name", .text "draft"), ("lock_revision", .int 1)], 0,
    fun _ => ⟨⟨fun _ => .null, [], ""⟩, 0, [], false⟩⟩

lemma mapped_note : Mapped note "lock_revision" where
  same := by decide +kernel
  column := by decide +kernel
  lock_mem := by decide +kernel
  lock_name := by decide +kernel
  lock_column := by decide +kernel
  lock_not_key := by
    unfold IsKey
    decide +kernel

lemma keysAligned_note : KeysAligned note := by
  intro i hi hmem
  have hzero : (i : ℤ) = 0 := by simpa [note] using hmem
  have hone : 1 ≤ i := hi
  omega

lemma initial_start : Initial note start where
  row r hr := by
    obtain rfl := Option.some.inj hr
    rfl
  version := rfl
  record _ := rfl
  changed _ := rfl

lemma ordinary_name : Ordinary note "name" where
  mem := by decide +kernel
  column := by decide +kernel
  not_stamped := by decide +kernel
  not_key := by
    unfold IsKey
    decide +kernel

theorem lossless_of_tameRun_note :
    Lossless note "lock_revision"
      (start.run note [.load true, .load false, .change false "name" (.text "b")]) false
      .null .null none := by
  have hrun : TameRun note "lock_revision" start
      [.load true, .load false, .change false "name" (.text "b")] :=
    ⟨trivial, trivial, ordinary_name, trivial⟩
  have hrevision : Variant.toInt ((((start.run note [.load true, .load false,
      .change false "name" (.text "b")]).client false).object.property "lock_revision")) =
        some 1 := by
    decide +kernel
  refine lossless_of_tameRun mapped_note keysAligned_note initial_start hrun
    ⟨rfl, fun old hold => ?_⟩
  rw [hrevision] at hold
  obtain rfl := Option.some.inj hold
  decide

/-- Both load the note, and one overwrites it; the other, refused at first, tries again. -/
def retry : List (Action Bool Cell) :=
  [.load true, .load false, .change true "name" (.text "a"), .change false "name" (.text "b"),
    .update false .null .null none, .update true .null .null none]

theorem not_lossless_retry :
    ¬ ∀ (as : List (Action Bool Cell)) (c : Bool) (now user : Cell) (failure : Option String),
      Lossless note "lock_revision" (start.run note as) c now user failure := by
  intro h
  have hlossless := h retry true .null .null none
  have hsuccess : ((start.run note retry).update note true .null .null none).1 =
      .returned true := by
    decide +kernel
  have hbase : ((start.run note retry).client true).base ≠ (start.run note retry).version := by
    decide +kernel
  exact hbase (hlossless.success hsuccess).1

end TreeFrog.OptimisticLock
