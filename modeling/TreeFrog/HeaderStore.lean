import TreeFrog.MessageHeader

/-!
The fields of a message header as a map: what setting a field does to it and to the others,
after any operations on the header.
-/

namespace TreeFrog.HeaderStore

open Bytes MessageHeader

inductive Operation where
  | parse (text : QByteArray)
  | setRawHeader (key : QByteArray) (value : Option QByteArray)
  | addRawHeader (key : QByteArray) (value : Option QByteArray)
  | removeRawHeader (key : QByteArray)
  | removeAllRawHeaders (key : QByteArray)

def apply (h : TInternetMessageHeader) : Operation → TInternetMessageHeader
  | .parse text => h.parse text
  | .setRawHeader key value => h.setRawHeader key value
  | .addRawHeader key value => h.addRawHeader key value
  | .removeRawHeader key => h.removeRawHeader key
  | .removeAllRawHeaders key => h.removeAllRawHeaders key

def run (h : TInternetMessageHeader) (ops : List Operation) : TInternetMessageHeader :=
  ops.foldl apply h

/-- The name of the field is the key, without regard to case. -/
def named (key : QByteArray) (p : RawHeaderPair) : Bool := toLower p.1 = toLower key

/-- Setting a field makes it the one of its name, and leaves the others as they are. -/
structure Overrides (h : TInternetMessageHeader) (key value : QByteArray) : Prop where
  lookup : (h.setRawHeader key (some value)).rawHeader key = some value
  one : ((h.setRawHeader key (some value)).headerPairList.filter (named key)).length = 1
  others : (h.setRawHeader key (some value)).headerPairList.filter (fun p => !named key p) =
    h.headerPairList.filter fun p => !named key p

/-- The field that is found has a value, and every field that is taken for one of the name has
it: names are compared up to a zero byte. -/
structure Settable (h : TInternetMessageHeader) (key : QByteArray) : Prop where
  value : ∀ p, h.headerPairList.find? (fun p => qstricmp p.1 key) = some p → p.2 ≠ none
  name : ∀ p ∈ h.headerPairList, qstricmp p.1 key = true → named key p = true

/-! ### Names -/

lemma lower_eq_zero {c : UInt8} : lower c = 0 ↔ c = 0 := by
  unfold lower
  split_ifs with h
  · simp only [UInt8.le_iff_toNat_le, ← UInt8.toNat_inj, UInt8.toNat_add, ne_eq] at *
    have h1 : (65 : UInt8).toNat = 65 := rfl
    have h2 : (90 : UInt8).toNat = 90 := rfl
    have h3 : (192 : UInt8).toNat = 192 := rfl
    have h4 : (222 : UInt8).toNat = 222 := rfl
    have h5 : (32 : UInt8).toNat = 32 := rfl
    have h6 : (0 : UInt8).toNat = 0 := rfl
    omega
  · rfl

lemma constData_toLower (b : QByteArray) : constData (toLower b) = toLower (constData b) := by
  have hpred : ((fun c : UInt8 => decide (c ≠ 0)) ∘ lower) = fun c : UInt8 => decide (c ≠ 0) := by
    funext c
    simp only [Function.comp_apply, ne_eq, lower_eq_zero]
  rw [constData, toLower, List.takeWhile_map, hpred]
  rfl

lemma constData_of_not_mem {b : QByteArray} (h : 0 ∉ b) : constData b = b := by
  refine List.takeWhile_eq_self_iff.mpr fun c hc => ?_
  have hne : c ≠ 0 := fun h0 => h (h0 ▸ hc)
  simpa using hne

lemma qstricmp_of_named {key : QByteArray} {p : RawHeaderPair} (h : named key p = true) :
    qstricmp p.1 key = true := by
  have hname : toLower p.1 = toLower key := by simpa [named] using h
  rw [qstricmp, ← constData_toLower, ← constData_toLower, hname]
  simp

lemma named_of_qstricmp {key : QByteArray} {p : RawHeaderPair} (hp : 0 ∉ p.1) (hk : 0 ∉ key)
    (h : qstricmp p.1 key = true) : named key p = true := by
  rwa [qstricmp, constData_of_not_mem hp, constData_of_not_mem hk] at h

/-! ### Setting a field -/

lemma overrideLoop_none (key : QByteArray) (ps : List RawHeaderPair) :
    TInternetMessageHeader.overrideLoop key none ps = ps.filter fun p => !qstricmp p.1 key := by
  induction ps with
  | nil => rfl
  | cons p ps ih =>
    cases h : qstricmp p.1 key <;> simp [TInternetMessageHeader.overrideLoop, h, ih]

lemma overrideLoop_append {key : QByteArray} {before : List RawHeaderPair}
    (h : ∀ p ∈ before, qstricmp p.1 key = false) {p : RawHeaderPair}
    (hp : qstricmp p.1 key = true) (value : QByteArray) (after : List RawHeaderPair) :
    TInternetMessageHeader.overrideLoop key (some value) (before ++ p :: after) =
      before ++ (p.1, some value) :: after.filter fun p => !qstricmp p.1 key := by
  induction before with
  | nil => simp [TInternetMessageHeader.overrideLoop, hp, overrideLoop_none]
  | cons q before ih =>
    have hq := h q (by simp)
    have hbefore := ih fun r hr => h r (List.mem_cons_of_mem _ hr)
    simp [TInternetMessageHeader.overrideLoop, hq, hbefore]

lemma filter_named_of_not {key : QByteArray} {ps : List RawHeaderPair}
    (h : ∀ p ∈ ps, qstricmp p.1 key = false) : ps.filter (named key) = [] := by
  refine List.filter_eq_nil_iff.mpr fun p hp hnamed => ?_
  have hnot := h p hp
  rw [qstricmp_of_named hnamed] at hnot
  cases hnot

section
variable {h : TInternetMessageHeader} {key : QByteArray}

lemma overrides_of_absent (habsent : ∀ p ∈ h.headerPairList, qstricmp p.1 key = false)
    (value : QByteArray) : Overrides h key value := by
  have hfind : h.headerPairList.find? (fun p => qstricmp p.1 key) = none :=
    List.find?_eq_none.mpr fun p hp => by simp [habsent p hp]
  have hset : h.setRawHeader key (some value) = ⟨h.headerPairList ++ [(key, some value)]⟩ := by
    simp [TInternetMessageHeader.setRawHeader, TInternetMessageHeader.hasRawHeader,
      TInternetMessageHeader.rawHeader, hfind]
  have hself : qstricmp key key = true := by simp [qstricmp]
  have hnamed : named key (key, some value) = true := by simp [named]
  refine ⟨?_, ?_, ?_⟩
  · rw [hset, TInternetMessageHeader.rawHeader, List.find?_append, hfind]
    simp [hself]
  · rw [hset, List.filter_append, filter_named_of_not habsent]
    simp [hnamed]
  · rw [hset, List.filter_append]
    simp [hnamed]

/-- A null value that is found hides the field that is added. -/
lemma not_overrides_of_null {p : RawHeaderPair}
    (hfind : h.headerPairList.find? (fun p => qstricmp p.1 key) = some p) (hnull : p.2 = none)
    (value : QByteArray) : ¬ Overrides h key value := by
  intro ho
  have hset : h.setRawHeader key (some value) = ⟨h.headerPairList ++ [(key, some value)]⟩ := by
    simp [TInternetMessageHeader.setRawHeader, TInternetMessageHeader.hasRawHeader,
      TInternetMessageHeader.rawHeader, hfind, hnull]
  have hlookup := ho.lookup
  rw [hset, TInternetMessageHeader.rawHeader, List.find?_append, hfind] at hlookup
  simp [hnull] at hlookup

section
variable {p : RawHeaderPair} {before after : List RawHeaderPair}

lemma setRawHeader_of_present (hlist : h.headerPairList = before ++ p :: after)
    (hp : qstricmp p.1 key = true) (hbefore : ∀ q ∈ before, qstricmp q.1 key = false)
    (hvalue : p.2 ≠ none) (value : QByteArray) :
    h.setRawHeader key (some value) =
      ⟨before ++ (p.1, some value) :: after.filter fun p => !qstricmp p.1 key⟩ := by
  have hfind : h.headerPairList.find? (fun p => qstricmp p.1 key) = some p := by
    rw [hlist]
    exact List.find?_eq_some_iff_append.mpr ⟨hp, before, after, rfl, by simpa using hbefore⟩
  have hhas : h.hasRawHeader key = true := by
    rw [TInternetMessageHeader.hasRawHeader, TInternetMessageHeader.rawHeader, hfind]
    exact Option.isSome_iff_ne_none.mpr hvalue
  rw [TInternetMessageHeader.setRawHeader, if_pos hhas, hlist, overrideLoop_append hbefore hp]

lemma filter_named_kept (key : QByteArray) (after : List RawHeaderPair) :
    (after.filter fun p => !qstricmp p.1 key).filter (named key) = [] :=
  filter_named_of_not fun q hq => by simpa using (List.mem_filter.mp hq).2

/-- A field without the name that is taken for one is lost, or keeps its own name. -/
lemma named_of_overrides (hlist : h.headerPairList = before ++ p :: after)
    (hp : qstricmp p.1 key = true) (hbefore : ∀ q ∈ before, qstricmp q.1 key = false)
    (hvalue : p.2 ≠ none) {value : QByteArray} (ho : Overrides h key value) :
    ∀ q ∈ h.headerPairList, qstricmp q.1 key = true → named key q = true := by
  have hset := setRawHeader_of_present hlist hp hbefore hvalue value
  have hother : named key (p.1, some value) = named key p := rfl
  have hpnamed : named key p = true := by
    have hone := ho.one
    rw [hset, List.filter_append, filter_named_of_not hbefore, List.filter_cons, hother,
      filter_named_kept] at hone
    by_contra hnot
    simp [hnot] at hone
  have hothers := ho.others
  rw [hset, hlist] at hothers
  simp only [List.filter_append, List.filter_cons, hother, hpnamed, Bool.not_true,
    Bool.false_eq_true, if_false, List.append_cancel_left_eq] at hothers
  intro q hq hmatch
  rw [hlist] at hq
  rcases List.mem_append.mp hq with hq | hq
  · rw [hbefore q hq] at hmatch
    cases hmatch
  · rcases List.mem_cons.mp hq with rfl | hq
    · exact hpnamed
    · by_contra hnot
      have hmem : q ∈ after.filter fun p => !named key p :=
        List.mem_filter.mpr ⟨hq, by simpa using hnot⟩
      rw [← hothers] at hmem
      have hkeep := (List.mem_filter.mp (List.mem_filter.mp hmem).1).2
      simp [hmatch] at hkeep

lemma overrides_of_named (hlist : h.headerPairList = before ++ p :: after)
    (hp : qstricmp p.1 key = true) (hbefore : ∀ q ∈ before, qstricmp q.1 key = false)
    (hvalue : p.2 ≠ none)
    (hname : ∀ q ∈ h.headerPairList, qstricmp q.1 key = true → named key q = true)
    (value : QByteArray) : Overrides h key value := by
  have hset := setRawHeader_of_present hlist hp hbefore hvalue value
  have hother : named key (p.1, some value) = named key p := rfl
  have hpnamed := hname p (by rw [hlist]; simp) hp
  have hafter : ((after.filter fun p => !qstricmp p.1 key).filter fun p => !named key p) =
      after.filter fun p => !named key p := by
    rw [List.filter_filter]
    refine List.filter_congr fun q hq => ?_
    cases hmatch : qstricmp q.1 key with
    | true => simp [hname q (by rw [hlist]; simp [hq]) hmatch]
    | false => simp
  refine ⟨?_, ?_, ?_⟩
  · have hfound : (before ++ (p.1, some value) :: after.filter fun p => !qstricmp p.1 key).find?
        (fun p => qstricmp p.1 key) = some (p.1, some value) :=
      List.find?_eq_some_iff_append.mpr ⟨hp, before, _, rfl, by simpa using hbefore⟩
    rw [hset, TInternetMessageHeader.rawHeader, hfound]
    rfl
  · rw [hset, List.filter_append, filter_named_of_not hbefore, List.filter_cons, hother,
      hpnamed, filter_named_kept]
    rfl
  · rw [hset, hlist]
    simp only [List.filter_append, List.filter_cons, hother, hpnamed, Bool.not_true,
      Bool.false_eq_true, if_false, hafter]

end

/-- **Setting a field** works if the field that is found has a value and no other is taken for
one of its name. -/
lemma overrides_iff (value : QByteArray) : Overrides h key value ↔ Settable h key := by
  cases hfind : h.headerPairList.find? fun p => qstricmp p.1 key with
  | none =>
    have habsent : ∀ p ∈ h.headerPairList, qstricmp p.1 key = false := by
      simpa using hfind
    refine iff_of_true (overrides_of_absent habsent value) ⟨by simp [hfind], fun p hp hm => ?_⟩
    rw [habsent p hp] at hm
    cases hm
  | some p =>
    obtain ⟨hp, before, after, hlist, hbefore⟩ := List.find?_eq_some_iff_append.mp hfind
    by_cases hvalue : p.2 = none
    · exact iff_of_false (not_overrides_of_null hfind hvalue value)
        fun hs => hs.value p hfind hvalue
    · have hbefore' : ∀ q ∈ before, qstricmp q.1 key = false := by simpa using hbefore
      constructor
      · intro ho
        refine ⟨fun q hq => ?_, named_of_overrides hlist hp hbefore' hvalue ho⟩
        obtain rfl := Option.some.inj (hfind.symm.trans hq)
        exact hvalue
      · intro hs
        exact overrides_of_named hlist hp hbefore' hvalue hs.name value

end

/-! ### Runs -/

/-- The steps without the defect: no name has a zero byte, and a null value is set only for a
field that has a value, which removes it. -/
def Tame (h : TInternetMessageHeader) : Operation → Prop
  | .parse text => 0 ∉ text
  | .setRawHeader key value => 0 ∉ key ∧ (value = none → h.hasRawHeader key = true)
  | .addRawHeader key _ => 0 ∉ key
  | .removeRawHeader _ => True
  | .removeAllRawHeaders _ => True

/-- A run each step of which is one of these. -/
def TameRun : TInternetMessageHeader → List Operation → Prop
  | _, [] => True
  | h, op :: ops => Tame h op ∧ TameRun (apply h op) ops

/-- Every field has a value, and a name without a zero byte. -/
def Inv (h : TInternetMessageHeader) : Prop := ∀ p ∈ h.headerPairList, p.2 ≠ none ∧ 0 ∉ p.1

lemma settable_of_inv {h : TInternetMessageHeader} (hi : Inv h) {key : QByteArray}
    (hk : 0 ∉ key) : Settable h key :=
  ⟨fun p hp => (hi p (List.mem_of_find?_eq_some hp)).1,
    fun p hp hm => named_of_qstricmp (hi p hp).2 hk hm⟩

lemma mem_of_mem_trimmed {b : QByteArray} {c : UInt8} (h : c ∈ trimmed b) : c ∈ b :=
  (List.dropWhile_suffix _).subset ((List.rdropWhile_prefix _ _).subset h)

lemma mem_parseLoop {header : QByteArray} {headerlen fuel i : ℕ} {ps : List RawHeaderPair}
    {p : RawHeaderPair} (h : p ∈ parseLoop header headerlen fuel i ps) :
    p ∈ ps ∨ (p.2 ≠ none ∧ ∀ c ∈ p.1, c ∈ header) := by
  induction fuel generalizing i ps with
  | zero => exact .inl h
  | succ fuel ih =>
    rw [parseLoop] at h
    split_ifs at h
    · cases hj : indexOf header [COLON] i with
      | none =>
        rw [hj] at h
        exact .inl h
      | some j =>
        simp only [hj] at h
        rcases ih h with h | h
        · rcases List.mem_append.mp h with h | h
          · exact .inl h
          · obtain rfl := List.mem_singleton.mp h
            exact .inr ⟨by simp, fun c hc =>
              List.mem_of_mem_drop (List.mem_of_mem_take (mem_of_mem_trimmed hc))⟩
        · exact .inr h
    · exact .inl h

lemma mem_overrideLoop {key : QByteArray} {value : Option QByteArray} {ps : List RawHeaderPair}
    {p : RawHeaderPair} (h : p ∈ TInternetMessageHeader.overrideLoop key value ps) :
    p ∈ ps ∨ (p.2 ≠ none ∧ ∃ q ∈ ps, p.1 = q.1) := by
  cases value with
  | none =>
    rw [overrideLoop_none] at h
    exact .inl (List.mem_filter.mp h).1
  | some v =>
    induction ps with
    | nil => exact .inl h
    | cons q ps ih =>
      simp only [TInternetMessageHeader.overrideLoop, overrideLoop_none] at h
      split_ifs at h
      · rcases List.mem_cons.mp h with rfl | h
        · exact .inr ⟨by simp, q, by simp, rfl⟩
        · exact .inl (List.mem_cons_of_mem _ (List.mem_filter.mp h).1)
      · rcases List.mem_cons.mp h with rfl | h
        · exact .inl (by simp)
        · rcases ih h with h | ⟨hp, r, hr, hname⟩
          · exact .inl (List.mem_cons_of_mem _ h)
          · exact .inr ⟨hp, r, List.mem_cons_of_mem _ hr, hname⟩

lemma inv_apply {h : TInternetMessageHeader} (hi : Inv h) {op : Operation} (ht : Tame h op) :
    Inv (apply h op) := by
  intro p hp
  cases op with
  | parse text =>
    rcases mem_parseLoop hp with hp | ⟨hvalue, hname⟩
    · exact hi p hp
    · exact ⟨hvalue, fun h0 => ht (hname 0 h0)⟩
  | setRawHeader key value =>
    simp only [apply, TInternetMessageHeader.setRawHeader] at hp
    split_ifs at hp with hhas
    · rcases mem_overrideLoop hp with hp | ⟨hvalue, q, hq, hname⟩
      · exact hi p hp
      · exact ⟨hvalue, hname ▸ (hi q hq).2⟩
    · rcases List.mem_append.mp hp with hp | hp
      · exact hi p hp
      · obtain rfl := List.mem_singleton.mp hp
        exact ⟨fun hnull => hhas (ht.2 hnull), ht.1⟩
  | addRawHeader key value =>
    simp only [apply, TInternetMessageHeader.addRawHeader] at hp
    split_ifs at hp with hrefused
    · exact hi p hp
    · rcases List.mem_append.mp hp with hp | hp
      · exact hi p hp
      · obtain rfl := List.mem_singleton.mp hp
        simp only [Bool.or_eq_true, not_or, Option.isNone_iff_eq_none] at hrefused
        exact ⟨hrefused.2, ht⟩
  | removeRawHeader key => exact hi p (List.eraseP_subset hp)
  | removeAllRawHeaders key => exact hi p (List.mem_filter.mp hp).1

lemma inv_run {h : TInternetMessageHeader} (hi : Inv h) {ops : List Operation}
    (ht : TameRun h ops) : Inv (run h ops) := by
  induction ops generalizing h with
  | nil => exact hi
  | cons op ops ih => exact ih (inv_apply hi ht.1) ht.2

/-- **The header is a map** from names to values in every state of a run without the defect; in
every state, setting a field works exactly if the field that is found has a value and no other
is taken for one of its name. -/
theorem overrides_run (ops : List Operation) :
    (∀ key value, Overrides (run {} ops) key value ↔ Settable (run {} ops) key) ∧
      (TameRun {} ops → ∀ key value, 0 ∉ key → Overrides (run {} ops) key value) := by
  refine ⟨fun key value => overrides_iff value, fun ht key value hk => ?_⟩
  have hi : Inv (run {} ops) := inv_run (fun p hp => by cases hp) ht
  exact (overrides_iff value).mpr (settable_of_inv hi hk)

theorem overrides_run_twice :
    Overrides (run {} [.addRawHeader (ascii "Accept") (some (ascii "a")),
      .addRawHeader (ascii "accept") (some (ascii "b"))]) (ascii "ACCEPT") (ascii "c") := by
  refine (overrides_run _).2 ?_ _ _ (by decide)
  simp only [TameRun, Tame]
  decide

/-- A null value for a new name is added as a field, and hides the value that is set next. -/
theorem not_overrides_null :
    ¬ ∀ (ops : List Operation) (key value : QByteArray), key ≠ [] →
      Overrides (run {} ops) key value := by
  intro h
  have hlookup := (h [.setRawHeader (ascii "X") none] (ascii "X") (ascii "v") (by decide)).lookup
  revert hlookup
  decide

end TreeFrog.HeaderStore
