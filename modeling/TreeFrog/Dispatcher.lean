import TreeFrog.Bytes

/-!
`TDispatcher::invoke`: which of the slots of an action is called for a list of arguments. A slot
is looked for by its signature, first with as many parameters as there are arguments and less, then
with more.
-/

namespace TreeFrog.Dispatcher

open Bytes

/-- A string; none is the null string. -/
abbrev QString := Option (List Char)

/-- The table `params`: the parameter lists of nothing but strings. -/
def params : List QByteArray :=
  [ascii "()", ascii "(QString)",
    ascii "(QString,QString)",
    ascii "(QString,QString,QString)",
    ascii "(QString,QString,QString,QString)",
    ascii "(QString,QString,QString,QString,QString)",
    ascii "(QString,QString,QString,QString,QString,QString)",
    ascii "(QString,QString,QString,QString,QString,QString,QString)",
    ascii "(QString,QString,QString,QString,QString,QString,QString,QString)",
    ascii "(QString,QString,QString,QString,QString,QString,QString,QString,QString)",
    ascii "(QString,QString,QString,QString,QString,QString,QString,QString,QString,QString)"]

def numParams : ℕ := 11

/-- `method + params[i]` -/
def signature (method : QByteArray) (i : ℕ) : QByteArray := method ++ params.getD i []

/-! ### Signatures -/

def leftParenthesis : UInt8 := 40

/-- The text behind the last parenthesis that opens. -/
def parameterText (s : QByteArray) : QByteArray := s.rtakeWhile (· ≠ leftParenthesis)

lemma parameterText_append (method t : QByteArray) (ht : leftParenthesis ∉ t) :
    parameterText (method ++ leftParenthesis :: t) = t := by
  rw [parameterText, List.rtakeWhile, List.reverse_append, List.reverse_cons, List.append_assoc,
    List.singleton_append, List.takeWhile_append_of_pos, List.takeWhile_cons_of_neg (by simp),
    List.append_nil, List.reverse_reverse]
  intro c hc
  rw [List.mem_reverse] at hc
  exact decide_eq_true fun h => ht (h ▸ hc)

/-- What is behind the parenthesis: `i` times a type, with commas between, and the other one. -/
def strings (i : ℕ) : QByteArray :=
  ((List.replicate i (ascii "QString")).intersperse (ascii ",")).flatten ++ ascii ")"

lemma params_table : params = (List.range numParams).map fun i => leftParenthesis :: strings i := by
  decide +kernel

lemma params_eq {i : ℕ} (hi : i < numParams) : params.getD i [] = leftParenthesis :: strings i := by
  rw [params_table, List.getD_eq_getElem?_getD]
  simp [hi]

lemma strings_eq (i : ℕ) : strings i =
    ((List.replicate i [81, 83, 116, 114, 105, 110, 103]).intersperse [44]).flatten ++ [41] := by
  have hstring : ascii "QString" = [81, 83, 116, 114, 105, 110, 103] := by decide
  have hcomma : ascii "," = [44] := by decide
  have hparenthesis : ascii ")" = [41] := by decide
  rw [strings, hstring, hcomma, hparenthesis]

lemma strings_spec : ∀ i < numParams,
    leftParenthesis ∉ strings i ∧ (strings i).length = if i = 0 then 1 else 8 * i := by
  simp only [strings_eq]
  decide +kernel

lemma signature_inj {method method' : QByteArray} {i j : ℕ} (hi : i < numParams)
    (hj : j < numParams) (h : signature method i = signature method' j) : i = j := by
  obtain ⟨hi₁, hi₂⟩ := strings_spec i hi
  obtain ⟨hj₁, hj₂⟩ := strings_spec j hj
  unfold signature at h
  rw [params_eq hi, params_eq hj] at h
  have ht := congrArg parameterText h
  rw [parameterText_append _ _ hi₁, parameterText_append _ _ hj₁] at ht
  have hlen := congrArg List.length ht
  rw [hi₂, hj₂] at hlen
  split_ifs at hlen <;> omega

/-! ### The object -/

/-- A slot, with the number of parameters that the meta-object compiler has counted. -/
structure Slot where
  signature : QByteArray
  parameterCount : ℕ
  counted : ∀ method, ∀ i < numParams,
    signature = Dispatcher.signature method i → parameterCount = i

/-- A slot of that name with `i` strings. -/
def Slot.ofStrings (method : QByteArray) (i : ℕ) (hi : i < numParams) : Slot where
  signature := Dispatcher.signature method i
  parameterCount := i
  counted := fun _ _ hj h => signature_inj hi hj h

/-- The slots of an object, those of its own class first. -/
abbrev QMetaObject := List Slot

def indexOfSlot (o : QMetaObject) (signature : QByteArray) : Option ℕ :=
  o.findIdx? (·.signature = signature)

/-- A call that has been made. -/
structure Call where
  slot : Slot
  arguments : List QString

/-- `QMetaMethod::invoke` fails if there are not enough arguments. -/
def QMetaObject.invoke (o : QMetaObject) (idx : ℕ) (arguments : List QString) : Option Call :=
  o[idx]?.bind fun slot =>
    if arguments.length < slot.parameterCount then none else some ⟨slot, arguments⟩

/-! ### The search -/

/-- `args.value(i)` -/
def value (args : List QString) (i : ℕ) : QString := args.getD i none

/-- The loop from `i` down to no parameter; the index of the slot, and `argcnt`. -/
def findDown (o : QMetaObject) (method : QByteArray) : ℕ → Option (ℕ × ℕ)
  | 0 => (indexOfSlot o (signature method 0)).map (·, 0)
  | i + 1 =>
    match indexOfSlot o (signature method (i + 1)) with
    | some idx => some (idx, i + 1)
    | none => findDown o method i

/-- The loop from `i` up, of as many turns. -/
def findUp (o : QMetaObject) (method : QByteArray) : ℕ → ℕ → Option (ℕ × ℕ)
  | 0, _ => none
  | turns + 1, i =>
    match indexOfSlot o (signature method i) with
    | some idx => some (idx, i)
    | none => findUp o method turns (i + 1)

/-- The arguments that the `switch` passes; its default passes ten. -/
def arguments (args : List QString) (argcnt : ℕ) : List QString :=
  (List.range (min argcnt 10)).map (value args)

/-- `invoke` on the object at `ptr`; none where it returns false. -/
def invoke (ptr : Option QMetaObject) (method : QByteArray) (args : List QString) : Option Call :=
  match ptr with
  | none => none
  | some o =>
    let narg := min args.length (numParams - 1)
    let found := (findDown o method narg).orElse fun _ =>
      -- i < NUM_PARAMS - 1
      findUp o method (numParams - 1 - (narg + 1)) (narg + 1)
    match found with
    | none => none
    | some (idx, argcnt) => o.invoke idx (arguments args argcnt)

/-! ### What is called -/

section Search

variable {o : QMetaObject} {method : QByteArray} {idx i n turns : ℕ}

lemma indexOfSlot_eq_some {s : QByteArray} (h : indexOfSlot o s = some idx) :
    ∃ slot ∈ o, o[idx]? = some slot ∧ slot.signature = s := by
  obtain ⟨hlt, hs, -⟩ := List.findIdx?_eq_some_iff_getElem.mp h
  exact ⟨o[idx], List.getElem_mem hlt, List.getElem?_eq_getElem hlt, of_decide_eq_true hs⟩

lemma indexOfSlot_eq_none {s : QByteArray} :
    indexOfSlot o s = none ↔ ∀ slot ∈ o, slot.signature ≠ s := by
  simp [indexOfSlot, List.findIdx?_eq_none_iff]

/-- The action has an overload with `n` strings. -/
def Overload (o : QMetaObject) (method : QByteArray) (n : ℕ) : Prop :=
  n < numParams ∧ ∃ slot ∈ o, slot.signature = signature method n

lemma overload_iff (hn : n < numParams) :
    Overload o method n ↔ indexOfSlot o (signature method n) ≠ none := by
  rw [Ne, indexOfSlot_eq_none]
  simp [Overload, hn]

lemma findDown_spec (hi : i < numParams) :
    (∃ idx n, findDown o method i = some (idx, n) ∧ n ≤ i ∧
      indexOfSlot o (signature method n) = some idx ∧
      ∀ m, Overload o method m → m ≤ i → m ≤ n) ∨
    findDown o method i = none ∧ ∀ m ≤ i, ¬ Overload o method m := by
  induction i with
  | zero =>
    cases h : indexOfSlot o (signature method 0) with
    | some idx => exact Or.inl ⟨idx, 0, by rw [findDown, h]; rfl, le_rfl, h, fun m _ hm => hm⟩
    | none =>
      refine Or.inr ⟨by rw [findDown, h]; rfl, fun m hm hov => ?_⟩
      obtain rfl := Nat.le_zero.mp hm
      exact (overload_iff hi).mp hov h
  | succ i ih =>
    cases h : indexOfSlot o (signature method (i + 1)) with
    | some idx =>
      exact Or.inl ⟨idx, i + 1, by rw [findDown, h], le_rfl, h, fun m _ hm => hm⟩
    | none =>
      have hno : ¬ Overload o method (i + 1) := fun hov => (overload_iff hi).mp hov h
      have heq : findDown o method (i + 1) = findDown o method i := by rw [findDown, h]
      rw [heq]
      rcases ih (Nat.lt_of_succ_lt hi) with ⟨idx, n, hf, hn, hidx, hmax⟩ | ⟨hf, hnone⟩
      · refine Or.inl ⟨idx, n, hf, Nat.le_succ_of_le hn, hidx, fun m hov hm => ?_⟩
        rcases Nat.le_succ_iff.mp hm with hle | rfl
        · exact hmax m hov hle
        · exact absurd hov hno
      · refine Or.inr ⟨hf, fun m hm => ?_⟩
        rcases Nat.le_succ_iff.mp hm with hle | rfl
        · exact hnone m hle
        · exact hno

lemma findUp_spec (hi : i + turns ≤ numParams) :
    (∃ idx n, findUp o method turns i = some (idx, n) ∧ i ≤ n ∧ n < i + turns ∧
      indexOfSlot o (signature method n) = some idx ∧
      ∀ m, Overload o method m → i ≤ m → n ≤ m) ∨
    findUp o method turns i = none ∧ ∀ m, i ≤ m → m < i + turns → ¬ Overload o method m := by
  induction turns generalizing i with
  | zero => exact Or.inr ⟨rfl, fun m h₁ h₂ => by omega⟩
  | succ turns ih =>
    cases h : indexOfSlot o (signature method i) with
    | some idx =>
      exact Or.inl ⟨idx, i, by rw [findUp, h], le_rfl, by omega, h, fun m _ hm => hm⟩
    | none =>
      have hno : ¬ Overload o method i := fun hov => (overload_iff (by omega)).mp hov h
      have heq : findUp o method (turns + 1) i = findUp o method turns (i + 1) := by
        rw [findUp, h]
      have hne : ∀ m, Overload o method m → m ≠ i := by
        rintro m hov rfl
        exact hno hov
      rw [heq]
      rcases ih (i := i + 1) (by omega) with ⟨idx, n, hf, hn, hlt, hidx, hmin⟩ | ⟨hf, hnone⟩
      · refine Or.inl ⟨idx, n, hf, by omega, by omega, hidx, fun m hov hm => hmin m hov ?_⟩
        exact Nat.lt_of_le_of_ne hm (hne m hov).symm
      · refine Or.inr ⟨hf, fun m hm hlt hov => hnone m ?_ (by omega) hov⟩
        exact Nat.lt_of_le_of_ne hm (hne m hov).symm

end Search

/-- The overload that is to be called: the one with the most parameters among those with no more
than `count`, else the one with the fewest. -/
def Chosen (o : QMetaObject) (method : QByteArray) (count n : ℕ) : Prop :=
  Overload o method n ∧
    (n ≤ count ∧ (∀ m, Overload o method m → m ≤ count → m ≤ n) ∨
      count < n ∧ ∀ m, Overload o method m → n ≤ m)

/-- The chosen overload is called with the arguments and null strings for those missing, and
nothing is called only where there is no overload. -/
def Dispatches (o : QMetaObject) (method : QByteArray) (args : List QString) : Prop :=
  (∀ n, Chosen o method args.length n → ∃ slot ∈ o, slot.signature = signature method n ∧
    invoke (some o) method args = some ⟨slot, (List.range n).map (value args)⟩) ∧
  (invoke (some o) method args = none ↔ ∀ n, ¬ Overload o method n)

section Invoke

variable (o : QMetaObject) (method : QByteArray) (args : List QString) {n : ℕ}

lemma invoke_found {idx : ℕ} (hn : n < numParams)
    (hidx : indexOfSlot o (signature method n) = some idx) :
    ∃ slot ∈ o, slot.signature = signature method n ∧
      o.invoke idx (arguments args n) = some ⟨slot, (List.range n).map (value args)⟩ := by
  obtain ⟨slot, hmem, hget, hsig⟩ := indexOfSlot_eq_some hidx
  have hcount := slot.counted method n hn hsig
  have hmin : min n 10 = n := by
    unfold numParams at hn
    omega
  exact ⟨slot, hmem, hsig, by simp [QMetaObject.invoke, hget, hcount, arguments, hmin]⟩

variable {o method args} in
lemma Chosen.unique {m : ℕ} (hn : Chosen o method args.length n)
    (hm : Chosen o method args.length m) : n = m := by
  obtain ⟨hn₁, hn₂⟩ := hn
  obtain ⟨hm₁, hm₂⟩ := hm
  rcases hn₂ with ⟨hle, hmax⟩ | ⟨hlt, hmin⟩ <;> rcases hm₂ with ⟨hle', hmax'⟩ | ⟨hlt', hmin'⟩
  · exact le_antisymm (hmax' n hn₁ hle) (hmax m hm₁ hle')
  · have := hmin' n hn₁
    omega
  · have := hmin m hm₁
    omega
  · exact le_antisymm (hmin m hm₁) (hmin' n hn₁)

/-- **What a search comes to**: the chosen overload is called, or none is among those tried. -/
lemma invoke_spec :
    (∃ n, Chosen o method args.length n ∧ (args.length < 10 → n < 10) ∧
      ∃ slot ∈ o, slot.signature = signature method n ∧
        invoke (some o) method args = some ⟨slot, (List.range n).map (value args)⟩) ∨
    invoke (some o) method args = none ∧
      ∀ m, Overload o method m → m = 10 ∧ args.length < 10 := by
  have hnum : numParams = 11 := rfl
  have hnarg : min args.length (numParams - 1) < numParams := by omega
  rcases @findDown_spec o method _ hnarg with
    ⟨idx, n, hf, hn, hidx, hmax⟩ | ⟨hf, hnone⟩
  · left
    -- an overload with no more parameters than arguments
    have hlt : n < numParams := by omega
    have hov : Overload o method n := (overload_iff hlt).mpr (by simp [hidx])
    obtain ⟨slot, hmem, hsig, hcall⟩ := invoke_found o method args hlt hidx
    refine ⟨n, ⟨hov, Or.inl ⟨by omega, fun m hm hle => hmax m hm ?_⟩⟩, by omega,
      slot, hmem, hsig, ?_⟩
    · have := hm.1
      omega
    · simp only [invoke, hf, Option.orElse_some]
      exact hcall
  · have hturns : min args.length (numParams - 1) + 1 +
        (numParams - 1 - (min args.length (numParams - 1) + 1)) ≤ numParams := by
      omega
    rcases @findUp_spec o method _ _ hturns with ⟨idx, n, hf', hn, hlt, hidx, hmin⟩ | ⟨hf', hnone'⟩
    · left
      -- one with more parameters, the missing arguments being empty
      have hlt : n < numParams := by omega
      have hov : Overload o method n := (overload_iff hlt).mpr (by simp [hidx])
      obtain ⟨slot, hmem, hsig, hcall⟩ := invoke_found o method args hlt hidx
      refine ⟨n, ⟨hov, Or.inr ⟨by omega, fun m hm => hmin m hm ?_⟩⟩, by omega,
        slot, hmem, hsig, ?_⟩
      · exact Nat.lt_of_not_le fun hle => hnone m hle hm
      · simp only [invoke, hf, hf', Option.orElse_none]
        exact hcall
    · right
      refine ⟨by simp only [invoke, hf, hf', Option.orElse_none], fun m hm => ?_⟩
      -- only ten parameters are tried by neither loop
      have hlt := hm.1
      have hgt : min args.length (numParams - 1) < m := by
        by_contra hle
        exact hnone m (by omega) hm
      have hge : ¬ m < min args.length (numParams - 1) + 1 +
          (numParams - 1 - (min args.length (numParams - 1) + 1)) :=
        fun h => hnone' m (by omega) h hm
      omega

end Invoke

/-- **Which overloads are found**: the right one is called, unless the only overload is that with
ten parameters and there are fewer arguments, which the second loop does not come to. -/
theorem dispatches_iff (o : QMetaObject) (method : QByteArray) (args : List QString) :
    Dispatches o method args ↔
      (Overload o method 10 → args.length < 10 → ∃ n < 10, Overload o method n) := by
  rcases invoke_spec o method args with
    ⟨n, hn, hlt10, slot, hmem, hsig, hcall⟩ | ⟨hnone, hten⟩
  · refine ⟨fun _ _ hlt => ⟨n, hlt10 hlt, hn.1⟩, fun _ => ⟨fun m hm => ?_, ?_⟩⟩
    · rw [← hn.unique hm]
      exact ⟨slot, hmem, hsig, hcall⟩
    · rw [hcall]
      exact ⟨fun h => absurd h (by simp), fun h => absurd hn.1 (h n)⟩
  · constructor
    · intro h h10 _
      exact absurd h10 (h.2.mp hnone 10)
    · intro h
      have hno : ∀ m, ¬ Overload o method m := by
        intro m hm
        obtain ⟨rfl, hlt⟩ := hten m hm
        obtain ⟨n, hn, hov⟩ := h hm hlt
        exact absurd (hten n hov).1 hn.ne
      exact ⟨fun m hm => absurd hm.1 (hno m), fun _ => hno, fun _ => hnone⟩

/-- An action whose only overload has ten parameters, called with no argument. -/
theorem ten_parameters_unreached :
    let o : QMetaObject := [Slot.ofStrings (ascii "f") 10 (by decide)]
    Overload o (ascii "f") 10 ∧ invoke (some o) (ascii "f") [] = none := by
  refine ⟨⟨by decide, _, List.mem_singleton_self _, rfl⟩, ?_⟩
  have hnone : ∀ m < 10, indexOfSlot [Slot.ofStrings (ascii "f") 10 (by decide)]
      (signature (ascii "f") m) = none := by
    intro m hm
    refine indexOfSlot_eq_none.mpr fun slot hslot hsig => ?_
    obtain rfl := List.mem_singleton.mp hslot
    exact absurd (signature_inj (by decide) (by unfold numParams; omega) hsig) (by omega)
  simp [invoke, findDown, findUp, numParams, hnone]

end TreeFrog.Dispatcher
