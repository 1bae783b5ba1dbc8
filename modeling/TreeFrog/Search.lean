import Mathlib.Data.List.Basic
import Mathlib.Data.List.Infix

/-!
The first occurrence of one list inside another, and how it moves when the text around it
changes.

A search that has found its needle has settled everything up to the end of the needle, so
what follows cannot move the first occurrence; and a stretch in which the needle cannot
start is passed over whole.
-/

namespace TreeFrog.Search

variable {α : Type*} [DecidableEq α]

/-- The position of the first occurrence of `n` in a text. -/
def search (n : List α) : List α → Option ℕ
  | [] => if n = [] then some 0 else none
  | x :: xs => if n.isPrefixOf (x :: xs) then some 0 else (search n xs).map (· + 1)

lemma search_eq_zero {n h : List α} (hp : n <+: h) : search n h = some 0 := by
  cases h with
  | nil => simp [search, List.prefix_nil.mp hp]
  | cons x xs => simp [search, List.isPrefixOf_iff_prefix.mpr hp]

lemma search_cons_of_not {n xs : List α} {x : α} (hp : ¬ n <+: x :: xs) :
    search n (x :: xs) = (search n xs).map (· + 1) := by
  have : n.isPrefixOf (x :: xs) = false := by
    simpa [← List.isPrefixOf_iff_prefix] using hp
  simp [search, this]

/-- **What a found position says**: the needle is there, and nowhere before. -/
theorem search_eq_some_iff {n h : List α} {i : ℕ} :
    search n h = some i ↔ i ≤ h.length ∧ n <+: h.drop i ∧ ∀ j < i, ¬ n <+: h.drop j := by
  induction h generalizing i with
  | nil =>
    by_cases hn : n = []
    · subst hn; simp only [search, if_true, Option.some.injEq, List.length_nil]
      constructor
      · rintro rfl; simp
      · rintro ⟨hi, -, -⟩; omega
    · simp [search, hn, List.prefix_nil]
  | cons x xs ih =>
    by_cases hp : n <+: x :: xs
    · rw [search_eq_zero hp, Option.some.injEq]
      constructor
      · rintro rfl; exact ⟨by simp, by simpa using hp, by simp⟩
      · rintro ⟨-, -, hmin⟩
        by_contra hi
        exact hmin 0 (by omega) (by simpa using hp)
    · rw [search_cons_of_not hp, Option.map_eq_some_iff]
      constructor
      · rintro ⟨k, hk, rfl⟩
        obtain ⟨hle, hpre, hmin⟩ := ih.mp hk
        refine ⟨by simpa using hle, by simpa using hpre, fun j hj => ?_⟩
        rcases j with _ | j
        · simpa using hp
        · simpa using hmin j (by omega)
      · rintro ⟨hle, hpre, hmin⟩
        rcases i with _ | k
        · exact absurd (by simpa using hpre) hp
        · refine ⟨k, ih.mpr ⟨by simpa using hle, by simpa using hpre, fun j hj => ?_⟩, rfl⟩
          simpa using hmin (j + 1) (by omega)

/-- A search fails exactly when the needle starts nowhere. -/
theorem search_eq_none_iff {n h : List α} :
    search n h = none ↔ ∀ j ≤ h.length, ¬ n <+: h.drop j := by
  constructor
  · intro hs j hj hp
    induction h generalizing j with
    | nil =>
      have : n = [] := List.prefix_nil.mp (by simpa using hp)
      simp [search, this] at hs
    | cons x xs ih =>
      by_cases hq : n <+: x :: xs
      · simp [search_eq_zero hq] at hs
      · rw [search_cons_of_not hq, Option.map_eq_none_iff] at hs
        rcases j with _ | j
        · exact hq (by simpa using hp)
        · exact ih hs j (by simpa using hj) (by simpa using hp)
  · intro h0
    cases hs : search n h with
    | none => rfl
    | some i =>
      obtain ⟨hle, hpre, -⟩ := search_eq_some_iff.mp hs
      exact absurd hpre (h0 i hle)

lemma search_add_length_le {n h : List α} {i : ℕ} (hs : search n h = some i) :
    i + n.length ≤ h.length := by
  obtain ⟨hle, hpre, -⟩ := search_eq_some_iff.mp hs
  have := hpre.length_le
  rw [List.length_drop] at this
  omega

/-- **What follows a found needle cannot move it.** -/
theorem search_append {n h : List α} {i : ℕ} (hs : search n h = some i) (t : List α) :
    search n (h ++ t) = some i := by
  have hlen := search_add_length_le hs
  obtain ⟨hle, hpre, hmin⟩ := search_eq_some_iff.mp hs
  refine search_eq_some_iff.mpr ⟨by simp; omega, ?_, fun j hj hp => hmin j hj ?_⟩
  · rw [List.drop_append_of_le_length hle]
    exact hpre.trans (List.prefix_append _ _)
  · rw [List.drop_append_of_le_length (by omega)] at hp
    exact List.prefix_of_prefix_length_le hp (List.prefix_append _ _)
      (by rw [List.length_drop]; omega)

lemma search_skip {c : α} {n l t : List α} (hl : c ∉ l) :
    search (c :: n) (l ++ t) = (search (c :: n) t).map (· + l.length) := by
  induction l with
  | nil => simp
  | cons x xs ih =>
    have hx : ¬ c :: n <+: x :: (xs ++ t) := by
      rintro ⟨r, hr⟩
      have hc : c = x := (List.cons.inj hr).1
      exact hl (by simp [hc])
    rw [List.cons_append, search_cons_of_not hx, ih fun h => hl (by simp [h]),
      Option.map_map]
    congr 1

lemma search_singleton {c : α} {l t : List α} (hl : c ∉ l) :
    search [c] (l ++ c :: t) = some l.length := by
  have h0 : search [c] (c :: t) = some 0 := search_eq_zero ⟨t, rfl⟩
  rw [search_skip hl, h0]; simp

lemma search_singleton_eq_none_iff {c : α} {h : List α} : search [c] h = none ↔ c ∉ h := by
  constructor
  · intro hs hc
    obtain ⟨a, b, rfl⟩ := List.append_of_mem hc
    exact search_eq_none_iff.mp hs a.length (by simp) ⟨b, by simp⟩
  · intro hc
    have := search_skip (n := []) (t := []) hc
    simpa [search] using this

lemma search_singleton_split {c : α} {h : List α} {i : ℕ} (hs : search [c] h = some i) :
    c ∉ h.take i ∧ h = h.take i ++ c :: h.drop (i + 1) := by
  obtain ⟨hle, ⟨r, hr⟩, hmin⟩ := search_eq_some_iff.mp hs
  constructor
  · intro hc
    obtain ⟨j, hj, hcj⟩ := List.mem_iff_getElem.mp hc
    have hji : j < i ∧ j < h.length := by simpa [Nat.lt_min] using hj
    refine hmin j hji.1 ⟨h.drop (j + 1), ?_⟩
    rw [List.getElem_take] at hcj
    rw [List.drop_eq_getElem_cons hji.2, hcj, List.singleton_append]
  · have hd : h.drop (i + 1) = r := by
      rw [← List.drop_drop, ← hr]; rfl
    rw [hd, ← List.singleton_append, hr, List.take_append_drop]

/-- A needle is passed over by a stretch that does not have it and ends with a symbol that is none
of its own. -/
lemma search_fence {n a t : List α} {c : α} (hc : c ∉ n) (ha : ¬ n <:+: a) :
    search n (a ++ c :: t) = (search n t).map (· + (a.length + 1)) := by
  have hnot : ∀ {a : List α}, ¬ n <:+: a → ¬ n <+: a ++ c :: t := by
    intro a ha hpre
    rcases List.prefix_or_prefix_of_prefix hpre (List.prefix_append a _) with h | ⟨r, rfl⟩
    · exact ha h.isInfix
    · rcases r with _ | ⟨c', r⟩
      · exact ha (by simp)
      · rw [List.prefix_append_right_inj, List.cons_prefix_cons] at hpre
        exact hc (by simp [hpre.1])
  induction a with
  | nil =>
    rw [List.nil_append, search_cons_of_not (hnot ha)]
    rfl
  | cons x a ih =>
    have hx := hnot ha
    have ha' : ¬ n <:+: a := fun h => ha (h.trans (List.suffix_cons x a).isInfix)
    rw [List.cons_append] at hx ⊢
    rw [search_cons_of_not hx, ih ha', Option.map_map]
    congr 1

lemma search_eq_none {n h : List α} (hn : ¬ n <:+: h) : search n h = none :=
  search_eq_none_iff.mpr fun j _ hp => hn (hp.isInfix.trans (List.drop_suffix j h).isInfix)

end TreeFrog.Search
