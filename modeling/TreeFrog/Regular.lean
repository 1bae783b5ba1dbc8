import Mathlib.Computability.Language

/-!
Regular expressions as languages, read at the start of a text: a text splits into a word of the
language and a rest.
-/

namespace TreeFrog.Regular

variable {α : Type*} {l m : Language α} {s t r : List α}

/-- A character class. -/
def cls (p : α → Bool) : Language α := {w | ∃ c, p c ∧ w = [c]}

/-- The text starts with a word of the language, and `r` is behind it. -/
def Splits (l : Language α) (s r : List α) : Prop := ∃ w ∈ l, s = w ++ r

lemma splits_one : Splits (1 : Language α) s r ↔ s = r := by
  constructor
  · rintro ⟨w, hw, rfl⟩
    rw [Language.mem_one] at hw
    rw [hw, List.nil_append]
  · rintro rfl
    exact ⟨[], Language.nil_mem_one, rfl⟩

lemma splits_cls {p : α → Bool} : Splits (cls p) s r ↔ ∃ c, p c ∧ s = c :: r := by
  constructor
  · rintro ⟨_, ⟨c, hc, rfl⟩, rfl⟩
    exact ⟨c, hc, rfl⟩
  · rintro ⟨c, hc, rfl⟩
    exact ⟨[c], ⟨c, hc, rfl⟩, rfl⟩

lemma splits_add : Splits (l + m) s r ↔ Splits l s r ∨ Splits m s r := by
  constructor
  · rintro ⟨w, hw | hw, rfl⟩
    · exact .inl ⟨w, hw, rfl⟩
    · exact .inr ⟨w, hw, rfl⟩
  · rintro (⟨w, hw, rfl⟩ | ⟨w, hw, rfl⟩)
    · exact ⟨w, .inl hw, rfl⟩
    · exact ⟨w, .inr hw, rfl⟩

lemma splits_mul : Splits (l * m) s r ↔ ∃ t, Splits l s t ∧ Splits m t r := by
  constructor
  · rintro ⟨_, hw, rfl⟩
    obtain ⟨a, ha, b, hb, rfl⟩ := Language.mem_mul.mp hw
    exact ⟨b ++ r, ⟨a, ha, List.append_assoc ..⟩, b, hb, rfl⟩
  · rintro ⟨_, ⟨a, ha, rfl⟩, b, hb, rfl⟩
    exact ⟨a ++ b, Language.mem_mul.mpr ⟨a, ha, b, hb, rfl⟩, (List.append_assoc ..).symm⟩

lemma splits_star_refl : Splits (KStar.kstar l) s s := ⟨[], Language.nil_mem_kstar l, rfl⟩

lemma splits_star_head (h : Splits l s t) (hs : Splits (KStar.kstar l) t r) :
    Splits (KStar.kstar l) s r := by
  obtain ⟨a, ha, rfl⟩ := h
  obtain ⟨_, hb, rfl⟩ := hs
  obtain ⟨ws, rfl, hws⟩ := Language.mem_kstar.mp hb
  refine ⟨a ++ ws.flatten, Language.mem_kstar.mpr ⟨a :: ws, rfl, ?_⟩, by simp⟩
  intro w hw
  rcases List.mem_cons.mp hw with rfl | hw
  · exact ha
  · exact hws w hw

lemma splits_star_induction {P : List α → Prop} (h : Splits (KStar.kstar l) s r) (base : P r)
    (step : ∀ s t, Splits l s t → P t → P s) : P s := by
  obtain ⟨_, hw, rfl⟩ := h
  obtain ⟨ws, rfl, hws⟩ := Language.mem_kstar.mp hw
  clear hw
  induction ws with
  | nil => simpa using base
  | cons w ws ih =>
    have htail := ih fun v hv => hws v (List.mem_cons_of_mem _ hv)
    refine step _ _ ⟨w, hws w List.mem_cons_self, ?_⟩ htail
    rw [List.flatten_cons, List.append_assoc]

lemma splits_star_cls {p : α → Bool} :
    Splits (KStar.kstar (cls p)) s r ↔ ∃ w, (∀ c ∈ w, p c) ∧ s = w ++ r := by
  constructor
  · intro h
    refine splits_star_induction (P := fun s => ∃ w, (∀ c ∈ w, p c) ∧ s = w ++ r) h
      ⟨[], by simp, rfl⟩ ?_
    rintro s t hs ⟨w, hw, rfl⟩
    obtain ⟨c, hc, rfl⟩ := splits_cls.mp hs
    exact ⟨c :: w, by simpa using ⟨hc, hw⟩, rfl⟩
  · rintro ⟨w, hw, rfl⟩
    induction w with
    | nil => exact splits_star_refl
    | cons c w ih =>
      exact splits_star_head (splits_cls.mpr ⟨c, hw c List.mem_cons_self, rfl⟩)
        (ih fun d hd => hw d (List.mem_cons_of_mem _ hd))

lemma splits_plus_cls {p : α → Bool} :
    Splits (cls p * KStar.kstar (cls p)) s r ↔ ∃ w ≠ [], (∀ c ∈ w, p c) ∧ s = w ++ r := by
  rw [splits_mul]
  constructor
  · rintro ⟨t, h, hs⟩
    obtain ⟨c, hc, rfl⟩ := splits_cls.mp h
    obtain ⟨w, hw, rfl⟩ := splits_star_cls.mp hs
    exact ⟨c :: w, by simp, by simpa using ⟨hc, hw⟩, rfl⟩
  · rintro ⟨w, hne, hw, rfl⟩
    obtain ⟨c, w, rfl⟩ := List.exists_cons_of_ne_nil hne
    exact ⟨w ++ r, splits_cls.mpr ⟨c, hw c List.mem_cons_self, rfl⟩,
      splits_star_cls.mpr ⟨w, fun d hd => hw d (List.mem_cons_of_mem _ hd), rfl⟩⟩

lemma splits_optional {p : α → Bool} :
    Splits (1 + cls p) s r ↔ s = r ∨ ∃ c, p c ∧ s = c :: r := by
  rw [splits_add, splits_one, splits_cls]

/-! ### Longest runs -/

lemma any_head_iff {p : α → Bool} : s.head?.any p = true ↔ ∃ c r, s = c :: r ∧ p c := by
  cases s <;> simp

lemma takeWhile_run {p : α → Bool} {w r : List α} (hw : ∀ c ∈ w, p c)
    (hr : ∀ c ∈ r.head?, p c = false) : (w ++ r).takeWhile p = w := by
  rw [List.takeWhile_append_of_pos hw]
  cases r with
  | nil => simp
  | cons c r => simp [hr c rfl]

lemma dropWhile_run {p : α → Bool} {w r : List α} (hw : ∀ c ∈ w, p c)
    (hr : ∀ c ∈ r.head?, p c = false) : (w ++ r).dropWhile p = r := by
  rw [List.dropWhile_append_of_pos hw]
  cases r with
  | nil => simp
  | cons c r => simp [hr c rfl]

lemma head_dropWhile (p : α → Bool) (s : List α) : ∀ c ∈ (s.dropWhile p).head?, p c = false := by
  intro c hc
  have h := List.head?_dropWhile_not p s
  rw [Option.mem_def] at hc
  rwa [hc] at h

lemma mem_takeWhile {p : α → Bool} {c : α} {s : List α} (h : c ∈ s.takeWhile p) : p c :=
  List.all_eq_true.mp List.all_takeWhile c h

lemma dropWhile_of_mem [DecidableEq α] {c : α} (h : c ∈ s) :
    ∃ r, s.dropWhile (· ≠ c) = c :: r := by
  obtain ⟨w, r, rfl, hw⟩ := List.eq_append_cons_of_mem h
  exact ⟨r, dropWhile_run (fun d hd => decide_eq_true fun heq => hw (heq ▸ hd)) (by simp)⟩

end TreeFrog.Regular
