import Mathlib.Data.List.Basic
import Mathlib.Algebra.Order.Ring.Int

/-!
Paths as texts: their components, and what is left of them when `.` and `..` are resolved without
looking at the file system.

A path that never leads above the directory it begins in stays below it, whatever that is; and one
that does is outside of some directory.
-/

namespace TreeFrog.LexicalPath

/-- Text as its UTF-16 code units. -/
abbrev Text := List UInt16

@[match_pattern] abbrev SLASH : UInt16 := 47
@[match_pattern] abbrev DOT : UInt16 := 46

/-- UTF-8 of one byte each. -/
def fromAscii (b : List UInt8) : Text := b.map UInt8.toUInt16

def here : Text := [DOT]
def up : Text := [DOT, DOT]

/-- What stands between the slashes. -/
def components : Text → List Text
  | [] => [[]]
  | c :: t =>
    if c = SLASH then [] :: components t
    else match components t with
      | [] => [[c]]
      | s :: ss => (c :: s) :: ss

/-- The directory `dir`, once the component `s` is entered. -/
def enter (dir : List Text) (s : Text) : List Text :=
  if s = [] ∨ s = here then dir else if s = up then dir.dropLast else dir ++ [s]

def resolve (dir : List Text) (ss : List Text) : List Text := ss.foldl enter dir

/-- How deep the components lead. -/
def depth : ℕ → List Text → ℕ
  | k, [] => k
  | k, s :: ss => depth (if s = [] ∨ s = here then k else if s = up then k - 1 else k + 1) ss

/-- From the depth `k`, the components lead above the depth zero. -/
def climbs : ℕ → List Text → Bool
  | _, [] => false
  | k, s :: ss =>
    if s = [] ∨ s = here then climbs k ss
    else if s = up then k = 0 || climbs (k - 1) ss
    else climbs (k + 1) ss

/-! ### Components -/

lemma components_ne_nil (t : Text) : components t ≠ [] := by
  cases t with
  | nil => exact List.cons_ne_nil _ _
  | cons c t =>
    rw [components]
    split_ifs
    · exact List.cons_ne_nil _ _
    · split <;> exact List.cons_ne_nil _ _

@[simp] lemma components_slash (t : Text) : components (SLASH :: t) = [] :: components t := by
  rw [components, if_pos rfl]

lemma components_cons {c : UInt16} (hc : c ≠ SLASH) {t s : Text} {ss : List Text}
    (h : components t = s :: ss) : components (c :: t) = (c :: s) :: ss := by
  rw [components, if_neg hc, h]

lemma exists_components (t : Text) : ∃ s ss, components t = s :: ss :=
  List.exists_cons_of_ne_nil (components_ne_nil t)

lemma components_append_slash (a b : Text) :
    components (a ++ SLASH :: b) = components a ++ components b := by
  induction a with
  | nil => exact components_slash b
  | cons c a ih =>
    rw [List.cons_append]
    by_cases hc : c = SLASH
    · subst hc
      rw [components_slash, components_slash, ih, List.cons_append]
    · obtain ⟨s, ss, h⟩ := exists_components a
      rw [components_cons hc h, components_cons hc (by rw [ih, h, List.cons_append]),
        List.cons_append]

lemma components_of_not_mem {t : Text} (h : SLASH ∉ t) : components t = [t] := by
  induction t with
  | nil => rfl
  | cons c t ih =>
    rw [List.mem_cons, not_or] at h
    exact components_cons (fun hc => h.1 hc.symm) (ih h.2)

lemma not_mem_of_mem_components {t s : Text} (h : s ∈ components t) : SLASH ∉ s := by
  induction t generalizing s with
  | nil =>
    rw [List.mem_singleton.mp h]
    exact List.not_mem_nil
  | cons c t ih =>
    by_cases hc : c = SLASH
    · subst hc
      rw [components_slash] at h
      rcases List.mem_cons.mp h with rfl | h
      · exact List.not_mem_nil
      · exact ih h
    · obtain ⟨f, fs, hf⟩ := exists_components t
      rw [components_cons hc hf] at h
      rcases List.mem_cons.mp h with rfl | h
      · rw [List.mem_cons, not_or]
        exact ⟨fun h => hc h.symm, ih (by rw [hf]; exact List.mem_cons_self)⟩
      · exact ih (by rw [hf]; exact List.mem_cons_of_mem _ h)

lemma components_append_of_not_mem {a b s : Text} {ss : List Text} (ha : SLASH ∉ a)
    (hb : components b = s :: ss) : components (a ++ b) = (a ++ s) :: ss := by
  induction a with
  | nil => exact hb
  | cons c a ih =>
    rw [List.mem_cons, not_or] at ha
    exact components_cons (fun hc => ha.1 hc.symm) (ih ha.2)

lemma mem_components_append {a b x : Text} (hb : SLASH ∉ b)
    (hx : x ∈ (components (a ++ b)).tail) : x ∈ (components a).tail ∨ ∃ y, x = y ++ b := by
  -- only the last component of `a` can get longer, and that may be its first one
  have hhead : ∀ a : Text, ∃ s ss ts, components a = s :: ss ∧
      (components (a ++ b) = s :: ts ∨ components (a ++ b) = (s ++ b) :: ts) ∧
      ∀ x ∈ ts, x ∈ ss ∨ ∃ y, x = y ++ b := by
    intro a
    induction a with
    | nil =>
      exact ⟨[], [], [], rfl, .inr (components_of_not_mem hb),
        fun x hx => absurd hx List.not_mem_nil⟩
    | cons c a ih =>
      obtain ⟨s, ss, ts, ha, hab, hts⟩ := ih
      by_cases hc : c = SLASH
      · subst hc
        refine ⟨[], s :: ss, components (a ++ b), by rw [components_slash, ha],
          .inl (components_slash _), fun x hx => ?_⟩
        rcases hab with hab | hab
        · rw [hab] at hx
          rcases List.mem_cons.mp hx with rfl | hx
          · exact .inl List.mem_cons_self
          · exact (hts x hx).imp_left (List.mem_cons_of_mem _)
        · rw [hab] at hx
          rcases List.mem_cons.mp hx with rfl | hx
          · exact .inr ⟨s, rfl⟩
          · exact (hts x hx).imp_left (List.mem_cons_of_mem _)
      · refine ⟨c :: s, ss, ts, components_cons hc ha, ?_, hts⟩
        exact hab.imp (components_cons hc) (components_cons hc)
  obtain ⟨s, ss, ts, ha, hab, hts⟩ := hhead a
  rw [ha]
  rcases hab with hab | hab
  · rw [hab] at hx
    exact hts x hx
  · rw [hab] at hx
    exact hts x hx

lemma length_le_of_mem_components {t s : Text} (h : s ∈ components t) : s.length ≤ t.length := by
  induction t generalizing s with
  | nil =>
    rw [List.mem_singleton.mp h]
  | cons c t ih =>
    by_cases hc : c = SLASH
    · subst hc
      rw [components_slash] at h
      rcases List.mem_cons.mp h with rfl | h
      · exact Nat.zero_le _
      · exact (ih h).trans (Nat.le_succ _)
    · obtain ⟨f, fs, hf⟩ := exists_components t
      rw [components_cons hc hf] at h
      rcases List.mem_cons.mp h with rfl | h
      · exact Nat.succ_le_succ (ih (by rw [hf]; exact List.mem_cons_self))
      · exact (ih (by rw [hf]; exact List.mem_cons_of_mem _ h)).trans (Nat.le_succ _)

/-! ### Climbing -/

lemma climbs_append (k : ℕ) (ss ts : List Text) :
    climbs k (ss ++ ts) = (climbs k ss || climbs (depth k ss) ts) := by
  induction ss generalizing k with
  | nil => rfl
  | cons s ss ih =>
    rw [List.cons_append, climbs, climbs, depth]
    split_ifs
    · exact ih k
    · rw [ih, Bool.or_assoc]
    · exact ih (k + 1)

lemma climbs_of_not_mem {k : ℕ} {ss : List Text} (h : up ∉ ss) : climbs k ss = false := by
  induction ss generalizing k with
  | nil => rfl
  | cons s ss ih =>
    rw [List.mem_cons, not_or] at h
    have hne : ¬ s = up := fun hs => h.1 hs.symm
    rw [climbs, if_neg hne, ih h.2, ih h.2, ite_self]

lemma climbs_succ {k : ℕ} {s : Text} {ss : List Text} (h : up ∉ ss) :
    climbs (k + 1) (s :: ss) = false := by
  rw [climbs, climbs_of_not_mem h, climbs_of_not_mem h, climbs_of_not_mem h]
  simp

lemma climbs_zero {s : Text} {ss : List Text} (h : up ∉ ss) :
    climbs 0 (s :: ss) = true ↔ s = up := by
  rw [climbs, climbs_of_not_mem h, climbs_of_not_mem h]
  split_ifs with h1 h2
  · refine ⟨fun hfalse => hfalse.elim, ?_⟩
    rintro rfl
    exact absurd h1 (by decide)
  · exact ⟨fun _ => h2, fun _ => rfl⟩
  · exact ⟨fun hfalse => hfalse.elim, fun hs => absurd hs h2⟩

lemma prefix_of_not_climbs {dir names ss : List Text} (h : climbs names.length ss = false) :
    dir <+: resolve (dir ++ names) ss := by
  induction ss generalizing names with
  | nil => exact List.prefix_append _ _
  | cons s ss ih =>
    rw [climbs] at h
    rw [resolve, List.foldl_cons, enter]
    split_ifs at h ⊢ with h1 h2
    · exact ih h
    · rw [Bool.or_eq_false_iff, decide_eq_false_iff_not] at h
      have hne : names ≠ [] := fun hnil => h.1 (by rw [hnil, List.length_nil])
      rw [List.dropLast_append_of_ne_nil hne]
      exact ih (by rw [List.length_dropLast]; exact h.2)
    · rw [List.append_assoc]
      exact ih (by rw [List.length_append]; exact h)

lemma mem_of_mem_resolve {x : Text} {dir ss : List Text} (h : x ∈ resolve dir ss) :
    x ∈ dir ∨ x ∈ ss := by
  induction ss generalizing dir with
  | nil => exact .inl h
  | cons s ss ih =>
    rcases ih h with h | h
    · unfold enter at h
      split_ifs at h
      · exact .inl h
      · exact .inl (List.dropLast_subset _ h)
      · rcases List.mem_append.mp h with h | h
        · exact .inl h
        · exact .inr (List.mem_cons.mpr (.inl (List.mem_singleton.mp h)))
    · exact .inr (List.mem_cons_of_mem _ h)

lemma not_mem_of_climbs {x : Text} {names ss : List Text} (hnames : x ∉ names) (hss : x ∉ ss)
    (h : climbs names.length ss = true) : x ∉ resolve (x :: names) ss := by
  induction ss generalizing names with
  | nil => cases h
  | cons s ss ih =>
    rw [List.mem_cons, not_or] at hss
    rw [climbs] at h
    rw [resolve, List.foldl_cons, enter]
    split_ifs at h ⊢ with h1 h2
    · exact ih hnames hss.2 h
    · cases names with
      | nil =>
        intro hx
        rcases mem_of_mem_resolve hx with hx | hx
        · exact absurd hx List.not_mem_nil
        · exact hss.2 hx
      | cons n names =>
        have hdrop : (x :: n :: names).dropLast = x :: (n :: names).dropLast := rfl
        rw [hdrop]
        refine ih (fun hx => hnames (List.dropLast_subset _ hx)) hss.2 ?_
        rw [List.length_dropLast]
        simpa using h
    · have hmem : x ∉ names ++ [s] := by
        rw [List.mem_append, List.mem_singleton, not_or]
        exact ⟨hnames, hss.1⟩
      have hdeeper : climbs (names ++ [s]).length ss = true := by
        rw [List.length_append]
        exact h
      exact ih hmem hss.2 hdeeper

lemma resolve_name {name : Text} (h0 : name ≠ []) (hslash : SLASH ∉ name) (hhere : name ≠ here)
    (hup : name ≠ up) (root : Text) :
    resolve [] (components (root ++ SLASH :: name)) = resolve [] (components root) ++ [name] := by
  have hname : ¬ (name = [] ∨ name = here) := not_or.mpr ⟨h0, hhere⟩
  rw [components_append_slash, components_of_not_mem hslash, resolve, List.foldl_append]
  change enter _ name = _
  rw [enter, if_neg hname, if_neg hup]
  rfl

/-- `t` is a text behind the directory `root`, and is below it. -/
def Below (root t : Text) : Prop :=
  resolve [] (components (root ++ [SLASH])) <+: resolve [] (components (root ++ SLASH :: t))

lemma resolve_root (root : Text) :
    resolve [] (components (root ++ [SLASH])) = resolve [] (components root) := by
  rw [components_append_slash, resolve, List.foldl_append]
  rfl

lemma resolve_below (root t : Text) :
    resolve [] (components (root ++ SLASH :: t)) =
      resolve (resolve [] (components root)) (components t) := by
  rw [components_append_slash, resolve, resolve, resolve, List.foldl_append]

/-- **A path is below every directory exactly when it does not climb.** -/
theorem forall_below_iff (t : Text) : (∀ root, Below root t) ↔ climbs 0 (components t) = false := by
  constructor
  · intro h
    by_contra hclimbs
    rw [Bool.not_eq_false] at hclimbs
    -- a directory of a name that is too long to be a component
    set x : Text := List.replicate (t.length + 3) 97 with hx
    have hlength : x.length = t.length + 3 := List.length_replicate
    have hroot : resolve [] (components (SLASH :: x)) = [x] := by
      have hslash : SLASH ∉ x := fun h => absurd (List.eq_of_mem_replicate h) (by decide)
      have hshort : ∀ y : Text, y.length ≤ 2 → x ≠ y := by
        rintro y hy rfl
        omega
      rw [components_slash, components_of_not_mem hslash]
      change enter (enter [] []) x = [x]
      have hname : ¬ (x = [] ∨ x = here) := by
        rw [not_or]
        exact ⟨hshort [] (by decide), hshort here (by decide)⟩
      rw [show enter [] [] = [] from rfl, enter, if_neg hname, if_neg (hshort up (by decide)),
        List.nil_append]
    have hmem : x ∉ components t := fun hmem => by
      have := length_le_of_mem_components hmem
      omega
    have hbelow := h (SLASH :: x)
    rw [Below, resolve_root, resolve_below, hroot] at hbelow
    exact not_mem_of_climbs List.not_mem_nil hmem hclimbs
      (hbelow.subset (List.mem_singleton.mpr rfl))
  · intro h root
    rw [Below, resolve_root, resolve_below]
    have hfront : resolve [] (components root) <+:
        resolve (resolve [] (components root) ++ []) (components t) := prefix_of_not_climbs h
    rwa [List.append_nil] at hfront

end TreeFrog.LexicalPath
