import Mathlib.Data.List.Basic
import Mathlib.Tactic.Common

/-!
The lines of a text, each with the separator that ends it; the last one may go without.
-/

namespace TreeFrog.Lines

variable {α : Type*}

/-- An element in front of the first line. -/
def glue (a : α) : List (List α) → List (List α)
  | [] => [[a]]
  | l :: ls => (a :: l) :: ls

lemma flatten_glue (a : α) (ls : List (List α)) : (glue a ls).flatten = a :: ls.flatten := by
  cases ls <;> rfl

lemma glue_append (a : α) {ls : List (List α)} (h : ls ≠ []) (ms : List (List α)) :
    glue a (ls ++ ms) = glue a ls ++ ms := by
  cases ls with
  | nil => exact absurd rfl h
  | cons l ls => rfl

variable [DecidableEq α] {sep : α}

variable (sep) in
def cut : List α → List (List α)
  | [] => []
  | a :: as => if a = sep then [a] :: cut as else glue a (cut as)

@[simp] lemma cut_nil : cut sep [] = [] := rfl

lemma cut_cons_sep (as : List α) : cut sep (sep :: as) = [sep] :: cut sep as := by
  rw [cut, if_pos rfl]

lemma cut_cons_of_ne {a : α} (h : a ≠ sep) (as : List α) :
    cut sep (a :: as) = glue a (cut sep as) := by
  rw [cut, if_neg h]

variable (sep) in
/-- **Nothing is lost** by cutting. -/
theorem flatten_cut (as : List α) : (cut sep as).flatten = as := by
  induction as with
  | nil => rfl
  | cons a as ih =>
    by_cases h : a = sep
    · rw [h, cut_cons_sep, List.flatten_cons, ih]
      rfl
    · rw [cut_cons_of_ne h, flatten_glue, ih]

variable (sep) in
lemma cut_ne_nil {as : List α} (h : as ≠ []) : cut sep as ≠ [] := by
  intro hnil
  have hflat := flatten_cut sep as
  rw [hnil] at hflat
  exact h hflat.symm

/-- A separator ends a line, whatever comes behind it. -/
theorem cut_append_sep (as bs : List α) :
    cut sep (as ++ sep :: bs) = cut sep (as ++ [sep]) ++ cut sep bs := by
  induction as with
  | nil => rw [List.nil_append, List.nil_append, cut_cons_sep, cut_cons_sep]; rfl
  | cons a as ih =>
    rw [List.cons_append, List.cons_append]
    by_cases h : a = sep
    · rw [h, cut_cons_sep, cut_cons_sep, ih]
      rfl
    · rw [cut_cons_of_ne h, cut_cons_of_ne h, ih, glue_append a (cut_ne_nil sep (by simp))]

lemma cut_singleton_line {l : List α} (h : sep ∉ l) : cut sep (l ++ [sep]) = [l ++ [sep]] := by
  induction l with
  | nil => exact cut_cons_sep []
  | cons a l ih =>
    obtain ⟨ha, hl⟩ := List.ne_and_not_mem_of_not_mem_cons h
    rw [List.cons_append, cut_cons_of_ne ha.symm, ih hl]
    rfl

lemma cut_line {l : List α} (h : sep ∉ l) (bs : List α) :
    cut sep (l ++ sep :: bs) = (l ++ [sep]) :: cut sep bs := by
  rw [cut_append_sep, cut_singleton_line h]
  rfl

/-- A whole line. -/
def IsLine (sep : α) (l : List α) : Prop := ∃ x, sep ∉ x ∧ l = x ++ [sep]

lemma cut_flatten_append {ls : List (List α)} (h : ∀ l ∈ ls, IsLine sep l) (bs : List α) :
    cut sep (ls.flatten ++ bs) = ls ++ cut sep bs := by
  induction ls with
  | nil => rfl
  | cons l ls ih =>
    obtain ⟨⟨x, hx, rfl⟩, hls⟩ := List.forall_mem_cons.mp h
    rw [List.flatten_cons, List.append_assoc, List.append_assoc, List.singleton_append,
      cut_line hx, ih hls]
    rfl

end TreeFrog.Lines
