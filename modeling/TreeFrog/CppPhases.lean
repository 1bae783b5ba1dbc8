import Mathlib.Data.List.Infix
import Mathlib.Tactic.Common

/-!
What C++ does to a source before it is read in tokens: trigraphs are replaced, and a line that ends
in a backslash is joined with the next one.

Dialects differ in both. A character that takes part in neither is kept, and keeps apart what is
before it and behind it.
-/

namespace TreeFrog.CppPhases

/-! ### Trigraphs -/

/-- What is behind the two question marks of a trigraph, and what it stands for. -/
def trigraphs : List (Char × Char) :=
  [('=', '#'), ('/', '\\'), ('\'', '^'), ('(', '['), (')', ']'), ('!', '|'), ('<', '\x7b'),
    ('>', '\x7d'), ('-', '~')]

def replaceTrigraphs : List Char → List Char
  | [] => []
  | '?' :: '?' :: c :: s =>
    match trigraphs.lookup c with
    | some x => x :: replaceTrigraphs s
    | none => '?' :: replaceTrigraphs ('?' :: c :: s)
  | c :: s => c :: replaceTrigraphs s

def TrigraphFree (s : List Char) : Prop := ∀ p ∈ trigraphs, ¬ ['?', '?', p.1] <:+: s

instance (s : List Char) : Decidable (TrigraphFree s) :=
  List.decidableBAll (fun p : Char × Char => ¬ ['?', '?', p.1] <:+: s) trigraphs

/-! ### Lines -/

/-- White space within a line. -/
def spaces : List Char := [' ', '\t', '\x0b', '\x0c', '\r']

/-- A dialect has trigraphs or not, and says what may stand between a backslash and the end of its
line. -/
structure Dialect where
  trigraphs : Bool
  blank : Char → Bool
  space : ∀ c, blank c → c ∈ spaces

/-- What is behind the end of the line, if nothing but blanks is before it. -/
def nextLine (blank : Char → Bool) : List Char → Option (List Char)
  | [] => none
  | c :: s => if c = '\n' then some s else if blank c then nextLine blank s else none

lemma nextLine_length {blank : Char → Bool} {s t : List Char} (h : nextLine blank s = some t) :
    t.length < s.length := by
  induction s with
  | nil => simp [nextLine] at h
  | cons c s ih =>
    rw [nextLine] at h
    split_ifs at h
    · obtain rfl := Option.some.inj h
      simp
    · exact (ih h).trans (by simp)

/-- The lines joined. -/
def splice (blank : Char → Bool) : List Char → List Char
  | [] => []
  | c :: s =>
    if c = '\\' then
      match h : nextLine blank s with
      | some t =>
        have := nextLine_length h
        splice blank t
      | none => c :: splice blank s
    else c :: splice blank s
termination_by s => s.length

namespace Dialect

variable (d : Dialect)

def translate (s : List Char) : List Char :=
  splice d.blank (if d.trigraphs then replaceTrigraphs s else s)

/-- What GNU C++ does by default. -/
def gnu : Dialect := ⟨false, fun c => spaces.contains c, fun _ h => by simpa using h⟩

/-- C++11 by the book. -/
def iso11 : Dialect := ⟨true, fun _ => false, fun _ h => absurd h (by simp)⟩

end Dialect

/-- A character that is no part of a trigraph, and none of the end of a line. -/
def Inert (c : Char) : Prop :=
  c ≠ '?' ∧ trigraphs.lookup c = none ∧ c ≠ '\\' ∧ c ≠ '\n' ∧ c ∉ spaces

instance (c : Char) : Decidable (Inert c) := inferInstanceAs (Decidable (_ ∧ _))

lemma replaceTrigraphs_cons {c : Char} {s : List Char}
    (h : ∀ x t, c = '?' → s = '?' :: x :: t → trigraphs.lookup x = none) :
    replaceTrigraphs (c :: s) = c :: replaceTrigraphs s := by
  by_cases hmarks : ∃ x t, c = '?' ∧ s = '?' :: x :: t
  · obtain ⟨x, t, rfl, rfl⟩ := hmarks
    rw [replaceTrigraphs, h x t rfl rfl]
  · rw [replaceTrigraphs]
    exact fun x t hc hs => hmarks ⟨x, t, hc, hs⟩

lemma replaceTrigraphs_append {c : Char} (hc : Inert c) (a s : List Char) :
    replaceTrigraphs (a ++ c :: s) = replaceTrigraphs a ++ c :: replaceTrigraphs s := by
  induction a using replaceTrigraphs.induct with
  | case1 => exact replaceTrigraphs_cons fun _ _ h => absurd h hc.1
  | case2 x a y hx ih =>
    simp only [List.cons_append, replaceTrigraphs, hx, ih]
  | case3 x a hx ih =>
    simp only [List.cons_append, replaceTrigraphs, hx] at ih ⊢
    rw [ih]
  | case4 b a hno ih =>
    rw [List.cons_append, replaceTrigraphs_cons, ih, replaceTrigraphs_cons]
    · rfl
    · intro x t hb ha
      exact absurd ha (hno x t hb)
    · intro x t hb ha
      -- the third character can only be the inert one
      rcases a with _ | ⟨y, _ | ⟨z, a⟩⟩
      · exact absurd (List.cons_eq_cons.mp ha).1 hc.1
      · obtain ⟨rfl, hx⟩ := List.cons_eq_cons.mp ha
        exact (List.cons_eq_cons.mp hx).1 ▸ hc.2.1
      · obtain ⟨rfl, -⟩ := List.cons_eq_cons.mp ha
        exact absurd rfl (hno z a hb)

lemma replaceTrigraphs_eq_self {s : List Char} (h : TrigraphFree s) : replaceTrigraphs s = s := by
  induction s with
  | nil => rfl
  | cons c s ih =>
    rw [replaceTrigraphs_cons, ih fun p hp hin => h p hp (hin.trans (List.suffix_cons c s).isInfix)]
    rintro x t rfl rfl
    by_contra hx
    obtain ⟨y, hy⟩ := Option.ne_none_iff_exists'.mp hx
    obtain ⟨l, r, hmem, -⟩ := List.lookup_eq_some_iff.mp hy
    exact h (x, y) (by simp [hmem]) ⟨[], t, rfl⟩

/-- A sign at the end may end a trigraph; the others it leaves as they are. -/
lemma replaceTrigraphs_concat {c : Char} (hc : c = '-' ∨ c = '+') (s : List Char) :
    ∃ t u v, replaceTrigraphs s = t ++ u ∧ replaceTrigraphs (s ++ [c]) = t ++ v ∧
      ∀ x ∈ u ++ v, x ∈ ['?', '-', '+', '~'] := by
  induction s using replaceTrigraphs.induct with
  | case1 => exact ⟨[], [], [c], rfl, by rcases hc with rfl | rfl <;> rfl, by simp; tauto⟩
  | case2 x s y hx ih =>
    obtain ⟨t, u, v, hu, hv, hin⟩ := ih
    exact ⟨y :: t, u, v, by simp [replaceTrigraphs, hx, hu], by simp [replaceTrigraphs, hx, hv],
      hin⟩
  | case3 x s hx ih =>
    obtain ⟨t, u, v, hu, hv, hin⟩ := ih
    refine ⟨'?' :: t, u, v, ?_, ?_, hin⟩
    · simp only [replaceTrigraphs, hx, hu, List.cons_append]
    · simp only [List.cons_append] at hv ⊢
      simp only [replaceTrigraphs, hx, hv]
  | case4 b s hno ih =>
    by_cases hmarks : b = '?' ∧ s = ['?']
    · -- the sign completes the trigraph, or stands behind two question marks
      obtain ⟨rfl, rfl⟩ := hmarks
      rcases hc with rfl | rfl
      · exact ⟨[], ['?', '?'], ['~'], rfl, rfl, by simp⟩
      · exact ⟨[], ['?', '?'], ['?', '?', '+'], rfl, rfl, by simp⟩
    · obtain ⟨t, u, v, hu, hv, hin⟩ := ih
      refine ⟨b :: t, u, v, ?_, ?_, hin⟩
      · rw [replaceTrigraphs_cons fun x t hb hs => absurd hs (hno x t hb), hu, List.cons_append]
      · rw [List.cons_append, replaceTrigraphs_cons, hv, List.cons_append]
        intro x t hb hs
        rcases s with _ | ⟨y, _ | ⟨z, s⟩⟩
        · obtain ⟨rfl, -⟩ := List.cons_eq_cons.mp hs
          simp at hc
        · obtain ⟨rfl, -⟩ := List.cons_eq_cons.mp hs
          exact absurd ⟨hb, rfl⟩ hmarks
        · obtain ⟨rfl, -⟩ := List.cons_eq_cons.mp hs
          exact absurd rfl (hno z s hb)

/-! ### Joining lines -/

lemma splice_cons_of_ne {blank : Char → Bool} {c : Char} {s : List Char} (hc : c ≠ '\\') :
    splice blank (c :: s) = c :: splice blank s := by
  rw [splice, if_neg hc]

lemma splice_backslash_of_none {blank : Char → Bool} {s : List Char} (h : nextLine blank s = none) :
    splice blank ('\\' :: s) = '\\' :: splice blank s := by
  rw [splice, if_pos rfl]
  split
  · rename_i t ht
    rw [h] at ht
    contradiction
  · rfl

lemma splice_backslash_of_some {blank : Char → Bool} {s t : List Char}
    (h : nextLine blank s = some t) : splice blank ('\\' :: s) = splice blank t := by
  rw [splice, if_pos rfl]
  split
  · rename_i t' ht
    rw [h] at ht
    rw [Option.some.inj ht]
  · rename_i ht
    rw [h] at ht
    contradiction

lemma nextLine_append {blank : Char → Bool} {c : Char} (hc : c ≠ '\n') (hblank : ¬ blank c)
    (a s : List Char) : nextLine blank (a ++ c :: s) = (nextLine blank a).map (· ++ c :: s) := by
  induction a with
  | nil => simp [nextLine, hc, hblank]
  | cons b a ih =>
    rw [List.cons_append, nextLine, nextLine, ih]
    split_ifs <;> rfl

lemma nextLine_eq_none {blank : Char → Bool} {s : List Char} (h : '\n' ∉ s) :
    nextLine blank s = none := by
  induction s with
  | nil => rfl
  | cons c s ih =>
    rw [List.mem_cons, not_or] at h
    rw [nextLine, if_neg (Ne.symm h.1), ih h.2, ite_self]

lemma splice_eq_self {blank : Char → Bool} {s : List Char} (h : '\n' ∉ s) : splice blank s = s := by
  induction s with
  | nil => rw [splice]
  | cons c s ih =>
    obtain ⟨-, hs⟩ : '\n' ≠ c ∧ '\n' ∉ s := by simpa using h
    by_cases hc : c = '\\'
    · rw [hc, splice_backslash_of_none (nextLine_eq_none hs), ih hs]
    · rw [splice_cons_of_ne hc, ih hs]

lemma splice_append {blank : Char → Bool} {c : Char} (hc : c ≠ '\\') (hn : c ≠ '\n')
    (hblank : ¬ blank c) (a s : List Char) :
    splice blank (a ++ c :: s) = splice blank a ++ c :: splice blank s := by
  induction a using splice.induct blank with
  | case1 =>
    rw [List.nil_append, splice_cons_of_ne hc, splice]
    rfl
  | case2 a t hline _ ih =>
    rw [List.cons_append, splice_backslash_of_some hline, splice_backslash_of_some, ih]
    rw [nextLine_append hn hblank, hline]
    rfl
  | case3 a hline ih =>
    rw [List.cons_append, splice_backslash_of_none hline, splice_backslash_of_none, ih]
    · rfl
    · rw [nextLine_append hn hblank, hline]
      rfl
  | case4 b a hb ih =>
    rw [List.cons_append, splice_cons_of_ne hb, splice_cons_of_ne hb, ih]
    rfl

/-! ### Both -/

variable (d : Dialect)

lemma Inert.not_blank {c : Char} (hc : Inert c) : ¬ d.blank c := fun h => hc.2.2.2.2 (d.space c h)

lemma translate_cons {c : Char} (hmark : c ≠ '?') (hback : c ≠ '\\') (s : List Char) :
    d.translate (c :: s) = c :: d.translate s := by
  unfold Dialect.translate
  split_ifs
  · rw [replaceTrigraphs_cons fun _ _ h => absurd h hmark, splice_cons_of_ne hback]
  · exact splice_cons_of_ne hback

/-- **An inert character** keeps apart what is before it and behind it. -/
theorem translate_append {c : Char} (hc : Inert c) (a s : List Char) :
    d.translate (a ++ c :: s) = d.translate a ++ c :: d.translate s := by
  unfold Dialect.translate
  split_ifs
  · rw [replaceTrigraphs_append hc, splice_append hc.2.2.1 hc.2.2.2.1 (hc.not_blank d)]
  · exact splice_append hc.2.2.1 hc.2.2.2.1 (hc.not_blank d) a s

/-- A line without trigraphs is kept. -/
theorem translate_eq_self {s : List Char} (hn : '\n' ∉ s) (hfree : d.trigraphs → TrigraphFree s) :
    d.translate s = s := by
  unfold Dialect.translate
  split_ifs with h
  · rw [replaceTrigraphs_eq_self (hfree h), splice_eq_self hn]
  · exact splice_eq_self hn

/-! ### Comments -/

/-- What is behind a comment, read from behind its beginning. -/
def behindComment : List Char → Option (List Char)
  | [] => none
  | c :: s => if c = '*' ∧ s.head? = some '/' then some s.tail else behindComment s

/-- **A comment** ends at an end behind it exactly if it has none itself. -/
theorem behindComment_append {a s : List Char} :
    behindComment (a ++ '*' :: '/' :: s) = some s ↔ ¬ ['*', '/'] <:+: a := by
  induction a with
  | nil => simp [behindComment]
  | cons c a ih =>
    rw [List.cons_append, behindComment]
    by_cases hend : c = '*' ∧ (a ++ '*' :: '/' :: s).head? = some '/'
    · obtain ⟨rfl, hhead⟩ := hend
      rw [if_pos ⟨rfl, hhead⟩]
      cases a with
      | nil => simp at hhead
      | cons b a =>
        obtain rfl : b = '/' := by simpa using hhead
        refine iff_of_false (fun h => ?_) fun h => h ⟨[], a, rfl⟩
        -- more is left than what is behind the end that is meant
        have := congrArg List.length (Option.some.inj h)
        simp at this
        omega
    · rw [if_neg hend, ih, not_iff_not]
      refine ⟨fun h => h.trans (List.suffix_cons c a).isInfix, fun h => ?_⟩
      rcases List.infix_cons_iff.mp h with h | h
      · obtain ⟨t, ht⟩ := h
        obtain ⟨rfl, rfl⟩ := List.cons_eq_cons.mp ht
        exact absurd ⟨rfl, rfl⟩ hend
      · exact h

lemma commentEnd_append {a u : List Char} (hu : '/' ∉ u) :
    ['*', '/'] <:+: a ++ u ↔ ['*', '/'] <:+: a := by
  induction u using List.reverseRecOn with
  | nil => rw [List.append_nil]
  | append_singleton u c ih =>
    simp only [List.mem_append, List.mem_singleton, not_or] at hu
    rw [← List.append_assoc, ← ih hu.1]
    refine ⟨fun h => ?_, fun h => h.trans (List.prefix_append _ _).isInfix⟩
    rcases List.infix_concat_iff.1 h with h | h
    · obtain ⟨r, hr⟩ := h
      have hlast := congrArg List.getLast? hr
      rw [List.getLast?_append, List.getLast?_append] at hlast
      exact absurd (Option.some.inj hlast) hu.2
    · exact h

lemma splice_append_all {blank : Char → Bool} {u : List Char}
    (hu : ∀ c ∈ u, c ≠ '\\' ∧ c ≠ '\n' ∧ ¬ blank c) (a : List Char) :
    splice blank (a ++ u) = splice blank a ++ u := by
  induction u generalizing a with
  | nil => rw [List.append_nil, List.append_nil]
  | cons c u ih =>
    obtain ⟨⟨hc, hn, hblank⟩, hu⟩ := List.forall_mem_cons.mp hu
    have hnil := ih hu []
    rw [splice_append hc hn hblank]
    rw [List.nil_append, splice, List.nil_append] at hnil
    rw [hnil]

lemma kept_of_sign {c : Char} (hc : c ∈ ['?', '-', '+', '~']) :
    c ≠ '\\' ∧ c ≠ '\n' ∧ ¬ d.blank c := by
  have hkept : c ≠ '\\' ∧ c ≠ '\n' ∧ c ∉ spaces := by
    simp only [List.mem_cons, List.not_mem_nil, or_false] at hc
    rcases hc with rfl | rfl | rfl | rfl <;> decide
  exact ⟨hkept.1, hkept.2.1, fun h => hkept.2.2 (d.space c h)⟩

/-- A sign behind a comment does not end it. -/
theorem commentEnd_concat {c : Char} (hc : c = '-' ∨ c = '+') (s : List Char) :
    ['*', '/'] <:+: d.translate (s ++ [c]) ↔ ['*', '/'] <:+: d.translate s := by
  obtain ⟨t, u, v, hu, hv, hin⟩ : ∃ t u v,
      (if d.trigraphs then replaceTrigraphs s else s) = t ++ u ∧
      (if d.trigraphs then replaceTrigraphs (s ++ [c]) else s ++ [c]) = t ++ v ∧
      ∀ x ∈ u ++ v, x ∈ ['?', '-', '+', '~'] := by
    split_ifs
    · exact replaceTrigraphs_concat hc s
    · exact ⟨s, [], [c], by simp, rfl, by rcases hc with rfl | rfl <;> simp⟩
  have hslash : '/' ∉ u ++ v := fun h => absurd (hin _ h) (by decide)
  rw [List.mem_append, not_or] at hslash
  unfold Dialect.translate
  rw [hu, hv, splice_append_all fun x hx => kept_of_sign d (hin x (List.mem_append_left _ hx)),
    splice_append_all fun x hx => kept_of_sign d (hin x (List.mem_append_right _ hx)),
    commentEnd_append hslash.1, commentEnd_append hslash.2]

end TreeFrog.CppPhases
