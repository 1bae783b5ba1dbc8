import Mathlib.Data.List.Basic
import Mathlib.Algebra.Order.Ring.Int

/-!
Streams of frames, each of which tells its own end.

A reader that takes whole frames off the front of what it has, and keeps what is left over for
the next time, gets the same frames however the stream is cut into pieces.
-/

namespace TreeFrog.Framing

variable {α : Type*}

/-- The frame at the front of a text, and the text behind it. What follows a whole frame does not
change it. -/
structure Frames (α : Type*) where
  next : List α → Option (List α × List α)
  eq_append : ∀ {b f r}, next b = some (f, r) → b = f ++ r
  ne_nil : ∀ {b f r}, next b = some (f, r) → f ≠ []
  next_append : ∀ {b f r}, next b = some (f, r) → ∀ c, next (b ++ c) = some (f, r ++ c)

namespace Frames

variable (F : Frames α)

/-- A frame on its own. -/
def IsFrame (f : List α) : Prop := F.next f = some (f, [])

/-- The whole frames at the front of a text, and the rest, in which there is none. -/
inductive Drains : List α → List (List α) → List α → Prop
  | stop {b} : F.next b = none → Drains b [] b
  | frame {b f r fs r'} : F.next b = some (f, r) → Drains r fs r' → Drains b (f :: fs) r'

variable {F}

lemma IsFrame.next {f : List α} (h : F.IsFrame f) (r : List α) : F.next (f ++ r) = some (f, r) :=
  F.next_append h r

lemma IsFrame.ne_nil {f : List α} (h : F.IsFrame f) : f ≠ [] := F.ne_nil h

lemma IsFrame.next_eq_none {f p q : List α} (h : F.IsFrame f) (hpq : p ++ q = f) (hq : q ≠ []) :
    F.next p = none := by
  cases hp : F.next p with
  | none => rfl
  | some x =>
    obtain ⟨g, r⟩ := x
    have hf := F.next_append hp q
    rw [hpq, h] at hf
    have hr : ([] : List α) = r ++ q := congrArg Prod.snd (Option.some.inj hf)
    exact absurd (List.append_eq_nil_iff.mp hr.symm).2 hq

lemma next_length_lt {b f r : List α} (h : F.next b = some (f, r)) : r.length < b.length := by
  have hf := List.length_pos_iff.mpr (F.ne_nil h)
  rw [F.eq_append h, List.length_append]
  omega

lemma next_nil : F.next [] = none := by
  cases h : F.next [] with
  | none => rfl
  | some x => exact absurd (List.append_eq_nil_iff.mp (F.eq_append h).symm).1 (F.ne_nil h)

/-- **The frame at the front of a stream** is the first that was written to it. -/
lemma next_stream {fs : List (List α)} (hfs : ∀ f ∈ fs, F.IsFrame f) {b f r q : List α}
    (hq : b ++ q = fs.flatten) (h : F.next b = some (f, r)) :
    ∃ gs, fs = f :: gs ∧ r ++ q = gs.flatten := by
  have hnext := F.next_append h q
  rw [hq] at hnext
  cases fs with
  | nil =>
    rw [List.flatten_nil, next_nil] at hnext
    cases hnext
  | cons g gs =>
    have hg : F.IsFrame g := hfs g List.mem_cons_self
    rw [List.flatten_cons, hg.next] at hnext
    obtain ⟨rfl, hrest⟩ := Prod.mk.inj (Option.some.inj hnext)
    exact ⟨gs, rfl, hrest.symm⟩

lemma next_none_stream {f : List α} {fs : List (List α)} (hf : F.IsFrame f) {b q : List α}
    (hq : b ++ q = (f :: fs).flatten) (h : F.next b = none) : ∃ t, b ++ t = f := by
  rw [List.flatten_cons] at hq
  rcases List.append_eq_append_iff.mp hq with ⟨t, ht, -⟩ | ⟨t, rfl, -⟩
  · exact ⟨t, ht.symm⟩
  · rw [hf.next] at h
    cases h

namespace Drains

lemma eq_append {b r : List α} {fs : List (List α)} (h : F.Drains b fs r) :
    b = fs.flatten ++ r := by
  induction h with
  | stop _ => rfl
  | frame hnext _ ih => rw [F.eq_append hnext, ih, List.flatten_cons, List.append_assoc]

/-- **Draining part of a stream** of frames gives the frames that are there as a whole. -/
theorem of_stream {fs : List (List α)} (hfs : ∀ f ∈ fs, F.IsFrame f) {p q : List α}
    (hpq : p ++ q = fs.flatten) :
    ∃ done todo r, fs = done ++ todo ∧ F.Drains p done r ∧ r ++ q = todo.flatten ∧
      (r = [] ∨ ∃ f ∈ todo.head?, r <+: f ∧ r ≠ f) := by
  induction fs generalizing p with
  | nil =>
    obtain ⟨rfl, rfl⟩ := List.append_eq_nil_iff.mp hpq
    exact ⟨[], [], [], rfl, .stop next_nil, rfl, .inl rfl⟩
  | cons f fs ih =>
    have hf : F.IsFrame f := hfs f (by simp)
    rw [List.flatten_cons] at hpq
    rcases List.append_eq_append_iff.mp hpq with ⟨t, rfl, ht⟩ | ⟨t, rfl, ht⟩
    · -- the piece ends inside the frame
      by_cases hempty : t = []
      · subst hempty
        rw [List.append_nil] at hf ⊢
        rw [List.nil_append] at ht
        obtain ⟨done, todo, r, hsplit, hdrains, hrest, hr⟩ :=
          ih (fun g hg => hfs g (List.mem_cons_of_mem _ hg)) (p := []) (by simpa using ht)
        refine ⟨p :: done, todo, r, by rw [hsplit]; rfl, ?_, hrest, hr⟩
        exact .frame hf hdrains
      · refine ⟨[], (p ++ t) :: fs, p, rfl, .stop (hf.next_eq_none rfl hempty), ?_, .inr ?_⟩
        · rw [ht, List.flatten_cons, List.append_assoc]
        · refine ⟨p ++ t, rfl, List.prefix_append _ _, fun h => hempty ?_⟩
          exact List.append_cancel_left (by rw [List.append_nil]; exact h.symm)
    · obtain ⟨done, todo, r, hsplit, hdrains, hrest, hr⟩ :=
        ih (fun g hg => hfs g (List.mem_cons_of_mem _ hg)) (p := t) ht.symm
      exact ⟨f :: done, todo, r, by rw [hsplit]; rfl, .frame (hf.next t) hdrains, hrest, hr⟩

end Drains

end Frames

end TreeFrog.Framing
