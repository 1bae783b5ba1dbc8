import Mathlib.Tactic.Basic

/-!
Computations that change a state and may throw: what holds behind them, where they return and where
they throw.
-/

namespace TreeFrog.Exceptions

variable {ε σ α β : Type}

/-- `post` holds of what is returned, `exc` of what is thrown, each with the state. -/
def Outcome (post : α → σ → Prop) (exc : ε → σ → Prop) : EStateM.Result ε σ α → Prop
  | .ok a s => post a s
  | .error e s => exc e s

/-- The outcome from every state with `pre`. -/
def Triple (pre : σ → Prop) (m : EStateM ε σ α) (post : α → σ → Prop) (exc : ε → σ → Prop) : Prop :=
  ∀ s, pre s → Outcome post exc (m s)

variable {pre pre' : σ → Prop} {m : EStateM ε σ α} {f : α → EStateM ε σ β} {post mid : α → σ → Prop}
  {exc : ε → σ → Prop}

lemma Outcome.imp {post' : α → σ → Prop} {exc' : ε → σ → Prop} {r : EStateM.Result ε σ α}
    (h : Outcome post exc r) (hpost : ∀ a s, post a s → post' a s)
    (hexc : ∀ e s, exc e s → exc' e s) : Outcome post' exc' r := by
  cases r with
  | ok a s => exact hpost a s h
  | error e s => exact hexc e s h

namespace Triple

lemma imp {post' : α → σ → Prop} {exc' : ε → σ → Prop} (h : Triple pre m post exc)
    (hpost : ∀ a s, post a s → post' a s) (hexc : ∀ e s, exc e s → exc' e s) :
    Triple pre m post' exc' :=
  fun s hs => (h s hs).imp hpost hexc

lemma of_imp (h : Triple pre m post exc) (hpre : ∀ s, pre' s → pre s) : Triple pre' m post exc :=
  fun s hs => h s (hpre s hs)

lemma pure (a : α) : Triple (post a) (Pure.pure a : EStateM ε σ α) post exc := fun _ hs => hs

lemma throw (e : ε) : Triple (exc e) (MonadExcept.throw e : EStateM ε σ α) post exc :=
  fun _ hs => hs

lemma modify {g : σ → σ} {post : PUnit → σ → Prop} (h : ∀ s, pre s → post ⟨⟩ (g s)) :
    Triple pre (modify g : EStateM ε σ PUnit) post exc :=
  fun s hs => h s hs

lemma bind {post : β → σ → Prop} (hm : Triple pre m mid exc)
    (hf : ∀ a, Triple (mid a) (f a) post exc) : Triple pre (m >>= f) post exc := by
  intro s hs
  have hfirst := hm s hs
  change Outcome post exc (EStateM.bind m f s)
  unfold EStateM.bind
  cases hr : m s with
  | ok a s' =>
    rw [hr] at hfirst
    exact hf a s' hfirst
  | error e s' =>
    rw [hr] at hfirst
    exact hfirst

lemma get_bind {f : σ → EStateM ε σ β} {post : β → σ → Prop}
    (h : ∀ s, pre s → Outcome post exc (f s s)) : Triple pre (get >>= f) post exc :=
  h

lemma ite {c : Prop} [Decidable c] {m' : EStateM ε σ α} (hthen : c → Triple pre m post exc)
    (helse : ¬ c → Triple pre m' post exc) : Triple pre (if c then m else m') post exc := by
  by_cases hc : c
  · rw [if_pos hc]
    exact hthen hc
  · rw [if_neg hc]
    exact helse hc

end Triple

lemma outcome_tryCatch {handler : ε → EStateM ε σ α} {s : σ} {exc' : ε → σ → Prop}
    (h : Outcome post exc' (m s))
    (hhandler : ∀ e s', exc' e s' → Outcome post exc (handler e s')) :
    Outcome post exc (tryCatch m handler s) := by
  change Outcome post exc (EStateM.tryCatch m handler s)
  unfold EStateM.tryCatch
  cases hr : m s with
  | ok a s' =>
    rw [hr] at h
    exact h
  | error e s' =>
    rw [hr] at h
    exact hhandler e s' h

lemma outcome_tryCatch_of_returns {handler : ε → EStateM ε σ α} {s : σ}
    (h : Outcome post (fun _ _ => False) (m s)) : Outcome post exc (tryCatch m handler s) :=
  outcome_tryCatch h fun _ _ hfalse => hfalse.elim

end TreeFrog.Exceptions
