import Mathlib.Logic.Relation

namespace Vmux.Transitions

variable {σ : Type*}

structure Machine (σ : Type*) where
  start : σ → Prop
  step : σ → σ → Prop

namespace Machine

variable (M : Machine σ)

inductive Reachable : σ → Prop
  | start {s : σ} (h : M.start s) : Reachable s
  | step {s t : σ} (hs : Reachable s) (h : M.step s t) : Reachable t

/-- The runs all of whose steps satisfy `good`. -/
def restrict (good : σ → σ → Prop) : Machine σ where
  start := M.start
  step s t := M.step s t ∧ good s t

variable {M}

theorem Reachable.invariant {I : σ → Prop} (hstart : ∀ s, M.start s → I s)
    (hstep : ∀ s t, I s → M.step s t → I t) {s : σ} (h : M.Reachable s) : I s := by
  induction h with
  | start h => exact hstart _ h
  | step _ h ih => exact hstep _ _ ih h

theorem Reachable.of_restrict {good : σ → σ → Prop} {s : σ} (h : (M.restrict good).Reachable s) :
    M.Reachable s := by
  induction h with
  | start h => exact .start h
  | step _ h ih => exact .step ih h.1

theorem Reachable.steps {s t : σ} (hs : M.Reachable s) (h : Relation.ReflTransGen M.step s t) :
    M.Reachable t := by
  induction h with
  | refl => exact hs
  | tail _ h ih => exact .step ih h

/-- If every step is a step or nothing in the image, so is every run. -/
theorem Reachable.project {τ : Type*} {N : Machine τ} (f : σ → τ) (hstart : ∀ s, M.start s → N.start (f s))
    (hstep : ∀ s t, M.step s t → f t = f s ∨ N.step (f s) (f t)) {s : σ} (h : M.Reachable s) :
    N.Reachable (f s) := by
  induction h with
  | start h => exact .start (hstart _ h)
  | step _ h ih =>
    rcases hstep _ _ h with he | hn
    · rw [he]
      exact ih
    · exact .step ih hn

/-- An invariant may be proved with the help of one that is already known. -/
theorem Reachable.strengthen {I J : σ → Prop} (hI : ∀ s, M.Reachable s → I s)
    (hstart : ∀ s, M.start s → J s) (hstep : ∀ s t, I s → I t → J s → M.step s t → J t)
    {s : σ} (h : M.Reachable s) : J s := by
  induction h with
  | start h => exact hstart _ h
  | step hs h ih => exact hstep _ _ (hI _ hs) (hI _ (.step hs h)) ih h

end Machine

end Vmux.Transitions
