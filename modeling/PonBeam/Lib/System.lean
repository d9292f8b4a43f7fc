import Mathlib.Logic.Relation

/-!
# Labelled transition systems

The shape every stateful component of the runtime is given: a set of initial
states and a labelled step relation. `Reach` collects the states of all finite
runs, `restrict` keeps the runs whose steps all meet a condition on the state
they start from, and `Reach.invariant` is the one induction over runs the
component proofs go through.
-/

namespace PonBeam

universe u v

/-- A labelled transition system over states `σ` and labels `ℓ`. -/
structure System (σ : Type u) (ℓ : Type v) where
  /-- where a run may start -/
  init : σ → Prop
  /-- one step under a label -/
  step : σ → ℓ → σ → Prop

namespace System

variable {σ : Type u} {ℓ : Type v} {S : System σ ℓ}

/-- The states reached by finite runs. -/
inductive Reach (S : System σ ℓ) : σ → Prop where
  /-- a run of no steps -/
  | start {s : σ} : S.init s → Reach S s
  /-- one more step -/
  | next {s s' : σ} {a : ℓ} : Reach S s → S.step s a s' → Reach S s'

/-- Keep only the steps whose label meets `ok` in the state it is taken from. -/
def restrict (S : System σ ℓ) (ok : σ → ℓ → Prop) : System σ ℓ where
  init := S.init
  step s a s' := ok s a ∧ S.step s a s'

/-- **The invariant rule**: what holds initially and is kept by every step holds
of every reachable state. -/
theorem Reach.invariant {I : σ → Prop} (hinit : ∀ s, S.init s → I s)
    (hstep : ∀ s a s', I s → S.step s a s' → I s') {s : σ} (h : S.Reach s) : I s := by
  induction h with
  | start hs => exact hinit _ hs
  | next _ hstp ih => exact hstep _ _ _ ih hstp

/-- A restricted run is a run. -/
theorem Reach.of_restrict {ok : σ → ℓ → Prop} {s : σ} (h : (S.restrict ok).Reach s) :
    S.Reach s := by
  induction h with
  | start hs => exact Reach.start hs
  | next _ hstp ih => exact Reach.next ih hstp.2

end System

end PonBeam
