import EarliestFinish.Fault
import EarliestFinish.Quantity.Basic

/-!
# Weights

The score of a placement is `alpha * finish + beta * workload`: an early finish against an even
load. Both weights are finite, neither is negative, and they are not both zero.
-/

namespace EarliestFinish

/-- The weights of finish time and workload in a score. -/
structure Weights (α : Type) [Quantity α] where
  /-- The weight of the finish time. -/
  alpha : α
  /-- The weight of the workload. -/
  beta : α
  alpha_finite : Quantity.isFinite alpha = true
  alpha_nonneg : ¬ alpha < 0
  beta_finite : Quantity.isFinite beta = true
  beta_nonneg : ¬ beta < 0
  sum_pos : ¬ alpha + beta ≤ 0

namespace Weights

variable {α : Type} [Quantity α]

/-- The weight of the finish time when none is given. -/
def defaultAlpha : α := 0.7

/-- The weight of the workload when none is given. -/
def defaultBeta : α := 0.3

/-- The weights with given values; the finish weight is looked at first. -/
def ofValues (alpha beta : α) : Except (Fault α) (Weights α) :=
  if ha : Quantity.isFinite alpha = true ∧ ¬ alpha < 0 then
    if hb : Quantity.isFinite beta = true ∧ ¬ beta < 0 then
      if hs : alpha + beta ≤ 0 then .error .noWeight
      else .ok ⟨alpha, beta, ha.1, ha.2, hb.1, hb.2, hs⟩
    else .error (.badWeight .beta beta)
  else .error (.badWeight .alpha alpha)

/-- The weights with the values that are given and the defaults for the others. -/
def ofOptions (alpha beta : Option α) : Except (Fault α) (Weights α) :=
  ofValues (alpha.getD defaultAlpha) (beta.getD defaultBeta)

/-- The score of a placement. -/
def score (w : Weights α) (finish workload : α) : α := w.alpha * finish + w.beta * workload

/-- The values of accepted weights are accepted. -/
theorem ofValues_values (w : Weights α) : ofValues w.alpha w.beta = .ok w := by
  simp [ofValues, w.alpha_finite, w.alpha_nonneg, w.beta_finite, w.beta_nonneg, w.sum_pos]

end Weights

end EarliestFinish
