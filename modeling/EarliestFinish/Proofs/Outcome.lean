import EarliestFinish.Proofs.Answers
import EarliestFinish.Proofs.Run

/-!
# The outcome of a plan

The session enters a plan through the estimates alone. What follows the estimates is *quiet*: it
comes out the same in every session and keeps the estimator. So if the estimator answers the
questions of a workflow, then the outcome of a plan can be told without a session:
`CostTable.ofEstimates` completes the cost table, and `scheduleFrom` ranks, orders and places the
tasks. `Planning.plan_answers` puts the two together.
-/

namespace EarliestFinish

variable {α : Type} [Quantity α]

/-- The cost table with some estimates. -/
def CostTable.ofEstimates (w : Workflow α) (machines : List (Machine α)) (rows : Estimates α) :
    Except (Fault α) (CostTable α) := do
  let bandwidth ← EarliestFinish.averageBandwidth machines
  let transfer ← transferTable w bandwidth
  return ⟨rows, transfer, bandwidth, infeasibleCostOf rows transfer⟩

theorem ofEstimates_ok {w : Workflow α} {machines : List (Machine α)} {rows : Estimates α}
    {c : CostTable α} (h : CostTable.ofEstimates w machines rows = .ok c) :
    c.estimates = rows ∧ averageBandwidth machines = .ok c.averageBandwidth ∧
      transferTable w c.averageBandwidth = .ok c.transfer ∧
      c.infeasibleCost = infeasibleCostOf rows c.transfer := by
  obtain ⟨bandwidth, hbandwidth, h⟩ := bind_ok_iff.1 h
  obtain ⟨transfer, htransfer, h⟩ := bind_ok_iff.1 h
  cases h
  exact ⟨rfl, hbandwidth, htransfer, rfl⟩

/-- The schedule that comes from a cost table. -/
def scheduleFrom (weights : Weights α) (w : Workflow α) (machines : List (Machine α))
    (c : CostTable α) : Except (Fault α) (Schedule α) := do
  let ranks ← upwardRanks w c
  let order ← priorityOrder w ranks
  let allocation ← Allocation.placeAll w c weights (.empty machines.length) order
  return ⟨w, machines, c, ranks, order, allocation⟩

theorem scheduleFrom_ok {weights : Weights α} {w : Workflow α} {machines : List (Machine α)}
    {c : CostTable α} {s : Schedule α} (h : scheduleFrom weights w machines c = .ok s) :
    s.Planned weights w machines ∧ c = s.costs := by
  obtain ⟨ranks, hranks, h⟩ := bind_ok_iff.1 h
  obtain ⟨order, horder, h⟩ := bind_ok_iff.1 h
  obtain ⟨allocation, hallocation, h⟩ := bind_ok_iff.1 h
  cases h
  exact ⟨⟨rfl, rfl, hranks, horder, hallocation⟩, rfl⟩

namespace Planning

open Estimator

section Quiet

variable {α β γ : Type} {σ σ₁ : Session α} {x : Planning α β} {y : Except (Fault α) β}
  {f : β → Planning α γ} {g : β → Except (Fault α) γ}

/-- A computation that comes out the same in every session and keeps the estimator. -/
def Quiet (x : Planning α β) (y : Except (Fault α) β) : Prop :=
  ∀ σ, ∃ σ', x.runIn σ = (ended y, σ') ∧ σ'.estimator = σ.estimator

/-- What comes of a computation that goes on quietly. -/
theorem runIn_bind_quiet (hx : x.runIn σ = (ended y, σ₁)) (hf : ∀ b, Quiet (f b) (g b)) :
    ∃ σ', (x >>= f).runIn σ = (ended (y >>= g), σ') ∧ σ'.estimator = σ₁.estimator := by
  rw [runIn_bind, hx]
  cases y with
  | error e => exact ⟨σ₁, rfl, rfl⟩
  | ok b => exact hf b σ₁

theorem quiet_pure (b : β) : Quiet (pure b : Planning α β) (.ok b) := fun σ => ⟨σ, rfl, rfl⟩

theorem quiet_note (e : Entry α) : Quiet (note e) (.ok ()) := fun _ => ⟨_, rfl, rfl⟩

theorem quiet_lift (x : Except (Fault α) β) : Quiet (liftM x) x :=
  fun σ => ⟨σ, runIn_lift x σ, rfl⟩

theorem Quiet.bind (hx : Quiet x y) (hf : ∀ b, Quiet (f b) (g b)) :
    Quiet (x >>= f) (y >>= g) := by
  intro σ
  obtain ⟨σ₁, hrun, hσ₁⟩ := hx σ
  rw [← hσ₁]
  exact runIn_bind_quiet hrun hf

theorem quiet_forM_note (entries : List (Entry α)) : Quiet (entries.forM note) (.ok ()) :=
  fun σ => ⟨_, runIn_forM_note entries σ, rfl⟩

end Quiet

variable {σ : Session α} {e : Estimator α} {xs : List α} {w : Workflow α}
  {machines : List (Machine α)}

theorem quiet_transferTimes (w : Workflow α) (bandwidth : α) :
    Quiet (transferTimes w bandwidth) (transferTable w bandwidth) := by
  unfold transferTimes
  split
  · exact (quiet_note _).bind fun _ => quiet_lift _
  · exact quiet_lift _

/-- The cost table, if the estimator answers all questions. -/
theorem costTable_answers (hm : machines ≠ [])
    (h : σ.estimator.Answers (w.questions machines) xs e) :
    ∃ rows σ', shapeOf rows = w.fitting machines ∧ numbersOf rows = xs ∧
      (costTable w machines).runIn σ = (ended (CostTable.ofEstimates w machines rows), σ') ∧
      σ'.estimator = e := by
  obtain ⟨rows, σ₁, hrows, hshape, hnumbers, rfl⟩ := estimateAll_answers hm h
  have hquiet (rows : Estimates α) := (quiet_lift (averageBandwidth machines)).bind fun bandwidth =>
    (quiet_transferTimes w bandwidth).bind fun transfer =>
      quiet_pure (⟨rows, transfer, bandwidth, infeasibleCostOf rows transfer⟩ : CostTable α)
  obtain ⟨σ', hrun, hσ'⟩ := runIn_bind_quiet (y := .ok rows) hrows hquiet
  exact ⟨rows, σ', hshape, hnumbers, hrun, hσ'⟩

/-- What a plan does with its cost table. -/
def planFrom (weights : Weights α) (w : Workflow α) (machines : List (Machine α))
    (c : CostTable α) : Planning α (Schedule α) := do
  let ranks ← upwardRanks w c
  let order ← priorityOrder w ranks
  let allocation ← Allocation.placeAll w c weights (.empty machines.length) order
  let schedule : Schedule α := ⟨w, machines, c, ranks, order, allocation⟩
  schedule.entries.forM note
  return schedule

theorem plan_eq (weights : Weights α) (w : Workflow α) (hm : machines ≠ []) :
    plan weights w machines = costTable w machines >>= planFrom weights w machines := by
  unfold plan
  rw [if_neg (by simpa using hm)]
  rfl

theorem quiet_planFrom (weights : Weights α) (c : CostTable α) :
    Quiet (planFrom weights w machines c) (scheduleFrom weights w machines c) :=
  (quiet_lift _).bind fun _ => (quiet_lift _).bind fun _ => (quiet_lift _).bind fun _ =>
    (quiet_forM_note _).bind fun _ => quiet_pure _

/-- The plan, if the estimator answers all questions. -/
theorem plan_answers (weights : Weights α) (hm : machines ≠ [])
    (h : σ.estimator.Answers (w.questions machines) xs e) :
    ∃ rows σ', shapeOf rows = w.fitting machines ∧ numbersOf rows = xs ∧
      (plan weights w machines).runIn σ =
        (ended (CostTable.ofEstimates w machines rows >>= scheduleFrom weights w machines), σ') ∧
      σ'.estimator = e := by
  obtain ⟨rows, σ₁, hshape, hnumbers, hcosts, rfl⟩ := costTable_answers hm h
  obtain ⟨σ', hrun, hσ'⟩ := runIn_bind_quiet hcosts (quiet_planFrom weights)
  rw [← plan_eq weights w hm] at hrun
  exact ⟨rows, σ', hshape, hnumbers, hrun, hσ'⟩

/-- Two plans of a workflow for which the estimators give the same answers. -/
theorem plan_same_answers {σ' : Session α} {e' : Estimator α} (weights weights' : Weights α)
    (hm : machines ≠ []) (h : σ.estimator.Answers (w.questions machines) xs e)
    (h' : σ'.estimator.Answers (w.questions machines) xs e') :
    ∃ rows,
      ((plan weights w machines).runIn σ).1 =
        ended (CostTable.ofEstimates w machines rows >>= scheduleFrom weights w machines) ∧
      ((plan weights' w machines).runIn σ').1 =
        ended (CostTable.ofEstimates w machines rows >>= scheduleFrom weights' w machines) := by
  obtain ⟨rows, σ₁, hshape, hnumbers, hrun, -⟩ := plan_answers weights hm h
  obtain ⟨rows', σ₂, hshape', hnumbers', hrun', -⟩ := plan_answers weights' hm h'
  obtain rfl := estimates_ext (hshape.trans hshape'.symm) (hnumbers.trans hnumbers'.symm)
  exact ⟨rows, by rw [hrun], by rw [hrun']⟩

end Planning

end EarliestFinish
