import EarliestFinish.Allocation
import EarliestFinish.Lane
import EarliestFinish.Priority
import EarliestFinish.UpwardRank

/-!
# Schedules

A schedule tells for every task of a workflow on which machine it runs and when, by task, by
machine and in the order in which the tasks were placed.
-/

namespace EarliestFinish

/-- A plan of a workflow on some machines, and how it came about. -/
structure Schedule (α : Type) where
  workflow : Workflow α
  machines : List (Machine α)
  costs : CostTable α
  ranks : Table Int α
  /-- The tasks in the order in which they were placed. -/
  order : List Int
  allocation : Allocation α

/-- Where and when a task runs, by labels. -/
structure Assignment (α : Type) where
  task : Label
  machine : Label
  start : α
  finish : α

namespace Schedule

variable {α : Type} [Quantity α]

/-- The events by task. -/
def events (s : Schedule α) : Table Int (Event α) := scheduleOf s.allocation.placements

/-- The events by machine. -/
def roster (s : Schedule α) : Roster α := .ofLanes s.allocation.lanes

/-- The latest finish; zero if there are no tasks. -/
def makespan (s : Schedule α) : α := Quantity.largestOr 0 (s.events.values.map Event.finish)

/-- The assignment of a task. -/
def assignment? (s : Schedule α) (task : Int) : Option (Assignment α) := do
  let t ← s.workflow.task? task
  let e ← s.events.get? task
  let m ← (position? s.machines.length e.machine).bind (s.machines[·]?)
  return ⟨t.label, m.label, e.start, e.finish⟩

/-- The assignments of all tasks in the order of the workflow, if every task has one. -/
def assignments? (s : Schedule α) : Option (List (Assignment α)) :=
  s.workflow.positions.mapM s.assignment?

/-- The tasks with their ranks in ascending order. -/
def rankEntries (s : Schedule α) : List (Int × α) := sortBy Prod.fst s.ranks.entries

/-- The label of a machine. -/
def machineLabel (s : Schedule α) (machine : Int) : Label :=
  match (position? s.machines.length machine).bind (s.machines[·]?) with
  | some m => m.label
  | none => .number machine

/-- What is noted of a placement. -/
def placementEntries (s : Schedule α) (p : Placement α) : List (Entry α) :=
  let e := p.event
  let task := s.workflow.labelOf e.task
  let machine := s.machineLabel e.machine
  let placed := Entry.placed task machine e.start e.finish p.score
  if s.costs.feasible e.task e.machine.toNat then [placed]
  else [.placedTooSmall task machine, placed]

/-- What is noted of a schedule. -/
def entries (s : Schedule α) : List (Entry α) :=
  s.allocation.placements.flatMap s.placementEntries ++
    [.planned s.workflow.size s.machines.length s.makespan]

/-- The transfer time that is paid: that of the edges between two machines. -/
def communicationCost (s : Schedule α) : α :=
  let machineOf (task : Int) := (s.events.get? task).map Event.machine
  Quantity.running <| (s.costs.transfer.entries.filter fun ((p, c), _) =>
    machineOf p ≠ machineOf c).map Prod.snd

end Schedule

/-! ## Planning

A plan is made in two phases. First the tasks are put in order: the estimator gives their costs,
the costs give their ranks, and the ranks give the order. Then they are allocated to machines in
that order. Everything that can be wrong with a workflow is found in the first phase, before any
task has a place.
-/

namespace Planning

variable {α : Type} [Quantity α]

/-- Plans a workflow on some machines. -/
def plan (weights : Weights α) (w : Workflow α) (machines : List (Machine α)) :
    Planning α (Schedule α) := do
  if machines.isEmpty then throw (.fault .noMachinesToPlan)
  let costs ← costTable w machines
  let ranks ← upwardRanks w costs
  let order ← priorityOrder w ranks
  let allocation ← Allocation.placeAll w costs weights (.empty machines.length) order
  let schedule : Schedule α := ⟨w, machines, costs, ranks, order, allocation⟩
  schedule.entries.forM note
  return schedule

end Planning

end EarliestFinish
