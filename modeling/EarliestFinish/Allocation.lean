import EarliestFinish.CostTable
import EarliestFinish.Lane
import EarliestFinish.Weights

/-!
# Allocation

Tasks are given to machines one by one, and a placement is never taken back. A task is ready on a
machine when each of its parents has finished and, if the parent ran elsewhere, its files have been
moved. Every candidate machine offers the slot of its lane for that time, and the offer of the
least score is taken, the first of several. Candidates are the machines with enough cores, or all
of them if none has enough.

Only a score below the top of the numbers can win. If there is none, the last machine gets the
task, as if it were ready at zero.
-/

namespace EarliestFinish

variable {α : Type} [Quantity α]

/-- A task in its place. -/
structure Placement (α : Type) where
  event : Event α
  /-- The score that won, unless no score was below the top. -/
  score : Option α

/-- The events and workloads of some machines. -/
structure Allocation (α : Type) where
  lanes : List (Lane α)
  /-- The time that each machine was given to work. -/
  workload : List α
  /-- The placements in the order in which they were made. -/
  placements : List (Placement α) := []

/-- What a machine offers to a task. -/
structure Offer (α : Type) where
  machine : Nat
  ready : α
  score : α

/-- The events of some placements, by task. -/
def scheduleOf (placements : List (Placement α)) : Table Int (Event α) :=
  ⟨placements.map fun p => (p.event.task, p.event)⟩

/-- When the files of a parent are on a machine. -/
def arrival (c : CostTable α) (task parent machine : Int) (e : Event α) : α :=
  if e.machine = machine then e.finish else e.finish + c.transferCost parent task

/-- The latest of a time and the arrivals from some parents of a task. -/
def latestArrival (w : Workflow α) (c : CostTable α) (scheduled : Table Int (Event α))
    (task machine : Int) (ready : α) : List Int → Except (Fault α) α
  | [] => .ok ready
  | p :: parents =>
    if w.Holds p then
      match scheduled.get? p with
      | some e =>
        latestArrival w c scheduled task machine
          (Quantity.larger ready (arrival c task p machine e)) parents
      | none => .error (.parentNotScheduled (w.labelOf p) (w.labelOf task))
    else .error (.unknownParent (w.labelOf task) p)

/-- When a task is ready on a machine. -/
def readyTime (w : Workflow α) (c : CostTable α) (scheduled : Table Int (Event α))
    (task machine : Int) : Except (Fault α) α := do
  let t ← w.task task
  latestArrival w c scheduled task machine 0 t.parents

/-- The better of the best offer so far and the next one. -/
def betterOffer : Option (Offer α) → Offer α → Option (Offer α)
  | none, o => if Quantity.belowTop o.score then some o else none
  | some best, o => if o.score < best.score then some o else some best

/-- The first offer of the least score, if a score is below the top. -/
def bestOffer (offers : List (Offer α)) : Option (Offer α) := offers.foldl betterOffer none

namespace Allocation

/-- Empty lanes for a number of machines. -/
def empty (machines : Nat) : Allocation α where
  lanes := (List.range machines).map fun (m : Nat) => ⟨m, []⟩
  workload := List.replicate machines 0

/-- The lane of a machine. -/
def lane (a : Allocation α) (m : Nat) : Lane α := a.lanes[m]?.getD ⟨m, []⟩

/-- The workload of a machine. -/
def load (a : Allocation α) (m : Nat) : α := a.workload[m]?.getD 0

/-- The machines that a task may go to. -/
def candidates (a : Allocation α) (c : CostTable α) (task : Int) : List Nat :=
  (List.range a.lanes.length).filter fun m => !c.fitsSomewhere task || c.feasible task m

/-- What a machine offers to a task. -/
def offer (a : Allocation α) (w : Workflow α) (c : CostTable α) (weights : Weights α)
    (task : Int) (m : Nat) : Except (Fault α) (Offer α) := do
  let ready ← readyTime w c (scheduleOf a.placements) task m
  let finish := ((a.lane m).query ready (c.duration task m)).finish
  return ⟨m, ready, weights.score finish (a.load m)⟩

/-- The allocation with a task committed to a machine. -/
def commit (a : Allocation α) (task : Int) (m : Nat) (ready duration : α) (score : Option α) :
    Allocation α where
  lanes := a.lanes.modify m fun lane => lane.commit task ready duration
  workload := a.workload.modify m (· + duration)
  placements := a.placements ++ [⟨(a.lane m).offer task ready duration, score⟩]

/-- Gives a task to the machine of the best offer. -/
def place (w : Workflow α) (c : CostTable α) (weights : Weights α) (a : Allocation α)
    (task : Int) : Except (Fault α) (Allocation α) := do
  let offers ← (a.candidates c task).mapM (a.offer w c weights task)
  match bestOffer offers with
  | some o => return a.commit task o.machine o.ready (c.duration task o.machine) (some o.score)
  | none =>
    let last := a.lanes.length - 1
    return a.commit task last 0 (c.duration task last) none

/-- Gives some tasks to machines, one after the other. -/
def placeAll (w : Workflow α) (c : CostTable α) (weights : Weights α) (a : Allocation α) :
    List Int → Except (Fault α) (Allocation α)
  | [] => .ok a
  | t :: ts => do placeAll w c weights (← a.place w c weights t) ts

end Allocation

end EarliestFinish
