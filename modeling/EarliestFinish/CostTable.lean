import EarliestFinish.Planning
import EarliestFinish.Quantity.Sum
import EarliestFinish.StableSort
import EarliestFinish.Table
import EarliestFinish.Workflow

/-!
# Cost tables

A cost table says how long every task runs on every machine and how long every edge takes between
two machines. A machine with too few cores has no estimate for a task. The *infeasible cost* stands
in for it: a finite number, ten times more than any schedule of feasible placements can take, since
such a schedule ends no later than one that runs every task at its slowest and pays for every
transfer, one after the other. So averages and comparisons keep working.
-/

namespace EarliestFinish

/-! ## Transfer times

A child that runs on another machine than its parent waits until the files that it reads and the
parent writes are moved. The time for that is their total size over the mean bandwidth of the
machines. Every file that the parent lists counts, and a name that the child lists twice counts
once.
-/

variable {α : Type} [Quantity α]

/-- The mean bandwidth of some machines. -/
def averageBandwidth (machines : List (Machine α)) : Except (Fault α) α :=
  if machines.isEmpty then .error .noMachines
  else .ok (Quantity.mean (machines.map Machine.bandwidth))

/-- The total size of the files that one task writes and another reads. -/
def sharedSize (parent child : Task α) : α :=
  let names := child.inputs.map File.name
  Quantity.running ((parent.outputs.filter fun f => f.name ∈ names).map File.size)

/-- The time that a number of bytes takes; zero if either number is not positive. -/
def transferTime (bandwidth size : α) : α :=
  if 0 < size ∧ 0 < bandwidth then size / bandwidth else 0

/-- The transfer times of some edges, added to those that are known. -/
def addTransfers (w : Workflow α) (bandwidth : α) (known : Table (Int × Int) α) :
    List (Int × Int) → Except (Fault α) (Table (Int × Int) α)
  | [] => .ok known
  | (p, c) :: edges => do
    if w.Holds c then
      let time := transferTime bandwidth (sharedSize (← w.task p) (← w.task c))
      addTransfers w bandwidth (known.insert (p, c) time) edges
    else throw (.unknownChild (w.labelOf p) c)

/-- The transfer times of all edges of a workflow, in the order of the edges. -/
def transferTable (w : Workflow α) (bandwidth : α) : Except (Fault α) (Table (Int × Int) α) :=
  addTransfers w bandwidth {} w.edges

/-! ## Estimates and costs -/

/-- The estimate of each task on each machine, none where the machine has too few cores. -/
abbrev Estimates (α : Type) := List (List (Option α))

/-- The costs of tasks and transfers. -/
structure CostTable (α : Type) where
  estimates : Estimates α
  /-- The transfer time of each edge. -/
  transfer : Table (Int × Int) α
  averageBandwidth : α
  /-- What a placement on a machine with too few cores counts as. -/
  infeasibleCost : α

variable {α : Type} [Quantity α]

/-- The slowest feasible estimate of a row; an infeasible one counts as zero. -/
def slowest (row : List (Option α)) : α := Quantity.highest (row.map fun x => x.getD 0)

/-- The infeasible cost for some estimates and transfer times. -/
def infeasibleCostOf (estimates : Estimates α) (transfer : Table (Int × Int) α) : α :=
  (Quantity.total (estimates.map slowest) + Quantity.running transfer.values + 1.0) * 10.0

namespace CostTable

/-- The estimates of a task. -/
def rowOf (c : CostTable α) (task : Int) : List (Option α) :=
  ((position? c.estimates.length task).bind (c.estimates[·]?)).getD []

/-- Whether there is a row for a task. -/
def covers (c : CostTable α) (task : Int) : Bool := (position? c.estimates.length task).isSome

/-- The durations of a row, the infeasible cost filled in. -/
def fill (c : CostTable α) (row : List (Option α)) : List α :=
  row.map fun x => x.getD c.infeasibleCost

/-- The durations of all tasks on all machines. -/
def durations (c : CostTable α) : List (List α) := c.estimates.map c.fill

/-- The duration of a task on a machine. -/
def duration (c : CostTable α) (task : Int) (machine : Nat) : α :=
  ((c.rowOf task)[machine]?.join).getD c.infeasibleCost

/-- Whether a machine has the cores for a task. -/
def feasible (c : CostTable α) (task : Int) (machine : Nat) : Bool :=
  (c.rowOf task)[machine]?.join.isSome

/-- Whether some machine has the cores for a task. -/
def fitsSomewhere (c : CostTable α) (task : Int) : Bool := (c.rowOf task).any Option.isSome

/-- The mean duration of a task over all machines. -/
def averageCost (c : CostTable α) (task : Int) : α := Quantity.mean (c.fill (c.rowOf task))

/-- The transfer time of a pair of tasks; zero unless they are an edge. -/
def transferCost (c : CostTable α) (parent child : Int) : α :=
  (c.transfer.get? (parent, child)).getD 0

/-- The edges with their transfer times in ascending order. -/
def transfers (c : CostTable α) : List ((Int × Int) × α) := sortPairs Prod.fst c.transfer.entries

/-- A table of given durations and transfer times in which every machine is feasible; there must be
equally many durations for all tasks. -/
def ofDurations (durations : List (List α)) (transfer : Table (Int × Int) α) :
    Except (Fault α) (CostTable α) :=
  let width := (durations.head?.getD []).length
  if durations.all fun row => row.length == width then
    .ok ⟨durations.map fun row => row.map some, transfer, 1, 0⟩
  else .error (.unequalRows durations.length)

end CostTable

namespace Planning

/-- The estimate of a task on a machine, if the machine has the cores for it. -/
def estimateCell (task : Task α) (machine : Machine α) : Planning α (Option α) := do
  if machine.fits task then return some (← ask task machine) else return none

/-- The estimates of a task; it is noted if it fits on no machine. -/
def estimateRow (machines : List (Machine α)) (task : Task α) :
    Planning α (List (Option α)) := do
  let row ← machines.mapM (estimateCell task)
  if row.all Option.isNone then note (.fitsNowhere task.label task.cores)
  return row

/-- The estimates of all tasks, task by task. -/
def estimateAll (w : Workflow α) (machines : List (Machine α)) : Planning α (Estimates α) := do
  if machines.isEmpty then throw (.fault .noMachines)
  w.tasks.mapM (estimateRow machines)

/-- The transfer times of a workflow; it is noted if they are all zero for want of bandwidth. -/
def transferTimes (w : Workflow α) (bandwidth : α) : Planning α (Table (Int × Int) α) := do
  if bandwidth ≤ 0 then note (.freeTransfers bandwidth)
  transferTable w bandwidth

/-- The cost table of a workflow on some machines. -/
def costTable (w : Workflow α) (machines : List (Machine α)) : Planning α (CostTable α) := do
  let estimates ← estimateAll w machines
  let bandwidth ← averageBandwidth machines
  let transfer ← transferTimes w bandwidth
  return ⟨estimates, transfer, bandwidth, infeasibleCostOf estimates transfer⟩

end Planning

end EarliestFinish
