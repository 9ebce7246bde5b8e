import EarliestFinish.Schedule

/-!
# Metrics

The figures by which a roster is judged, the idle times of its machines and the spread of their
busy times, and the summary of a schedule.
-/

namespace EarliestFinish

/-! ## Idle time

A machine is idle from zero to its first event, between the end of an event and the start of the
next one, and from the end of its last event to the makespan. The events are taken in the order of
their starts, and a gap that is negative counts for nothing.
-/

/-- The idle time of a roster. -/
structure Idle (α : Type) where
  makespan : α
  total : α
  perMachine : List (Int × α)

namespace Idle

variable {α : Type} [Quantity α]

/-- Adds to a time the gaps between neighbouring events and the gap from the last to the end. -/
def addGaps (makespan : α) : α → List (Event α) → α
  | idle, a :: b :: later =>
    addGaps makespan (idle + Quantity.larger 0 (b.start - a.finish)) (b :: later)
  | idle, [last] => idle + Quantity.larger 0 (makespan - last.finish)
  | idle, [] => idle

/-- The idle time of one machine. -/
def ofEvents (makespan : α) (events : List (Event α)) : α :=
  match sortBy Event.start events with
  | [] => makespan
  | first :: later => addGaps makespan first.start (first :: later)

end Idle

/-- The idle time of every machine of a roster. -/
def Roster.idle {α : Type} [Quantity α] (r : Roster α) : Idle α :=
  let perMachine := r.entries.map fun (machine, events) =>
    (machine, Idle.ofEvents r.makespan events)
  { makespan := r.makespan
    total := Quantity.running (perMachine.map Prod.snd)
    perMachine }

/-! ## Load balance

How evenly the busy times of the machines are spread:

* the *variation* is their standard deviation over their mean;
* the *imbalance* is the longest busy time over the shortest, unbounded if some machine is never
  busy while another is;
* the *fairness* is the square of their sum over their number times the sum of their squares,
  which is one for equal busy times and falls to `1 / n` when one of `n` machines does all.

Where a divisor is not positive, the load counts as even: variation zero, the others one.
-/

/-- The longest busy time over the shortest. -/
inductive Imbalance (α : Type)
  | ratio (value : α)
  /-- Some machine is never busy while another is. -/
  | unbounded
  deriving DecidableEq

/-- The spread of the busy times of some machines. -/
structure LoadBalance (α : Type) where
  busy : List (Int × α)
  variation : α
  imbalance : Imbalance α
  fairness : α

namespace LoadBalance

open Quantity

variable {α : Type} [Quantity α]

/-- The coefficient of variation of some busy times. -/
def variationOf [SquareRoot α] (busy : List α) : α :=
  if 0 < mean busy then deviation busy / mean busy else 0

/-- The imbalance of some busy times. -/
def imbalanceOf (busy : List α) : Imbalance α :=
  if 0 < lowest busy then .ratio (highest busy / lowest busy)
  else if 0 < highest busy then .unbounded
  else .ratio 1

/-- The fairness of some busy times; the square of their sum must not be too large. -/
def fairnessOf (busy : List α) : Except (Fault α) α :=
  let denominator := (busy.length : α) * total (busy.map fun x => x * x)
  if 0 < denominator then
    match square? (total busy) with
    | some square => .ok (square / denominator)
    | none => .error .squareTooLarge
  else .ok 1

end LoadBalance

namespace Roster

variable {α : Type} [Quantity α]

/-- The load balance of a roster. -/
def loadBalance [SquareRoot α] (r : Roster α) : Except (Fault α) (LoadBalance α) := do
  let busy := r.busy.map Prod.snd
  return { busy := r.busy
           variation := LoadBalance.variationOf busy
           imbalance := LoadBalance.imbalanceOf busy
           fairness := ← LoadBalance.fairnessOf busy }

/-- The makespan over the mean busy time; zero if no machine is busy. It is one if every machine
is busy all the time, and it is given only for a load whose fairness can be told. -/
def loadRatio (r : Roster α) : Except (Fault α) α := do
  let busy := r.busy.map Prod.snd
  let _ ← LoadBalance.fairnessOf busy
  let average := Quantity.running busy / (busy.length : α)
  return if 0 < average then r.makespan / average else 0

end Roster

/-! ## Summaries -/

/-- The figures of a schedule. -/
structure Summary (α : Type) where
  makespan : α
  totalIdle : α
  loadRatio : α
  loadVariation : α
  loadImbalance : Imbalance α
  fairness : α
  communicationCost : α
  waitingTime : α

/-- The summary of a schedule. -/
def Schedule.summary {α : Type} [Quantity α] [SquareRoot α] (s : Schedule α) :
    Except (Fault α) (Summary α) := do
  let idle := s.roster.idle
  let load ← s.roster.loadBalance
  return { makespan := idle.makespan
           totalIdle := idle.total
           loadRatio := ← s.roster.loadRatio
           loadVariation := load.variation
           loadImbalance := load.imbalance
           fairness := load.fairness
           communicationCost := s.communicationCost
           waitingTime := s.roster.waitingTime }

end EarliestFinish
