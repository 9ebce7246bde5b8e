import EarliestFinish.Quantity.Basic
import EarliestFinish.Quantity.Sum
import EarliestFinish.Table

/-!
# Lanes

The lane of a machine is the list of its events in the order of time. A task is put into a lane
at the earliest gap that holds it, found by looking back from the end:

* the window behind the last event is always there;
* a gap between two events that holds the task from the end of the first of them takes the place
  of any window found before;
* the search stops at the first pair whose earlier event is over before the task is ready, where
  the task may still fit from its ready time;
* the window before the first event beats every other.
-/

namespace EarliestFinish

/-- A stretch of time on a machine that is given to a task. -/
structure Event (α : Type) where
  task : Int
  start : α
  finish : α
  machine : Int
  deriving DecidableEq

/-- The length of an event. -/
def Event.length {α : Type} [Quantity α] (e : Event α) : α := e.finish - e.start

/-- A place in a lane and the time at which it begins. -/
structure Slot (α : Type) where
  position : Nat
  start : α
  deriving DecidableEq

/-- The events of one machine. -/
structure Lane (α : Type) where
  machine : Int
  events : List (Event α) := []

namespace Lane

variable {α : Type} [Quantity α]

/-- Looks for a gap between two events, from the last pair back; the events stand latest first.
`best` is the window to fall back on. -/
def searchBack (ready duration : α) : List (Event α) → Slot α → Slot α
  | current :: previous :: earlier, best =>
    let here := earlier.length + 1
    if previous.finish < ready then
      if ready + duration ≤ current.start then ⟨here, ready⟩ else best
    else
      searchBack ready duration (previous :: earlier)
        (if previous.finish + duration ≤ current.start then ⟨here, previous.finish⟩ else best)
  | _, best => best

/-- The slot for a task that is ready at some time and takes some duration. -/
def findSlot (ready duration : α) : List (Event α) → Slot α
  | [] => ⟨0, ready⟩
  | [only] =>
    if only.finish ≤ ready then ⟨1, ready⟩
    else if ready + duration ≤ only.start then ⟨0, ready⟩
    else ⟨1, only.finish⟩
  | first :: second :: later =>
    let last := (second :: later).getLast (by simp)
    let behind : Slot α := ⟨later.length + 2, Quantity.larger ready last.finish⟩
    let best := searchBack ready duration (first :: second :: later).reverse behind
    if ready + duration ≤ first.start then ⟨0, ready⟩ else best

/-- The slot that a lane has for a task. -/
def slot (lane : Lane α) (ready duration : α) : Slot α := findSlot ready duration lane.events

/-- The event that a slot gives to a task. -/
def eventAt (lane : Lane α) (s : Slot α) (task : Int) (duration : α) : Event α :=
  ⟨task, s.start, s.start + duration, lane.machine⟩

/-- The task of an event that is only asked about. -/
def noTask : Int := -1

/-- The event that a task would get. -/
def query (lane : Lane α) (ready duration : α) : Event α :=
  lane.eventAt (lane.slot ready duration) noTask duration

/-- The event that a task gets. -/
def offer (lane : Lane α) (task : Int) (ready duration : α) : Event α :=
  lane.eventAt (lane.slot ready duration) task duration

/-- The lane with a task in its slot. -/
def commit (lane : Lane α) (task : Int) (ready duration : α) : Lane α :=
  { lane with
    events := lane.events.insertIdx (lane.slot ready duration).position
      (lane.offer task ready duration) }

/-- The time for which a machine runs tasks. -/
def busyTime (events : List (Event α)) : α := Quantity.running (events.map Event.length)

end Lane

/-! ## Rosters

A roster lists the events of several machines. It need not come from a plan: the machines may
stand in any order, and so may the events of one machine.
-/

/-- The events of each machine. -/
abbrev Roster (α : Type) := Table Int (List (Event α))

namespace Roster

variable {α : Type} [Quantity α]

/-- The roster of some lanes. -/
def ofLanes (lanes : List (Lane α)) : Roster α :=
  ⟨lanes.map fun lane => (lane.machine, lane.events)⟩

/-- The events of all machines. -/
def events (r : Roster α) : List (Event α) := r.values.flatten

/-- The latest finish; zero if there are no events. -/
def makespan (r : Roster α) : α := Quantity.largestOr 0 (r.events.map Event.finish)

/-- The time for which each machine runs tasks. -/
def busy (r : Roster α) : List (Int × α) :=
  r.entries.map fun (machine, events) => (machine, Lane.busyTime events)

/-- The mean time at which tasks start; zero if there are none. -/
def waitingTime (r : Roster α) : α :=
  match r.events with
  | [] => 0
  | events => Quantity.mean (events.map Event.start)

end Roster

end EarliestFinish
