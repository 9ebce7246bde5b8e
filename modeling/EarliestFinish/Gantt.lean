import EarliestFinish.Schedule

/-!
# Gantt charts

A chart has a lane for every machine, idle ones included, and a bar for every event. A bar carries
the label of its task, in its middle, if it is wide enough: more than a fiftieth of the makespan,
or of one if the makespan is zero.
-/

namespace EarliestFinish

/-- A bar in a lane of a chart. -/
structure Bar (α : Type) where
  lane : Nat
  left : α
  width : α

/-- A label in a lane of a chart. -/
structure BarLabel (α : Type) where
  x : α
  lane : Nat
  text : String

/-- What is drawn of a schedule. -/
structure Gantt (α : Type) where
  title : String
  height : α
  bars : List (Bar α)
  labels : List (BarLabel α)
  lanes : List Nat
  laneNames : List String
  bottom : α
  top : α

namespace Gantt

variable {α : Type} [Quantity α]

/-- The title of a chart when none is given. -/
def defaultTitle : String := "Schedule"

/-- The time against which the width of a bar is held. -/
def horizon (makespan : α) : α := if Quantity.isZero makespan then 1.0 else makespan

/-- The bar of an event. -/
def barOf (lane : Nat) (e : Event α) : Bar α := ⟨lane, e.start, e.length⟩

/-- The label of an event, if its bar is wide enough. -/
def labelOf? (s : Schedule α) (lane : Nat) (e : Event α) : Option (BarLabel α) :=
  if 0.02 * horizon s.makespan < e.length then
    some ⟨e.start + e.length / 2.0, lane, (s.workflow.labelOf e.task).plain⟩
  else none

/-- The chart of a schedule, drawn from a roster that may lack some of its machines. -/
def ofRoster (s : Schedule α) (roster : Roster α) (title : Option String) : Gantt α :=
  let lanes := List.range s.machines.length
  let drawn := lanes.flatMap fun (m : Nat) => ((roster.get? m).getD []).map fun e => (m, e)
  { title := title.getD defaultTitle
    height := 0.35 * (s.machines.length : α) + 1.5
    bars := drawn.map fun (m, e) => barOf m e
    labels := drawn.filterMap fun (m, e) => labelOf? s m e
    lanes
    laneNames := s.machines.map fun m => m.label.plain
    bottom := 0 - 0.5
    top := (s.machines.length : α) - 0.5 }

/-- The chart of a schedule. -/
def ofSchedule (s : Schedule α) (title : Option String) : Gantt α := ofRoster s s.roster title

end Gantt

end EarliestFinish
