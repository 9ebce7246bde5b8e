import EarliestFinish.Quantity.Basic
import EarliestFinish.StableSort
import EarliestFinish.Table
import EarliestFinish.Workflow

/-!
# Priority

Tasks are planned by descending rank; of equal ranks, the task that comes first in the workflow
does. Where a task ties with one of its parents the rank alone may put the child first. So a task
is held back until all its parents are out, and whenever a task comes out, those that are held are
looked through again, longest held first.
-/

namespace EarliestFinish

variable {α : Type} [Quantity α]

/-- The tasks by descending rank, equal ranks in ascending order. -/
def rankOrder (ranks : Table Int α) : List Int :=
  (sortByDescending Prod.snd (sortBy Prod.fst ranks.entries)).map Prod.fst

/-- The tasks that are held back and those that are out, each in the order in which they came. -/
structure Gate where
  held : List Int := []
  out : List Int := []

namespace Gate

/-- Whether all parents of a task are out. -/
def clears (parents : Int → List Int) (out : List Int) (t : Int) : Bool :=
  (parents t).all (· ∈ out)

/-- Lets out the first held task whose parents are all out, until there is none. -/
def release (parents : Int → List Int) (g : Gate) : Gate :=
  match _h : g.held.find? (clears parents g.out) with
  | some t => release parents ⟨g.held.erase t, g.out ++ [t]⟩
  | none => g
termination_by g.held.length
decreasing_by
  have hm := List.mem_of_find?_eq_some _h
  have := List.length_erase_of_mem hm
  have := List.length_pos_of_mem hm
  omega

/-- Lets a task in behind those that are held, and out whatever can go. -/
def receive (parents : Int → List Int) (g : Gate) (t : Int) : Gate :=
  release parents { g with held := g.held ++ [t] }

end Gate

/-- Whether a task has a place in the workflow and its parent links lead into the workflow. -/
def checkParents (w : Workflow α) (t : Int) : Except (Fault α) Unit := do
  let task ← w.task t
  match task.parents.find? fun p => ¬ w.Holds p with
  | some p => throw (.unknownParent task.label p)
  | none => return

/-- Lets some tasks through a gate. -/
def passGate (w : Workflow α) (g : Gate) : List Int → Except (Fault α) Gate
  | [] => .ok g
  | t :: ts => do
    checkParents w t
    passGate w (g.receive w.parentsOf t) ts

/-- The tasks by descending rank, each behind all its parents. -/
def priorityOrder (w : Workflow α) (ranks : Table Int α) : Except (Fault α) (List Int) := do
  let g ← passGate w {} (rankOrder ranks)
  if g.held.isEmpty then return g.out else throw (.blocked (g.held.map w.labelOf))

end EarliestFinish
