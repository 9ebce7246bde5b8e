import EarliestFinish.CostTable

/-!
# Upward ranks

The rank of a task is its average cost plus the most that a child adds, which is the transfer time
to the child plus the rank of the child; a task without children has its average cost. So the rank
is the length of the longest path from the task to a task without children.

The ranks come from a walk over the child links. `Walk.step` does one of these:

* with nothing in progress, it enters the first task that has not been entered;
* it looks at the next child of the innermost task in progress: an unknown one and one that is in
  progress itself are faults, one that has not been entered is entered, any other is passed over;
* with no child left to look at, it gives the innermost task in progress its rank and leaves it; a
  task that the cost table has no row for is a fault.

Every step enters a task, takes away a child or leaves a task, so `Walk.work` falls and the walk
comes to an end.
-/

namespace EarliestFinish

variable {α : Type} [Quantity α]

/-- A task in progress, with the children that are not looked at yet. -/
structure Frame where
  task : Int
  pending : List Int

/-- The state of a walk. -/
structure Walk (α : Type) where
  /-- The tasks that have not been entered. -/
  unseen : List Int
  /-- The tasks in progress, innermost first. -/
  stack : List Frame
  ranks : Table Int α

namespace Walk

/-- What a step leads to. -/
inductive Outcome (α : Type)
  | onward (next : Walk α)
  | done (ranks : Table Int α)
  | stuck (fault : Fault α)

/-- The rank of a task whose children have theirs. -/
def rankOf (w : Workflow α) (c : CostTable α) (ranks : Table Int α) (t : Int) : α :=
  c.averageCost t +
    Quantity.largestOr 0
      ((w.childrenOf t).map fun child => c.transferCost t child + (ranks.get? child).getD 0)

/-- A task that is entered. -/
def enter (w : Workflow α) (t : Int) : Frame := ⟨t, w.childrenOf t⟩

/-- Whether a task is in progress. -/
def inProgress (walk : Walk α) (t : Int) : Bool := walk.stack.any fun f => f.task = t

/-- One step of a walk. -/
def step (w : Workflow α) (c : CostTable α) (walk : Walk α) : Outcome α :=
  match walk.stack with
  | [] =>
    match walk.unseen with
    | [] => .done walk.ranks
    | root :: unseen => .onward { walk with unseen, stack := [enter w root] }
  | ⟨t, []⟩ :: outer =>
    if c.covers t then
      .onward { walk with stack := outer, ranks := walk.ranks.insert t (rankOf w c walk.ranks t) }
    else .stuck (.noCosts t c.estimates.length)
  | ⟨t, child :: pending⟩ :: outer =>
    if ¬ w.Holds child then .stuck (.unknownChild (w.labelOf t) child)
    else if walk.inProgress child then .stuck (.cycle (w.labelOf t) (w.labelOf child))
    else if child ∈ walk.unseen then
      .onward { walk with
        unseen := walk.unseen.erase child
        stack := enter w child :: ⟨t, pending⟩ :: outer }
    else .onward { walk with stack := ⟨t, pending⟩ :: outer }

/-- The sum of a count over a list. -/
def tally {β : Type} (count : β → Nat) : List β → Nat
  | [] => 0
  | x :: xs => count x + tally count xs

/-- A bound on the steps that are left: one for each child to look at and one to leave each task
in progress, and one more to enter each task that has not been entered. -/
def work (w : Workflow α) (walk : Walk α) : Nat :=
  tally (fun t => (w.childrenOf t).length + 2) walk.unseen +
    tally (fun f => f.pending.length + 1) walk.stack

theorem tally_erase {xs : List Int} {x : Int} (h : x ∈ xs) (count : Int → Nat) :
    tally count (xs.erase x) + count x = tally count xs := by
  induction xs with
  | nil => cases h
  | cons y ys ih =>
    by_cases hy : y = x
    · subst hy
      simp [tally, Nat.add_comm]
    · obtain hx | hx := List.mem_cons.1 h
      · exact absurd hx.symm hy
      · rw [List.erase_cons_tail (by simpa using hy), tally, tally, Nat.add_assoc, ih hx]

/-- Every step leaves less to do. -/
theorem work_step_lt {w : Workflow α} {c : CostTable α} {walk next : Walk α}
    (h : walk.step w c = .onward next) : next.work w < walk.work w := by
  unfold step at h
  split at h
  · next hs =>
    split at h
    · cases h
    · next hu =>
      cases h
      simp only [work, hs, hu, tally, enter]
      omega
  · next hs =>
    split at h
    · cases h
      simp [work, hs, tally]
    · cases h
  · next t child pending outer hs =>
    split at h
    · cases h
    · split at h
      · cases h
      · split at h
        · next hmem =>
          cases h
          have := tally_erase hmem fun t => (w.childrenOf t).length + 2
          simp only [work, hs, tally, enter, List.length_cons] at this ⊢
          omega
        · cases h
          simp [work, hs, tally]

/-- Walks to the end. -/
def run (w : Workflow α) (c : CostTable α) (walk : Walk α) : Except (Fault α) (Table Int α) :=
  match _h : walk.step w c with
  | .onward next => run w c next
  | .done ranks => .ok ranks
  | .stuck fault => .error fault
termination_by walk.work w
decreasing_by exact work_step_lt _h

/-- A walk before its first step. -/
def start (w : Workflow α) : Walk α := ⟨w.positions, [], {}⟩

end Walk

/-- The ranks of all tasks. -/
def upwardRanks (w : Workflow α) (c : CostTable α) : Except (Fault α) (Table Int α) :=
  (Walk.start w).run w c

end EarliestFinish
