import EarliestFinish.Fault
import EarliestFinish.Quantity.Basic
import EarliestFinish.StableSort

/-!
# Workflows and machines

A workflow is a list of tasks. A task has a length, a number of cores, the files that it reads
and writes, and two lists of links to other tasks by position: its parents, which come before it,
and its children, which come after it.

`connect` records a dependency on both sides, checked and once. `linkChild` and `linkParent`
record one side as it is given, so links may also dangle, repeat or lack their other side.
-/

namespace EarliestFinish

/-! ## Positions

Tasks and machines refer to each other by position. A look-up also counts from the end: `-1` is
the last element, `-2` the one before it. Beyond either end there is nothing.
-/

/-- The place in a list of `n` elements that a position names, from either end. -/
def position? (n : Nat) (i : Int) : Option Nat :=
  let j := if i < 0 then i + n else i
  if 0 ≤ j ∧ j < n then some j.toNat else none

/-- The element at a position, from either end. -/
def elementAt {α β : Type} (xs : List β) (i : Int) : Except (Fault α) β :=
  match (position? xs.length i).bind (xs[·]?) with
  | some x => .ok x
  | none => .error .noSuchPosition

/-- A list changed at a position, from either end. -/
def changeAt {α β : Type} (xs : List β) (i : Int) (f : β → β) : Except (Fault α) (List β) :=
  match position? xs.length i with
  | some k => .ok (xs.modify k f)
  | none => .error .noSuchPosition

@[simp] theorem position?_natCast {n k : Nat} (h : k < n) : position? n k = some k := by
  unfold position?; grind

/-! ## Tasks and machines -/

/-- What a task does with a file. -/
inductive FileRole
  | input
  | output
  deriving DecidableEq

/-- The role with a given name. -/
def FileRole.ofName {α : Type} : String → Except (Fault α) FileRole
  | "input" => .ok .input
  | "output" => .ok .output
  | name => .error (.unknownFileRole name)

/-- A file that a task reads or writes. -/
structure File (α : Type) where
  name : String
  size : α
  role : FileRole

/-- A task of a workflow. -/
structure Task (α : Type) where
  label : Label
  length : α
  cores : Int := 1
  parents : List Int := []
  children : List Int := []
  files : List (File α) := []

namespace Task

variable {α : Type}

/-- The files that a task reads. -/
def inputs (t : Task α) : List (File α) := t.files.filter fun f => f.role = .input

/-- The files that a task writes. -/
def outputs (t : Task α) : List (File α) := t.files.filter fun f => f.role = .output

end Task

/-- A machine to run tasks on. -/
structure Machine (α : Type) where
  label : Label
  speed : α
  cores : Int
  bandwidth : α

/-- A machine has one core and bandwidth one unless it is said otherwise. -/
def Machine.describe {α : Type} [Quantity α] (label : Label) (speed : α) (cores : Option Int)
    (bandwidth : Option α) : Machine α :=
  ⟨label, speed, cores.getD 1, bandwidth.getD 1⟩

/-- Whether a machine has the cores that a task needs. -/
def Machine.fits {α : Type} (machine : Machine α) (task : Task α) : Bool :=
  !(machine.cores < task.cores)

/-- Tasks that refer to each other by position. -/
structure Workflow (α : Type) where
  tasks : List (Task α) := []

namespace Workflow

variable {α : Type}

/-- The number of tasks. -/
def size (w : Workflow α) : Nat := w.tasks.length

/-- The positions of the tasks. -/
def positions (w : Workflow α) : List Int := (List.range w.size).map Int.ofNat

/-- Whether a link leads to a task of the workflow. -/
abbrev Holds (w : Workflow α) (i : Int) : Prop := 0 ≤ i ∧ i < w.size

/-- The task at a position, from either end, if there is one. -/
def task? (w : Workflow α) (i : Int) : Option (Task α) :=
  (position? w.size i).bind (w.tasks[·]?)

/-- The task at a position, from either end. -/
def task (w : Workflow α) (i : Int) : Except (Fault α) (Task α) := elementAt w.tasks i

/-- The label of the task at a position; the position itself where there is no task. -/
def labelOf (w : Workflow α) (i : Int) : Label :=
  match w.task? i with
  | some t => t.label
  | none => .number i

/-- The children of the task at a position; none where there is no task. -/
def childrenOf (w : Workflow α) (i : Int) : List Int :=
  match w.task? i with
  | some t => t.children
  | none => []

/-- The parents of the task at a position; none where there is no task. -/
def parentsOf (w : Workflow α) (i : Int) : List Int :=
  match w.task? i with
  | some t => t.parents
  | none => []

/-- A workflow with one more task, without links, at the end. -/
def add (w : Workflow α) (t : Task α) : Workflow α :=
  ⟨w.tasks ++ [{ t with parents := [], children := [] }]⟩

/-- A list with a link at its end, unless it is there already. -/
def withLink (links : List Int) (i : Int) : List Int := if i ∈ links then links else links ++ [i]

/-- Records a dependency in the child list of one task and the parent list of the other. -/
def connect (w : Workflow α) (parent child : Int) : Except (Fault α) (Workflow α) :=
  if w.Holds parent ∧ w.Holds child then do
    if parent = child then
      throw (.selfDependency (← w.task parent).label)
    let tasks ← changeAt w.tasks parent fun t => { t with children := withLink t.children child }
    let tasks ← changeAt tasks child fun t => { t with parents := withLink t.parents parent }
    return ⟨tasks⟩
  else throw (.unknownDependency parent child)

/-- Adds a link to the child list of a task, unchecked. -/
def linkChild (w : Workflow α) (task child : Int) : Except (Fault α) (Workflow α) :=
  Workflow.mk <$> changeAt w.tasks task fun t => { t with children := t.children ++ [child] }

/-- Adds a link to the parent list of a task, unchecked. -/
def linkParent (w : Workflow α) (task parent : Int) : Except (Fault α) (Workflow α) :=
  Workflow.mk <$> changeAt w.tasks task fun t => { t with parents := t.parents ++ [parent] }

/-- The child links of all tasks, by task and then by place in its list. -/
def edges (w : Workflow α) : List (Int × Int) :=
  w.tasks.zipIdx.flatMap fun (t, i) => t.children.map fun c => ((i : Int), c)

theorem exists_natCast {w : Workflow α} {i : Int} (h : w.Holds i) : ∃ k : Nat, k < w.size ∧ i = k :=
  ⟨i.toNat, by omega, by omega⟩

theorem task?_natCast (w : Workflow α) {k : Nat} (h : k < w.size) : w.task? k = w.tasks[k]? := by
  simp [task?, position?_natCast h]

theorem task_of_task? {w : Workflow α} {i : Int} {t : Task α} (h : w.task? i = some t) :
    w.task i = .ok t := by
  unfold task? size at h
  simp [task, elementAt, h]

/-- There is a task at every position that the workflow holds. -/
theorem exists_task {w : Workflow α} {i : Int} (h : w.Holds i) :
    ∃ t ∈ w.tasks, w.task? i = some t := by
  obtain ⟨k, hk, rfl⟩ := exists_natCast h
  unfold size at hk
  exact ⟨w.tasks[k], List.getElem_mem hk, by rw [task?_natCast w hk, List.getElem?_eq_getElem hk]⟩

end Workflow

/-! ## The directed graph of a workflow

The graph has the tasks for nodes and the child links for edges, each once. A link that dangles
brings in a node without a task.
-/

/-- A directed graph over positions, some of which have a task. -/
structure Digraph (α : Type) where
  nodes : List (Int × Option (Task α))
  edges : List (Int × Int)

/-- The graph of a workflow, nodes and edges in ascending order. -/
def Workflow.digraph {α : Type} (w : Workflow α) : Digraph α :=
  let tasks := w.tasks.zipIdx.map fun (t, i) => ((i : Int), some t)
  let dangling := (w.edges.map Prod.snd).filter fun c => ¬ w.Holds c
  { nodes := sortBy Prod.fst (tasks ++ dangling.eraseDups.map fun c => (c, none))
    edges := sortPairs id w.edges.eraseDups }

end EarliestFinish
