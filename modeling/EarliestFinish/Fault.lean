import EarliestFinish.Decimal
import EarliestFinish.Text

/-!
# Faults

Everything that can keep a question from being answered. A fault says what is wrong in terms of
the workflow, the machines and the settings; `Fault.message` puts it in words, and `Fault.kind`
sorts the faults into the few families that a caller tells apart.

A task that needs more cores than any machine has is no fault, and neither is a predictor that
fails: the planner deals with both.
-/

namespace EarliestFinish

/-- One of the two weights of a placement's score. -/
inductive WeightName
  | alpha
  | beta
  deriving DecidableEq

/-- The name of a weight. -/
def WeightName.text : WeightName → String
  | .alpha => "alpha"
  | .beta => "beta"

/-- Why a question has no answer. -/
inductive Fault (α : Type)
  /-- Costs are asked for an empty list of machines. -/
  | noMachines
  /-- A plan is asked for an empty list of machines. -/
  | noMachinesToPlan
  /-- A dependency names a position outside the workflow. -/
  | unknownDependency (parent child : Int)
  /-- A dependency names one task twice. -/
  | selfDependency (task : Label)
  /-- A child link leads out of the workflow. -/
  | unknownChild (task : Label) (child : Int)
  /-- A parent link leads out of the workflow. -/
  | unknownParent (task : Label) (parent : Int)
  /-- A child link leads back to a task on the way to it. -/
  | cycle (task child : Label)
  /-- The parents of these tasks never all come first. -/
  | blocked (tasks : List Label)
  /-- A task is asked about before one of its parents has a place. -/
  | parentNotScheduled (parent task : Label)
  | badWeight (name : WeightName) (value : α)
  | noWeight
  | badTimeout (value : α)
  | unknownEstimator (name : String)
  | unknownFileRole (name : String)
  | divisionByZero
  /-- The square of a finite number is not finite. -/
  | squareTooLarge
  /-- A position beyond either end of a list. -/
  | noSuchPosition
  /-- A task beyond the rows of a cost table. -/
  | noCosts (task : Int) (rows : Nat)
  /-- The rows of a cost table differ in length. -/
  | unequalRows (rows : Nat)
  deriving DecidableEq, Inhabited

namespace Fault

/-- The families of faults. -/
inductive Kind
  | emptyMachineList
  | malformedGraph
  | configuration
  | division
  | overflow
  | position
  | value
  deriving DecidableEq

variable {α : Type}

/-- The family of a fault. -/
def kind : Fault α → Kind
  | noMachines | noMachinesToPlan => .emptyMachineList
  | unknownDependency .. | selfDependency .. | unknownChild .. | unknownParent .. | cycle ..
  | blocked .. | parentNotScheduled .. => .malformedGraph
  | badWeight .. | noWeight | badTimeout .. | unknownEstimator .. => .configuration
  | unknownFileRole .. | unequalRows .. => .value
  | divisionByZero => .division
  | squareTooLarge => .overflow
  | noSuchPosition | noCosts .. => .position

/-- A fault in words. -/
def message : Fault Float → String
  | noMachines => "at least one machine is required"
  | noMachinesToPlan => "cannot plan without machines"
  | unknownDependency parent child =>
    "dependency " ++ Decimal.intText parent ++ "->" ++ Decimal.intText child ++
      " references an unknown task"
  | selfDependency task => "task " ++ task.quoted ++ " cannot depend on itself"
  | unknownChild task child =>
    "task " ++ task.quoted ++ " links to unknown child index " ++ Decimal.intText child
  | unknownParent task parent =>
    "task " ++ task.quoted ++ " links to unknown parent index " ++ Decimal.intText parent
  | cycle task child => "cycle through tasks " ++ task.quoted ++ " -> " ++ child.quoted
  | blocked tasks =>
    "parent links of tasks " ++ Label.listed tasks ++
      " are cyclic or inconsistent with child links"
  | parentNotScheduled parent task =>
    "parent " ++ parent.quoted ++ " of task " ++ task.quoted ++ " is not scheduled yet"
  | badWeight name value =>
    name.text ++ " must be a finite non-negative number, got " ++ Decimal.shortest value
  | noWeight => "alpha + beta must be positive"
  | badTimeout value =>
    "predictor timeout must be positive, got " ++ Decimal.shortest value
  | unknownEstimator name =>
    "unknown estimator " ++ Text.quoted name ++ "; available: " ++
      Label.listed [.text "learned", .text "static"]
  | unknownFileRole name => Text.quoted name ++ " is not a valid FileType"
  | divisionByZero => "float division by zero"
  | squareTooLarge => "(34, 'Numerical result out of range')"
  | noSuchPosition => "list index out of range"
  | noCosts task rows =>
    "index " ++ Decimal.intText task ++ " is out of bounds for axis 0 with size " ++
      Decimal.intText rows
  | unequalRows rows =>
    "setting an array element with a sequence. The requested array has an inhomogeneous shape " ++
      "after 1 dimensions. The detected shape was (" ++ Decimal.intText rows ++
      ",) + inhomogeneous part."

end Fault

end EarliestFinish
