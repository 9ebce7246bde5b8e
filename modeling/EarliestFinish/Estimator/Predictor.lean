import EarliestFinish.Decimal
import EarliestFinish.Quantity.Basic
import EarliestFinish.Text
import EarliestFinish.Workflow

/-!
# Predictors

A predictor answers the question how long a task runs on a machine. It is asked with a row of four
features and may answer differently each time, so its answer depends on the number of questions
before. An answer is a number, a failure, or silence for as long as it is waited for.
-/

namespace EarliestFinish

/-- What a predictor is told about a task and a machine. -/
structure Features (α : Type) where
  length : α
  parents : Int
  speed : α
  cores : Int

/-- The features of a task on a machine. -/
def Features.ofPair {α : Type} (task : Task α) (machine : Machine α) : Features α :=
  ⟨task.length, task.parents.length, machine.speed, machine.cores⟩

/-- The families of failures of a predictor. -/
inductive FailureKind
  | runtime
  | value
  | system
  | timeout
  | key
  | arithmetic
  | division
  | overflow
  | position
  deriving DecidableEq

/-- The name of a family of failures. -/
def FailureKind.name : FailureKind → String
  | .runtime => "RuntimeError"
  | .value => "ValueError"
  | .system => "OSError"
  | .timeout => "TimeoutError"
  | .key => "KeyError"
  | .arithmetic => "ArithmeticError"
  | .division => "ZeroDivisionError"
  | .overflow => "OverflowError"
  | .position => "IndexError"

/-- The family with a given name. -/
def FailureKind.ofName? (name : String) : Option FailureKind :=
  [.runtime, .value, .system, .timeout, .key, .arithmetic, .division, .overflow,
    .position].find? fun k => k.name = name

/-- A failure to predict. -/
structure Failure where
  kind : FailureKind
  detail : String
  deriving DecidableEq

namespace Failure

/-- What a failure says: its detail, in quotes if it is a missing key. -/
def message (f : Failure) : String :=
  if f.kind = .key then Text.quoted f.detail else f.detail

/-- A failure with its family. -/
def text (f : Failure) : String := f.kind.name ++ ": " ++ f.message

/-- The failure of a division by zero. -/
def divisionByZero : Failure := ⟨.division, "float division by zero"⟩

/-- The failure of a whole number that is too large for a feature. -/
def numberTooLarge : Failure := ⟨.overflow, "int too large to convert to float"⟩

/-- The failure to wait for an answer with a time limit that is not a number. -/
def limitNotANumber : Failure := ⟨.value, "Invalid value NaN (not a number)"⟩

/-- The failure to wait for an answer with a time limit that is too large. -/
def limitTooLarge : Failure := ⟨.overflow, "timestamp too large to convert to C _PyTime_t"⟩

/-- The failure to wait for an answer with a time limit that has turned negative. -/
def limitNotPositive : Failure := ⟨.value, "timeout value must be positive"⟩

/-- The failure of a model that predicts nothing. -/
def nothingPredicted : Failure :=
  ⟨.position, "index 0 is out of bounds for axis 0 with size 0"⟩

end Failure

/-- What comes back from a predictor. -/
inductive Answer (α : Type)
  | value (x : α)
  | failure (f : Failure)
  /-- Nothing, for as long as it is waited for. -/
  | silence

/-- An answer from a computation that may fail. -/
def Answer.ofExcept {α : Type} : Except Failure α → Answer α
  | .ok x => .value x
  | .error f => .failure f

/-- Something that predicts durations; `answer k` is its answer to question number `k`. -/
structure Predictor (α : Type) where
  answer : Nat → Features α → Answer α

namespace Predictor

variable {α : Type} [Quantity α]

/-- Predicts the length times a factor over the speed. -/
def proportional (factor : α) : Predictor α where
  answer _ f :=
    match Quantity.quotient? (factor * f.length) f.speed with
    | some x => .value x
    | none => .failure .divisionByZero

/-- A whole number as a feature. -/
def wholeFeature (n : Int) : Except Failure α :=
  match Quantity.ofInt? n with
  | some x => .ok x
  | none => .error .numberTooLarge

/-- The four features as quantities. -/
def featureRow (f : Features α) : Except Failure (List α) := do
  return [f.length, ← wholeFeature f.parents, f.speed, ← wholeFeature f.cores]

/-- A bias plus the weighted features, one after the other. -/
def weighted (weights : List α) (bias : α) (f : Features α) : Except Failure α := do
  let row ← featureRow f
  return (weights.zip row).foldl (fun sum (weight, x) => sum + weight * x) bias

/-- Predicts a bias plus the weighted features. -/
def linear (weights : List α) (bias : α) : Predictor α where
  answer _ f := .ofExcept (weighted weights bias f)

/-- Gives some answers in turn and then keeps giving the last of them. -/
def scripted (answers : List (Answer α)) : Predictor α where
  answer k _ := answers[min k (answers.length - 1)]?.getD .silence

end Predictor

end EarliestFinish
