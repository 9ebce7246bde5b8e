import EarliestFinish.Estimator.Basic

/-!
# Choosing an estimator

An estimator is chosen by the name of its strategy. A learned one may have its predictor from a
file.
-/

namespace EarliestFinish

/-! ## Stored models

A predictor can be kept in a file. Loading it notes what became of it: there may be no file, the
file may not be readable, or what it holds may not predict anything.

A stored model is linear. It gives its prediction in one of several shapes, of which the first
number counts.
-/

/-- The shape in which a stored model gives its prediction. -/
inductive ModelShape
  | flat
  | nested
  | scalar
  /-- The prediction and another number behind it. -/
  | pair
  /-- Nothing at all. -/
  | empty
  deriving DecidableEq

/-- The shape with a given name. -/
def ModelShape.ofName : String → ModelShape
  | "nested" => .nested
  | "scalar" => .scalar
  | "pair" => .pair
  | "empty" => .empty
  | _ => .flat

/-- The numbers of a prediction in some shape, read row by row. -/
def ModelShape.numbers {α : Type} [Quantity α] (x : α) : ModelShape → List α
  | .flat | .nested | .scalar => [x]
  | .pair => [x, 0 - 7.0]
  | .empty => []

/-- A linear model in a file. -/
structure StoredModel (α : Type) where
  weights : List α
  bias : α
  shape : ModelShape

namespace StoredModel

variable {α : Type} [Quantity α]

/-- The prediction of a stored model. -/
def predict (m : StoredModel α) (f : Features α) : Except Failure α := do
  match m.shape.numbers (← Predictor.weighted m.weights m.bias f) with
  | x :: _ => return x
  | [] => throw .nothingPredicted

/-- A stored model as a predictor. -/
def predictor (m : StoredModel α) : Predictor α where
  answer _ f := .ofExcept (m.predict f)

/-- The name of the kind of model that is stored. -/
def kindName : String := "LinearModel"

end StoredModel

/-- What is found where a model is looked for. -/
inductive ModelFile (α : Type)
  /-- No place to look is named. -/
  | unnamed
  /-- There is no file, or it cannot be read. -/
  | unreadable
  /-- The file holds something that does not predict. -/
  | unsuitable
  | stored (model : StoredModel α)

namespace ModelFile

variable {α : Type}

/-- How the place of a model is written. -/
def path : String := "<model>"

/-- The stored model, if there is one, and what is noted. -/
def load : ModelFile α → Option (StoredModel α) × List (Entry α)
  | unnamed => (none, [])
  | unreadable => (none, [.modelUnreadable path])
  | unsuitable => (none, [.modelUnsuitable path])
  | stored model => (some model, [.modelLoaded StoredModel.kindName path])

end ModelFile

/-! ## Choosing by name

The name of a strategy may stand between blanks and in capitals. Capitals matter in ASCII only: no
other character has a letter of `static` or `learned` alone for its small form.
-/

/-- The strategy with a given name. -/
def Strategy.ofName {α : Type} (name : String) : Except (Fault α) Strategy :=
  let key := (Text.trimmed name).toLower
  if key = Strategy.static.name then .ok .static
  else if key = Strategy.learned.name then .ok .learned
  else .error (.unknownEstimator name)

/-- The estimator with a given name, and what is noted when it is set up. A learned one asks the
predictor that is given or else the model in the file, and falls back on the static one. -/
def Estimator.ofName {α : Type} [Quantity α] (name : String) (file : ModelFile α)
    (predictor : Option (Predictor α)) (timeout : Option α) :
    Except (Fault α) (Estimator α × List (Entry α)) := do
  match ← Strategy.ofName name with
  | .static => return (.static, [])
  | .learned =>
    match predictor with
    | some p => withPredictor (some p) timeout .static
    | none =>
      let (model, loading) := file.load
      let (estimator, setup) ← withPredictor (model.map StoredModel.predictor) timeout .static
      return (estimator, loading ++ setup)

end EarliestFinish
