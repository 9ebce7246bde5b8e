import EarliestFinish.Decimal
import EarliestFinish.Estimator.Predictor
import EarliestFinish.Text

/-!
# The journal

What the planner notes down while it works. An entry says what happened; its *source* is the part
of the planner that noted it, its *severity* says how much it matters, and `Entry.message` puts it
in words.
-/

namespace EarliestFinish

/-- Why a prediction is not used. -/
inductive Setback (α : Type)
  | failed (f : Failure)
  /-- No answer came within the time limit. -/
  | timedOut (limit : α)
  /-- The answer is negative or not finite. -/
  | invalid (value : α)

/-- A setback in words. -/
def Setback.text : Setback Float → String
  | .failed f => f.text
  | .timedOut limit =>
    FailureKind.name .timeout ++ ": timed out after " ++ Decimal.shortest limit ++
      "s; predictor disabled for the rest of the run"
  | .invalid value => "invalid prediction " ++ Decimal.shortest value

/-- The parts of the planner that note something. -/
inductive Source
  | costs
  | estimators
  | planner
  deriving DecidableEq

/-- How much an entry matters. -/
inductive Severity
  | detail
  | notice
  | warning
  deriving DecidableEq

/-- Something noted. -/
inductive Entry (α : Type)
  /-- A task needs more cores than any machine has. -/
  | fitsNowhere (task : Label) (cores : Int)
  /-- The mean bandwidth is not positive, so transfers cost nothing. -/
  | freeTransfers (bandwidth : α)
  /-- A learned estimator has no predictor; its fallback goes by this name. -/
  | noPredictor (fallback : String)
  | predicted (value : α) (task machine : Label)
  | predictionUnused (task machine : Label) (reason : Setback α)
  | modelUnreadable (path : String)
  | modelUnsuitable (path : String)
  | modelLoaded (model path : String)
  /-- A task is on a machine with fewer cores than it needs. -/
  | placedTooSmall (task machine : Label)
  /-- A task has its place; without a score, no machine's score was below the top. -/
  | placed (task machine : Label) (start finish : α) (score : Option α)
  | planned (tasks machines : Nat) (makespan : α)

namespace Entry

variable {α : Type}

/-- The part of the planner that notes an entry. -/
def source : Entry α → Source
  | fitsNowhere .. | freeTransfers .. => .costs
  | noPredictor .. | predicted .. | predictionUnused .. | modelUnreadable ..
  | modelUnsuitable .. | modelLoaded .. => .estimators
  | placedTooSmall .. | placed .. | planned .. => .planner

/-- How much an entry matters. -/
def severity : Entry α → Severity
  | predicted .. | placed .. => .detail
  | modelLoaded .. | planned .. => .notice
  | fitsNowhere .. | freeTransfers .. | noPredictor .. | predictionUnused ..
  | modelUnreadable .. | modelUnsuitable .. | placedTooSmall .. => .warning

/-- The score of a placement in words. -/
def scoreText : Option Float → String
  | some score => Decimal.fixed 3 score
  | none => Decimal.infiniteText false

/-- An entry in words. -/
def message : Entry Float → String
  | fitsNowhere task cores =>
    "task " ++ task.quoted ++ " needs " ++ Decimal.intText cores ++
      " cores but no machine has that many"
  | freeTransfers bandwidth =>
    "average bandwidth is " ++ Decimal.shortest bandwidth ++
      "; treating every transfer as free"
  | noPredictor fallback =>
    "no cost predictor configured; using " ++ fallback ++ " estimates"
  | predicted value task machine =>
    "predicted " ++ Decimal.fixed 4 value ++ " for task " ++ task.quoted ++ " on machine " ++
      machine.quoted
  | predictionUnused task machine reason =>
    "prediction for task " ++ task.quoted ++ " on machine " ++ machine.quoted ++ " failed (" ++
      reason.text ++ "); using fallback estimate"
  | modelUnreadable path => "could not load cost model from " ++ path
  | modelUnsuitable path => "object loaded from " ++ path ++ " has no predict(); ignoring it"
  | modelLoaded model path => "loaded cost model " ++ model ++ " from " ++ path
  | placedTooSmall task machine =>
    "task " ++ task.quoted ++ " placed on machine " ++ machine.quoted ++ " without enough cores"
  | placed task machine start finish score =>
    "task " ++ task.quoted ++ " -> machine " ++ machine.quoted ++ " [" ++
      Decimal.fixed 3 start ++ ", " ++ Decimal.fixed 3 finish ++ ") score=" ++ scoreText score
  | planned tasks machines makespan =>
    "planned " ++ Decimal.natText tasks ++ " tasks on " ++ Decimal.natText machines ++
      " machines, makespan " ++ Decimal.fixed 3 makespan

end Entry

/-- The entries that a reader wants: all of them, or the warnings only. -/
def journalFor {α : Type} (everything : Bool) (entries : List (Entry α)) : List (Entry α) :=
  entries.filter fun e => everything || e.severity = .warning

end EarliestFinish
