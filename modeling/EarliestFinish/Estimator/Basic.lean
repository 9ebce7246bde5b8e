import EarliestFinish.Journal

/-!
# Estimators

An estimator says how long a task runs on a machine. The *static* one divides the length of the
task by the speed of the machine. A *learned* one asks a predictor and has another estimator to
fall back on, so estimators form chains. A chain ends in the static one, or in an *oracle*: an
estimator of another make, known by its answers alone.

A level of a chain uses an answer that is finite and not negative. On anything else it passes the
question down to its fallback and counts it. After the first silence its predictor is not asked
again; if the time limit cannot be waited out, every question fails. Without a time limit a silence
has no end, and neither has the question. `Reply.attempts` tells what each level did that saw the
question, outermost first.
-/

namespace EarliestFinish

/-- The two ways to estimate a duration. -/
inductive Strategy
  | static
  | learned
  deriving DecidableEq

/-- The name of a strategy. -/
def Strategy.name : Strategy → String
  | .static => "static"
  | .learned => "learned"

/-- What keeps a computation from giving a result. -/
inductive Obstacle (α : Type)
  | fault (f : Fault α)
  /-- An estimator of another make fails. -/
  | failure (e : Failure)
  /-- It waits without a time limit for an answer that never comes, and so it does not end. -/
  | endless

instance {α : Type} : Coe (Fault α) (Obstacle α) := ⟨.fault⟩

/-- The outcome of a computation that ends, with a result or in a fault. -/
def ended {α β : Type} (x : Except (Fault α) β) : Except (Obstacle α) β := x.mapError .fault

section Ended

variable {α β : Type} {x : Except (Fault α) β}

@[simp] theorem ended_ok (b : β) : ended (.ok b : Except (Fault α) β) = .ok b := rfl

@[simp] theorem ended_error (f : Fault α) :
    ended (.error f : Except (Fault α) β) = .error (.fault f) := rfl

theorem ended_eq_ok_iff {b : β} : ended x = .ok b ↔ x = .ok b := by
  cases x <;> simp

theorem ended_eq_error_iff {o : Obstacle α} :
    ended x = .error o ↔ ∃ f, x = .error f ∧ o = .fault f := by
  cases x <;> simp [eq_comm]

end Ended

/-- One level of a chain of estimators. -/
structure Level (α : Type) where
  predictor : Option (Predictor α)
  /-- The time limit of an answer; without one, it is waited for as long as it takes. -/
  timeout : Option α
  /-- The number of questions that the predictor was asked. -/
  calls : Nat := 0
  /-- The number of questions that were passed down. -/
  fallbacks : Nat := 0
  /-- Whether the predictor has once been silent. -/
  hung : Bool := false

/-- What one level does with a question. -/
inductive Attempt (α : Type)
  /-- The prediction is the estimate. -/
  | accepted (value : α)
  /-- The predictor was asked in vain. -/
  | unused (reason : Setback α)
  /-- The predictor is asked and never answers, and there is no limit to waiting for it. -/
  | unending
  /-- There is no predictor to ask. -/
  | unavailable

namespace Level

variable {α : Type} [Quantity α]

/-- Whether there is a predictor to ask. -/
def available (l : Level α) : Bool := l.predictor.isSome && !l.hung

/-- Whether a prediction can be an estimate. -/
def usable (x : α) : Bool := Quantity.isFinite x && !(x < 0)

/-- Why a time limit cannot be waited out, if so. It must be a number. Its nanoseconds are kept in a
signed number of 64 bits, where `2 ^ 63` of them, the first number that does not fit, turn
negative. -/
def waitFailure? (limit : α) : Option Failure :=
  let nanoseconds := limit * 1000000000.0
  if ¬ limit ≤ limit then some .limitNotANumber
  else if nanoseconds < 9223372036854775808.0 then none
  else if nanoseconds ≤ 9223372036854775808.0 then some .limitNotPositive
  else some .limitTooLarge

/-- What comes back from a predictor. It is not waited for if its time limit does not allow it. -/
def answer (l : Level α) (p : Predictor α) (f : Features α) : Answer α :=
  match l.timeout.bind waitFailure? with
  | some e => .failure e
  | none => p.answer l.calls f

/-- The level after a question that it passes down. -/
def passDown (l : Level α) : Level α := { l with fallbacks := l.fallbacks + 1 }

/-- What a level does with a question, and the level after it. -/
def attempt (l : Level α) (f : Features α) : Attempt α × Level α :=
  match l.predictor, l.hung with
  | some p, false =>
    let asked := { l with calls := l.calls + 1 }
    match l.answer p f with
    | .value x =>
      if usable x then (.accepted x, asked) else (.unused (.invalid x), asked.passDown)
    | .failure e => (.unused (.failed e), asked.passDown)
    | .silence =>
      match l.timeout with
      | some limit => (.unused (.timedOut limit), { asked.passDown with hung := true })
      | none => (.unending, asked)
  | _, _ => (.unavailable, l.passDown)

end Level

/-- An estimator of which nothing is known but its answers; `answer k` is its answer to question
number `k`. -/
structure Oracle (α : Type) where
  /-- What it is called. -/
  name : String := "fallback"
  answer : Nat → Features α → Except (Obstacle α) α
  /-- The number of questions that it was asked. -/
  calls : Nat := 0

/-- A way to say how long a task runs on a machine. -/
inductive Estimator (α : Type)
  | static
  | learned (level : Level α) (fallback : Estimator α)
  | oracle (o : Oracle α)

/-- The answer of an estimator to one question, and the estimator after it. If the question does not
end, this is the estimator as it waits. -/
structure Reply (α : Type) where
  attempts : List (Attempt α)
  result : Except (Obstacle α) α
  next : Estimator α

namespace Estimator

variable {α : Type} [Quantity α]

/-- What an estimator is called: its strategy, if it has one. -/
def name : Estimator α → String
  | static => Strategy.static.name
  | learned .. => Strategy.learned.name
  | oracle o => o.name

/-- The levels of a chain, outermost first. -/
def levels : Estimator α → List (Level α)
  | learned level fallback => level :: fallback.levels
  | static | oracle _ => []

/-- The length of a task over the speed of a machine. -/
def staticEstimate (f : Features α) : Except (Fault α) α :=
  match Quantity.quotient? f.length f.speed with
  | some x => .ok x
  | none => .error .divisionByZero

/-- Asks an estimator how long a task runs on a machine. -/
def estimate : Estimator α → Features α → Reply α
  | static, f => ⟨[], ended (staticEstimate f), static⟩
  | oracle o, f => ⟨[], o.answer o.calls f, oracle { o with calls := o.calls + 1 }⟩
  | learned level fallback, f =>
    match level.attempt f with
    | (.accepted x, level) => ⟨[.accepted x], .ok x, learned level fallback⟩
    | (.unending, level) => ⟨[.unending], .error .endless, learned level fallback⟩
    | (attempt, level) =>
      let reply := fallback.estimate f
      ⟨attempt :: reply.attempts, reply.result, learned level reply.next⟩

/-- The time limit of an answer when none is given. -/
def defaultTimeout : α := 5.0

/-- An estimator with a predictor above a fallback, and what is noted when it is set up. -/
def withPredictor (predictor : Option (Predictor α)) (timeout : Option α)
    (fallback : Estimator α) : Except (Fault α) (Estimator α × List (Entry α)) :=
  match timeout with
  | some limit => if limit ≤ 0 then .error (.badTimeout limit) else .ok built
  | none => .ok built
where
  /-- The estimator, once its time limit is accepted. -/
  built : Estimator α × List (Entry α) :=
    (learned { predictor, timeout } fallback,
      if predictor.isNone then [.noPredictor fallback.name] else [])

end Estimator

/-- What is noted of an attempt. -/
def Attempt.entry? {α : Type} (task machine : Label) : Attempt α → Option (Entry α)
  | .accepted x => some (.predicted x task machine)
  | .unused reason => some (.predictionUnused task machine reason)
  | .unending | .unavailable => none

/-- What is noted of a question. -/
def Reply.entries {α : Type} (r : Reply α) (task machine : Label) : List (Entry α) :=
  r.attempts.filterMap (Attempt.entry? task machine)

end EarliestFinish
