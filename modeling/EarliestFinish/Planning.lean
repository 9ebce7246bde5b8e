import EarliestFinish.Estimator.Basic

/-!
# Planning sessions

A planner keeps its estimator from one plan to the next, and a journal of what it noted. Both
outlive a fault: what was asked and noted before it stays asked and noted. A computation that does
not end has no outcome; its session is the one in which it waits.
-/

namespace EarliestFinish

/-- What a planner keeps. -/
structure Session (α : Type) where
  estimator : Estimator α := .static
  journal : Array (Entry α) := #[]

/-- A computation in a session that may end in a fault, or not end. -/
abbrev Planning (α : Type) := ExceptT (Obstacle α) (StateM (Session α))

instance {α : Type} : MonadLift (Except (Fault α)) (Planning α) where
  monadLift x := ExceptT.mk (pure (ended x))

namespace Planning

variable {α : Type} [Quantity α]

/-- Adds an entry to the journal. -/
def note (e : Entry α) : Planning α Unit :=
  modify fun s => { s with journal := s.journal.push e }

/-- Asks the estimator how long a task runs on a machine, and notes what came of it. -/
def ask (task : Task α) (machine : Machine α) : Planning α α := do
  let s ← get
  let reply := s.estimator.estimate (.ofPair task machine)
  set { s with
    estimator := reply.next
    journal := s.journal ++ reply.entries task.label machine.label }
  reply.result

/-- The outcome of a computation in a session, and the session after it. -/
def runIn {β : Type} (x : Planning α β) (s : Session α) : Except (Obstacle α) β × Session α :=
  (ExceptT.run x).run s

end Planning

end EarliestFinish
