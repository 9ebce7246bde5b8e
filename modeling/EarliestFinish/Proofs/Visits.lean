import EarliestFinish.Proofs.Estimates

/-!
# What a level does with the questions it sees

A level that is available asks its predictor, and what comes of that is its *reaction*: the answer,
or a failure if the time limit cannot be waited out. `Level.attempt_of_reaction` says what it makes
of the reaction. Then the level has an estimate to offer, or it passes the question down, or it
waits for a silent predictor without an end, which only happens without a time limit.

`Level.Runs` is how a level goes from one question to the next. What is to be said of its counters,
its warnings and its availability is collected in `Level.Accounts` and follows from what one
question does to it, by induction on the run (`Level.Runs.accounts`).
-/

namespace EarliestFinish

variable {α : Type}

/-- A question that a level sees, and the level as it is then. -/
structure Visit (α : Type) where
  cell : Task α × Machine α
  level : Level α

namespace Answer

variable {timeout : Option α} {a : Answer α}

/-- Whether nothing came back for as long as it was waited for. -/
def isSilence : Answer α → Bool
  | silence => true
  | _ => false

/-- Whether waiting for an answer has an end: silence has one only if there is a time limit. -/
def ends (timeout : Option α) (a : Answer α) : Bool := timeout.isSome || !a.isSilence

theorem ends_of_not_isSilence (h : a.isSilence = false) : a.ends timeout = true := by
  rw [ends, h, Bool.not_false, Bool.or_true]

/-- Waiting has no end if there is silence and no time limit. -/
theorem ends_eq_false_iff : a.ends timeout = false ↔ timeout = none ∧ a = .silence := by
  cases timeout <;> cases a <;> simp [ends, isSilence]

theorem timeout_isSome (h : a.isSilence = true) (hends : a.ends timeout = true) :
    timeout.isSome = true := by
  rwa [ends, h, Bool.not_true, Bool.or_false] at hends

end Answer

variable [Quantity α]

namespace Answer

/-- The number that an answer gives, if it can be an estimate. -/
def usable? : Answer α → Option α
  | value x => if Level.usable x then some x else none
  | _ => none

/-- What a level makes of an answer. -/
def attempt (timeout : Option α) : Answer α → Attempt α
  | value x => if Level.usable x then .accepted x else .unused (.invalid x)
  | failure e => .unused (.failed e)
  | silence =>
    match timeout with
    | some limit => .unused (.timedOut limit)
    | none => .unending

/-- What is noted of an answer to the question about a cell. -/
def entry? (timeout : Option α) (cell : Task α × Machine α) : Answer α → Option (Entry α)
  | value x =>
    some <| if Level.usable x then .predicted x cell.1.label cell.2.label
      else .predictionUnused cell.1.label cell.2.label (.invalid x)
  | failure e => some (.predictionUnused cell.1.label cell.2.label (.failed e))
  | silence =>
    timeout.map fun limit => .predictionUnused cell.1.label cell.2.label (.timedOut limit)

end Answer

/-- What comes of a call of a predictor, of which there were some before. -/
def Predictor.outcome (p : Predictor α) (timeout : Option α) (before : Nat) (f : Features α) :
    Answer α :=
  match timeout.bind Level.waitFailure? with
  | some e => .failure e
  | none => p.answer before f

namespace Level

/-- A level after a call, or as it waits if the call does not end. -/
def after (l : Level α) (a : Answer α) : Level α :=
  { l with
    calls := l.calls + 1
    fallbacks := l.fallbacks + if a.usable?.isNone && a.ends l.timeout then 1 else 0
    hung := a.isSilence && l.timeout.isSome }

/-- What comes of asking the predictor of a level, if the level is available. -/
def reaction? (l : Level α) (f : Features α) : Option (Answer α) :=
  if l.available then l.predictor.map fun p => p.outcome l.timeout l.calls f else none

/-- The estimate that a level has for a question. -/
def offer? (l : Level α) (f : Features α) : Option α := (l.reaction? f).bind Answer.usable?

/-- Whether a level waits for its predictor without an end. -/
def waits (l : Level α) (f : Features α) : Bool := (l.reaction? f).any fun a => !a.ends l.timeout

/-- Whether a level passes a question down. -/
def passes (l : Level α) (f : Features α) : Bool := (l.offer? f).isNone && !l.waits f

end Level

namespace Visit

/-- Whether the question is passed down. -/
def passesDown (v : Visit α) : Bool := v.level.passes (featuresOf v.cell)

/-- Whether the question does not come to an end. -/
def waits (v : Visit α) : Bool := v.level.waits (featuresOf v.cell)

/-- Whether the predictor is asked and does not answer for as long as it is waited for. -/
def hangs (v : Visit α) : Bool := (v.level.reaction? (featuresOf v.cell)).any Answer.isSilence

/-- What the level notes. -/
def noted? (v : Visit α) : Option (Entry α) :=
  Attempt.entry? v.cell.1.label v.cell.2.label (v.level.attempt (featuresOf v.cell)).1

/-- Whether the level notes a warning. -/
def warns (v : Visit α) : Bool := v.noted?.any fun e => e.severity = .warning

end Visit

namespace Level

/-- A level goes through some visits, each of which finds it as the one before has left it. None
follows one that does not come to an end. -/
inductive Runs : Level α → List (Visit α) → Level α → Prop
  | nil (l : Level α) : Runs l [] l
  | visit {l l' : Level α} {cell : Task α × Machine α} {visits : List (Visit α)}
      (last : l.waits (featuresOf cell) = true → visits = [])
      (rest : Runs (l.attempt (featuresOf cell)).2 visits l') :
      Runs l (⟨cell, l⟩ :: visits) l'

/-- What the visits of a level come to. -/
structure Accounts (l : Level α) (visits : List (Visit α)) (l' : Level α) : Prop where
  calls : l'.calls = l.calls + visits.countP fun v => v.level.available
  fallbacks : l'.fallbacks = l.fallbacks + visits.countP Visit.passesDown
  warnings : visits.countP Visit.warns + visits.countP (fun v => !v.level.available) =
    visits.countP Visit.passesDown
  /-- A level that is available was so before. -/
  available : visits.Pairwise fun v v' => v'.level.available = true → v.level.available = true
  finally_available : l'.available = true → ∀ v ∈ visits, v.level.available = true
  /-- After a silence the predictor is not asked again. -/
  silence : visits.Pairwise fun v v' => v.hangs = true → v'.level.available = false
  /-- No visit comes after one without an end. -/
  waiting : visits.Pairwise fun v _ => v.waits = false

end Level

/-! ## One level and one question -/

namespace Answer

variable {a : Answer α}

theorem usable?_of_isSilence (h : a.isSilence = true) : a.usable? = none := by
  cases a with
  | silence => rfl
  | value | failure => cases h

theorem noted_attempt (timeout : Option α) (cell : Task α × Machine α) (a : Answer α) :
    Attempt.entry? cell.1.label cell.2.label (a.attempt timeout) = a.entry? timeout cell := by
  cases a with
  | value x =>
    rw [attempt, entry?]
    split <;> rfl
  | failure => rfl
  | silence => cases timeout <;> rfl

/-- A call that ends is noted. -/
theorem exists_entry {timeout : Option α} (cell : Task α × Machine α)
    (hends : a.ends timeout = true) : ∃ e, a.entry? timeout cell = some e := by
  cases a with
  | value | failure => exact ⟨_, rfl⟩
  | silence =>
    obtain ⟨limit, rfl⟩ := Option.isSome_iff_exists.1 (timeout_isSome rfl hends)
    exact ⟨_, rfl⟩

end Answer

namespace Level

variable {l : Level α} {p : Predictor α} {f : Features α} {a : Answer α} {x : α}

theorem hung_after (h : a.isSilence = false) : (l.after a).hung = false := by
  rw [after, h, Bool.false_and]

theorem hung_after_of_isSilence (h : a.isSilence = true) (hends : a.ends l.timeout = true) :
    (l.after a).hung = true := by
  rw [after, h, Answer.timeout_isSome h hends, Bool.and_self]

/-- What a level with a predictor to ask does with a question. -/
theorem attempt_eq (hp : l.predictor = some p) (hl : l.hung = false) (f : Features α) :
    l.attempt f = ((p.outcome l.timeout l.calls f).attempt l.timeout,
      l.after (p.outcome l.timeout l.calls f)) := by
  obtain ⟨_, timeout, calls, fallbacks, _⟩ := l
  subst hp hl
  have hanswer : (⟨some p, timeout, calls, fallbacks, false⟩ : Level α).answer p f =
      p.outcome timeout calls f := rfl
  unfold attempt
  dsimp only
  rw [hanswer]
  cases p.outcome timeout calls f with
  | value x =>
    cases hx : usable x <;>
      simp [hx, after, passDown, Answer.usable?, Answer.attempt, Answer.isSilence, Answer.ends]
  | failure =>
    simp [after, passDown, Answer.usable?, Answer.attempt, Answer.isSilence, Answer.ends]
  | silence => cases timeout <;> rfl

theorem reaction_eq (hp : l.predictor = some p) (hl : l.hung = false) (f : Features α) :
    l.reaction? f = some (p.outcome l.timeout l.calls f) := by
  have havailable : l.available = true := by simp [available, hp, hl]
  rw [reaction?, if_pos havailable, hp, Option.map_some]

theorem attempt_of_reaction (h : l.reaction? f = some a) :
    l.attempt f = (a.attempt l.timeout, l.after a) := by
  unfold reaction? at h
  split at h
  · next havailable =>
    obtain ⟨p, hp, rfl⟩ := Option.map_eq_some_iff.1 h
    have hl : l.hung = false := by simpa [available, hp] using havailable
    exact attempt_eq hp hl f
  · cases h

theorem attempt_of_unavailable (h : l.available = false) :
    l.attempt f = (.unavailable, l.passDown) := by
  unfold attempt
  cases hp : l.predictor with
  | none => rfl
  | some p =>
    have hl : l.hung = true := by simpa [available, hp] using h
    rw [hl]

theorem reaction?_isSome (l : Level α) (f : Features α) : (l.reaction? f).isSome = l.available := by
  unfold reaction? available
  cases l.predictor <;> cases l.hung <;> rfl

/-- A level is not available, or something comes of asking its predictor. -/
theorem reaction_cases (l : Level α) (f : Features α) :
    l.available = false ∧ l.reaction? f = none ∨
      l.available = true ∧ ∃ a, l.reaction? f = some a := by
  have hsome := l.reaction?_isSome f
  cases h : l.reaction? f with
  | none => exact Or.inl ⟨by rw [← hsome, h]; rfl, rfl⟩
  | some a => exact Or.inr ⟨by rw [← hsome, h]; rfl, a, rfl⟩

/-- A level accepts the answer that is its offer. -/
theorem accepted_iff : (l.attempt f).1 = .accepted x ↔ l.offer? f = some x := by
  unfold offer?
  rcases l.reaction_cases f with ⟨h, hnone⟩ | ⟨-, a, ha⟩
  · simp [attempt_of_unavailable h, hnone]
  · rw [attempt_of_reaction ha, ha, Option.bind_some]
    cases a with
    | value y => cases hy : usable y <;> simp [Answer.attempt, Answer.usable?, hy]
    | failure => simp [Answer.attempt, Answer.usable?]
    | silence => cases l.timeout <;> simp [Answer.attempt, Answer.usable?]

theorem unending_iff : (l.attempt f).1 = .unending ↔ l.waits f = true := by
  unfold waits
  rcases l.reaction_cases f with ⟨h, hnone⟩ | ⟨-, a, ha⟩
  · simp [attempt_of_unavailable h, hnone]
  · rw [attempt_of_reaction ha, ha, Option.any_some, Bool.not_eq_true', Answer.ends_eq_false_iff]
    cases a with
    | value y => cases hy : usable y <;> simp [Answer.attempt, hy]
    | failure => simp [Answer.attempt]
    | silence => cases l.timeout <;> simp [Answer.attempt]

/-- A level that has an estimate does not wait. -/
theorem not_waits_of_offer (h : l.offer? f = some x) : l.waits f = false := by
  by_contra hwaits
  rw [Bool.not_eq_false] at hwaits
  cases (accepted_iff.2 h).symm.trans (unending_iff.2 hwaits)

/-- A level that neither has an estimate nor passes the question down waits. -/
theorem waits_of_stops (h : l.passes f = false) (hoffer : l.offer? f = none) :
    l.waits f = true := by
  simpa [passes, hoffer] using h

theorem not_waits_of_timeout (h : l.timeout.isSome = true) (f : Features α) :
    l.waits f = false := by
  simp [waits, Answer.ends, h]

theorem timeout_attempt (l : Level α) (f : Features α) : (l.attempt f).2.timeout = l.timeout := by
  rcases l.reaction_cases f with ⟨h, -⟩ | ⟨-, a, ha⟩
  · rw [attempt_of_unavailable h]
    rfl
  · rw [attempt_of_reaction ha]
    rfl

theorem calls_attempt (l : Level α) (f : Features α) :
    (l.attempt f).2.calls = l.calls + if l.available then 1 else 0 := by
  rcases l.reaction_cases f with ⟨h, -⟩ | ⟨h, a, ha⟩
  · rw [attempt_of_unavailable h, h]
    rfl
  · rw [attempt_of_reaction ha, h]
    rfl

theorem fallbacks_attempt (l : Level α) (f : Features α) :
    (l.attempt f).2.fallbacks = l.fallbacks + if l.passes f then 1 else 0 := by
  unfold passes offer? waits
  rcases l.reaction_cases f with ⟨h, hnone⟩ | ⟨-, a, ha⟩
  · rw [attempt_of_unavailable h, hnone]
    rfl
  · rw [attempt_of_reaction ha, ha, Option.any_some, Bool.not_not]
    rfl

/-- A level is available after a question if it was before and no time limit ran out. -/
theorem available_attempt (l : Level α) (f : Features α) :
    (l.attempt f).2.available =
      (l.available && !((l.reaction? f).any Answer.isSilence && l.timeout.isSome)) := by
  rcases l.reaction_cases f with ⟨h, hnone⟩ | ⟨h, a, ha⟩
  · rw [attempt_of_unavailable h, hnone, h]
    exact h
  · rw [attempt_of_reaction ha, ha, h]
    have hp : l.predictor.isSome = true := (Bool.and_eq_true_iff.1 h).1
    rw [available, after, hp]
    rfl

end Level

/-- An available level warns of the questions that it passes down, and no other level warns. -/
theorem Visit.warns_eq (v : Visit α) : v.warns = (v.level.available && v.passesDown) := by
  unfold warns noted? passesDown Level.passes Level.offer? Level.waits
  rcases v.level.reaction_cases (featuresOf v.cell) with ⟨h, -⟩ | ⟨h, a, ha⟩
  · rw [Level.attempt_of_unavailable h, h]
    rfl
  · rw [Level.attempt_of_reaction ha, ha, h]
    cases a with
    | value x =>
      cases hx : Level.usable x <;>
        simp [Answer.attempt, Answer.usable?, hx, Attempt.entry?, Entry.severity, Answer.ends,
          Answer.isSilence]
    | failure =>
      simp [Answer.attempt, Answer.usable?, Attempt.entry?, Entry.severity, Answer.ends,
        Answer.isSilence]
    | silence => cases v.level.timeout <;> rfl

theorem Visit.passesDown_of_unavailable {v : Visit α} (h : v.level.available = false) :
    v.passesDown = true := by
  have hnone : v.level.reaction? (featuresOf v.cell) = none := if_neg (by simp [h])
  rw [passesDown, Level.passes, Level.offer?, Level.waits, hnone]
  rfl

/-- Every question that is passed down is warned of, or finds the level not available. -/
theorem Visit.countP_warns (visits : List (Visit α)) :
    visits.countP Visit.warns + visits.countP (fun v => !v.level.available) =
      visits.countP Visit.passesDown := by
  induction visits with
  | nil => rfl
  | cons v visits ih =>
    simp only [List.countP_cons, v.warns_eq]
    cases h : v.level.available with
    | true =>
      simp only [Bool.true_and, Bool.not_true, Bool.false_eq_true, if_false]
      omega
    | false =>
      simp only [Bool.false_and, Bool.not_false, if_true, Bool.false_eq_true, if_false,
        passesDown_of_unavailable h]
      omega

/-! ## The visits of a level -/

namespace Level.Runs

variable {l l' : Level α} {visits : List (Visit α)} {v : Visit α}

theorem calls_eq (h : l.Runs visits l') :
    l'.calls = l.calls + visits.countP fun v => v.level.available := by
  induction h with
  | nil => rfl
  | visit _ _ ih =>
    rw [ih, calls_attempt, List.countP_cons]
    dsimp only
    omega

theorem fallbacks_eq (h : l.Runs visits l') :
    l'.fallbacks = l.fallbacks + visits.countP Visit.passesDown := by
  induction h with
  | nil => rfl
  | visit _ _ ih =>
    rw [ih, fallbacks_attempt, List.countP_cons, Visit.passesDown]
    dsimp only
    omega

theorem finally_available (h : l.Runs visits l') (hl : l'.available = true) :
    l.available = true ∧ ∀ v ∈ visits, v.level.available = true := by
  induction h with
  | nil => simp [hl]
  | visit _ _ ih =>
    obtain ⟨hnext, hrest⟩ := ih hl
    rw [available_attempt, Bool.and_eq_true] at hnext
    exact ⟨hnext.1, List.forall_mem_cons.2 ⟨hnext.1, hrest⟩⟩

/-- A level that is not available stays so. -/
theorem unavailable (h : l.Runs visits l') (hl : l.available = false) :
    ∀ v ∈ visits, v.level.available = false := by
  induction h with
  | nil => simp
  | visit _ _ ih =>
    refine List.forall_mem_cons.2 ⟨hl, ih ?_⟩
    rw [available_attempt, hl, Bool.false_and]

theorem pairwise_available (h : l.Runs visits l') :
    visits.Pairwise fun v v' => v'.level.available = true → v.level.available = true := by
  induction h with
  | nil => exact .nil
  | @visit l l' cell visits _ hrest ih =>
    refine .cons (fun v' hv' hlater => ?_) ih
    by_contra hnot
    rw [Bool.not_eq_true] at hnot
    have hnext : (l.attempt (featuresOf cell)).2.available = false := by
      rw [available_attempt, hnot, Bool.false_and]
    exact absurd (hrest.unavailable hnext v' hv') (by simp [hlater])

theorem pairwise_waiting (h : l.Runs visits l') : visits.Pairwise fun v _ => v.waits = false := by
  induction h with
  | nil => exact .nil
  | @visit l l' cell visits hlast _ ih =>
    refine .cons (fun v' hv' => ?_) ih
    by_contra hwaits
    rw [hlast (Bool.eq_true_of_not_eq_false hwaits)] at hv'
    cases hv'

theorem pairwise_silence (h : l.Runs visits l') :
    visits.Pairwise fun v v' => v.hangs = true → v'.level.available = false := by
  induction h with
  | nil => exact .nil
  | @visit l l' cell visits hlast hrest ih =>
    refine .cons (fun v' hv' hhangs => hrest.unavailable ?_ v' hv') ih
    obtain ⟨a, ha, hsilence⟩ := (Option.any_eq_true _ _).1 hhangs
    -- without a time limit there would be no later visit
    have hlimit : l.timeout.isSome = true := by
      by_contra hnone
      have hend : a.ends l.timeout = false := by
        rw [Answer.ends, Bool.eq_false_of_not_eq_true hnone, hsilence]
        rfl
      rw [hlast (by rw [waits, ha, Option.any_some, hend]; rfl)] at hv'
      cases hv'
    rw [available_attempt, ha, Option.any_some, hsilence, hlimit, Bool.and_self, Bool.not_true,
      Bool.and_false]

theorem accounts (h : l.Runs visits l') : l.Accounts visits l' where
  calls := h.calls_eq
  fallbacks := h.fallbacks_eq
  warnings := Visit.countP_warns visits
  available := h.pairwise_available
  finally_available hl := (h.finally_available hl).2
  silence := h.pairwise_silence
  waiting := h.pairwise_waiting

end Level.Runs

end EarliestFinish
