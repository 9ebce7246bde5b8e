import EarliestFinish.Proofs.Prediction

/-!
# What the levels of a chain do in a run of calls

A call goes down a chain of estimators until a level has an estimate to offer, or waits without an
end. `Call.visits` lists the levels that see the question. They are changed by it, and all others
stay as they are (`levels_estimate`). So over a run of calls, whatever comes of each of them, a
level goes from one visit to the next, and `Level.Runs.accounts` tells what its visits come to.

* `Call.Settled` says what a single call comes to, by induction on the depth of the chain;
* `received_next` says that a level sees what the one above it passes down;
* `runs_visitsAt` finds the run of a level in the run of the chain, by induction on the calls;
* `calls_settled` puts all of this together.

As for a single level, an answer counts for nothing if its time limit cannot be waited out:
`not_settled_patient` is a case in which the level below is asked instead.
-/

namespace EarliestFinish

variable {α : Type}

/-- A call of an estimator: a question, and the estimator as it is then. -/
structure Call (α : Type) where
  cell : Task α × Machine α
  before : Estimator α

/-- Whether a question comes to an end. -/
def Reply.ends (r : Reply α) : Bool :=
  match r.result with
  | .error .endless => false
  | _ => true

theorem Reply.ends_of_endless {r : Reply α} (h : r.result = .error .endless) : r.ends = false := by
  rw [ends, h]

/-- The estimator at the end of a chain. -/
def Estimator.base : Estimator α → Estimator α
  | learned _ fallback => fallback.base
  | e => e

variable [Quantity α]

namespace Call

/-- What comes of a call. -/
def reply (c : Call α) : Reply α := c.before.estimate (featuresOf c.cell)

/-- What the estimator at the end of the chain makes of the question. -/
def bottom (c : Call α) : Except (Obstacle α) α :=
  (c.before.base.estimate (featuresOf c.cell)).result

/-- The levels that see the question, outermost first. -/
def visits (c : Call α) : List (Visit α) :=
  (c.before.levels.take c.reply.attempts.length).map (Visit.mk c.cell)

/-- What holds of a single call. If no level waits without an end, the outermost level that has an
estimate gives it, and if none has, it is that of the end of the chain. A level sees the question if
the one above it passes it down. -/
structure Settled (c : Call α) : Prop where
  result : c.reply.result =
    if c.visits.any Visit.waits then .error .endless
    else match c.before.levels.findSome? fun l => l.offer? (featuresOf c.cell) with
      | some x => .ok x
      | none => c.bottom
  first : c.before.levels ≠ [] → c.visits ≠ []
  next : ∀ i, i + 1 < c.before.levels.length →
    (i + 1 < c.visits.length ↔ ∃ v, c.visits[i]? = some v ∧ v.passesDown = true)
  entries : c.reply.entries c.cell.1.label c.cell.2.label = c.visits.filterMap Visit.noted?

end Call

namespace Estimator

/-- The calls of an estimator about some cells, one after the other, whatever comes of them. There
is none after a call that does not end. -/
def calls : Estimator α → List (Task α × Machine α) → List (Call α)
  | _, [] => []
  | e, cell :: cells =>
    ⟨cell, e⟩ ::
      if (e.estimate (featuresOf cell)).ends then calls (e.estimate (featuresOf cell)).next cells
      else []

/-- An estimator after some calls, or as it waits if one of them does not end. -/
def after : Estimator α → List (Task α × Machine α) → Estimator α
  | e, [] => e
  | e, cell :: cells =>
    if (e.estimate (featuresOf cell)).ends then after (e.estimate (featuresOf cell)).next cells
    else (e.estimate (featuresOf cell)).next

/-- The questions that a level of a chain sees in some calls. -/
def visitsAt (e : Estimator α) (cells : List (Task α × Machine α)) (i : Nat) : List (Visit α) :=
  (e.calls cells).filterMap fun c => c.visits[i]?

end Estimator

/-! ## One call -/

section OneCall

open Estimator

variable {l : Level α} {e : Estimator α} {f : Features α} {i : Nat} {cell : Task α × Machine α}
  {cells : List (Task α × Machine α)}

theorem estimate_of_passes (h : l.passes f = true) :
    (learned l e).estimate f =
      ⟨(l.attempt f).1 :: (e.estimate f).attempts, (e.estimate f).result,
        learned (l.attempt f).2 (e.estimate f).next⟩ := by
  obtain ⟨hoffer, hwaits⟩ := Bool.and_eq_true_iff.1 h
  rw [estimate]
  split
  · next x _ hattempt =>
    rw [Level.accepted_iff.1 (congrArg Prod.fst hattempt)] at hoffer
    cases hoffer
  · next hattempt =>
    rw [Level.unending_iff.1 (congrArg Prod.fst hattempt)] at hwaits
    cases hwaits
  · next hattempt => rw [hattempt]

/-- A level that does not pass a question down keeps it from the levels below. -/
theorem estimate_of_stops (h : l.passes f = false) :
    (learned l e).estimate f =
      ⟨[(l.attempt f).1], (l.offer? f).elim (.error .endless) .ok,
        learned (l.attempt f).2 e⟩ := by
  cases hoffer : l.offer? f with
  | some x =>
    obtain ⟨l', hattempt⟩ : ∃ l', l.attempt f = (.accepted x, l') :=
      ⟨_, Prod.ext (Level.accepted_iff.2 hoffer) rfl⟩
    rw [estimate, hattempt]
    rfl
  | none =>
    have hwaits : l.waits f = true := Level.waits_of_stops h hoffer
    obtain ⟨l', hattempt⟩ : ∃ l', l.attempt f = (.unending, l') :=
      ⟨_, Prod.ext (Level.unending_iff.2 hwaits) rfl⟩
    rw [estimate, hattempt]
    rfl

namespace Call

theorem visits_of_stops (h : l.passes (featuresOf cell) = false) :
    (⟨cell, learned l e⟩ : Call α).visits = [⟨cell, l⟩] := by
  rw [visits, reply, estimate_of_stops h]
  rfl

theorem visits_of_passes (h : l.passes (featuresOf cell) = true) :
    (⟨cell, learned l e⟩ : Call α).visits = ⟨cell, l⟩ :: (⟨cell, e⟩ : Call α).visits := by
  rw [visits, reply, estimate_of_passes h]
  rfl

theorem settled_of_stops (h : l.passes (featuresOf cell) = false) :
    (⟨cell, learned l e⟩ : Call α).Settled where
  result := by
    rw [visits_of_stops h, reply, estimate_of_stops h, levels, List.findSome?_cons, List.any_cons,
      List.any_nil, Bool.or_false, Visit.waits]
    cases hoffer : l.offer? (featuresOf cell) with
    | some x =>
      rw [Level.not_waits_of_offer hoffer]
      rfl
    | none =>
      rw [Level.waits_of_stops h hoffer]
      rfl
  first := by simp [visits_of_stops h]
  next i _ := by
    rw [visits_of_stops h]
    cases i with
    | zero => simp [Visit.passesDown, h]
    | succ i => simp
  entries := by
    rw [visits_of_stops h, reply, estimate_of_stops h]
    rfl

/-- What is passed down is settled by the chain below. -/
theorem settled_of_passes (h : l.passes (featuresOf cell) = true)
    (hbelow : (⟨cell, e⟩ : Call α).Settled) : (⟨cell, learned l e⟩ : Call α).Settled where
  result := by
    obtain ⟨hoffer, hwaits⟩ := Bool.and_eq_true_iff.1 h
    rw [Bool.not_eq_true'] at hwaits
    rw [visits_of_passes h, reply, estimate_of_passes h, levels, List.findSome?_cons,
      Option.isNone_iff_eq_none.1 hoffer, List.any_cons, Visit.waits, hwaits, Bool.false_or]
    exact hbelow.result
  first := by simp [visits_of_passes h]
  next i hi := by
    rw [visits_of_passes h]
    cases i with
    | zero =>
      have hlevels : e.levels ≠ [] := List.length_pos_iff.1 (Nat.lt_of_succ_lt_succ hi)
      have hseen : 0 < (⟨cell, e⟩ : Call α).visits.length :=
        List.length_pos_iff.2 (hbelow.first hlevels)
      exact iff_of_true (Nat.succ_lt_succ hseen) ⟨_, rfl, h⟩
    | succ i => simpa using hbelow.next i (Nat.lt_of_succ_lt_succ hi)
  entries := by
    rw [visits_of_passes h, reply, estimate_of_passes h]
    simp only [Reply.entries, List.filterMap_cons, ← hbelow.entries]
    rfl

/-- Every call is settled, whatever the depth of the chain. -/
theorem settled (c : Call α) : c.Settled := by
  obtain ⟨cell, e⟩ := c
  induction e with
  | static | oracle =>
    exact ⟨rfl, fun h => (h rfl).elim, fun i hi => by simp [levels] at hi, rfl⟩
  | learned l e ih =>
    cases h : l.passes (featuresOf cell) with
    | true => exact settled_of_passes h ih
    | false => exact settled_of_stops h

theorem visit_cell {c : Call α} {v : Visit α} (h : c.visits[i]? = some v) : v.cell = c.cell := by
  rw [visits, List.getElem?_map] at h
  obtain ⟨l, -, rfl⟩ := Option.map_eq_some_iff.1 h
  rfl

/-- A call that ends waits nowhere. -/
theorem not_waits_of_ends {c : Call α} {v : Visit α} (h : c.reply.ends = true)
    (hv : v ∈ c.visits) : v.waits = false := by
  by_contra hwaits
  rw [Bool.not_eq_false] at hwaits
  have hresult := c.settled.result
  rw [if_pos (List.any_eq_true.2 ⟨v, hv, hwaits⟩)] at hresult
  exact absurd h (by simp [Reply.ends_of_endless hresult])

/-- A level sees the question if there is one above it that passes the question down. -/
theorem received_succ {c : Call α} (hi : i + 1 < c.before.levels.length) :
    c.visits[i + 1]?.map Visit.cell = (c.visits[i]?.filter Visit.passesDown).map Visit.cell := by
  have hnext := c.settled.next i hi
  cases hbelow : c.visits[i + 1]? with
  | none =>
    have hunseen : ¬ i + 1 < c.visits.length := by simpa using hbelow
    cases habove : c.visits[i]? with
    | none => rfl
    | some v =>
      have hpasses : v.passesDown ≠ true := fun h => hunseen (hnext.2 ⟨v, habove, h⟩)
      rw [Option.filter_some, if_neg hpasses, Option.map_none]
  | some v' =>
    obtain ⟨hseen, -⟩ := List.getElem?_eq_some_iff.1 hbelow
    obtain ⟨v, habove, hpasses⟩ := hnext.1 hseen
    rw [habove, Option.filter_some, if_pos hpasses, Option.map_some, Option.map_some,
      visit_cell hbelow, visit_cell habove]

end Call

namespace Estimator

/-- A question leaves a level alone, or the level sees it and is changed by it. -/
theorem levels_estimate (cell : Task α × Machine α) (h : e.levels[i]? = some l) :
    ((⟨cell, e⟩ : Call α).visits[i]? = some ⟨cell, l⟩ ∧
        (e.estimate (featuresOf cell)).next.levels[i]? =
          some (l.attempt (featuresOf cell)).2) ∨
      ((⟨cell, e⟩ : Call α).visits[i]? = none ∧
        (e.estimate (featuresOf cell)).next.levels[i]? = some l) := by
  induction e generalizing i with
  | static | oracle => simp [levels] at h
  | learned top e ih =>
    cases hpasses : top.passes (featuresOf cell) with
    | false =>
      rw [Call.visits_of_stops hpasses, estimate_of_stops hpasses]
      cases i with
      | zero =>
        obtain rfl : top = l := by simpa [levels] using h
        exact Or.inl ⟨rfl, rfl⟩
      | succ i => exact Or.inr ⟨rfl, h⟩
    | true =>
      rw [Call.visits_of_passes hpasses, estimate_of_passes hpasses]
      cases i with
      | zero =>
        obtain rfl : top = l := by simpa [levels] using h
        exact Or.inl ⟨rfl, rfl⟩
      | succ i => exact ih h

/-- A chain keeps its levels and their time limits. -/
theorem timeouts_estimate (e : Estimator α) (f : Features α) :
    (e.estimate f).next.levels.map Level.timeout = e.levels.map Level.timeout := by
  induction e with
  | static | oracle => rfl
  | learned l e ih =>
    cases h : l.passes f with
    | false =>
      rw [estimate_of_stops h, levels, levels, List.map_cons, List.map_cons, Level.timeout_attempt]
    | true =>
      rw [estimate_of_passes h, levels, levels, List.map_cons, List.map_cons, ih,
        Level.timeout_attempt]

theorem length_levels_estimate (e : Estimator α) (f : Features α) :
    (e.estimate f).next.levels.length = e.levels.length := by
  simpa using congrArg List.length (timeouts_estimate e f)

/-- A chain keeps the static estimator at its end. -/
theorem base_estimate (h : e.base = static) (f : Features α) :
    (e.estimate f).next.base = static := by
  induction e with
  | static => rfl
  | oracle => cases h
  | learned l e ih =>
    cases hpasses : l.passes f with
    | false =>
      rw [estimate_of_stops hpasses]
      exact h
    | true =>
      rw [estimate_of_passes hpasses]
      exact ih h

/-! ## A run of calls -/

theorem calls_cons (e : Estimator α) (cell : Task α × Machine α)
    (cells : List (Task α × Machine α)) :
    e.calls (cell :: cells) = ⟨cell, e⟩ ::
      if (e.estimate (featuresOf cell)).ends then (e.estimate (featuresOf cell)).next.calls cells
      else [] := rfl

/-- What no question changes holds of the estimator at every call. -/
theorem calls_induct {P : Estimator α → Prop} (hstep : ∀ e f, P e → P (e.estimate f).next)
    (he : P e) (cells : List (Task α × Machine α)) : ∀ c ∈ e.calls cells, P c.before := by
  induction cells generalizing e with
  | nil => exact List.forall_mem_nil _
  | cons cell cells ih =>
    rw [calls_cons]
    refine List.forall_mem_cons.2 ⟨he, ?_⟩
    split
    · exact ih (hstep e _ he)
    · exact List.forall_mem_nil _

/-- The calls are about the cells in turn. -/
theorem calls_prefix (e : Estimator α) (cells : List (Task α × Machine α)) :
    (e.calls cells).map Call.cell <+: cells := by
  induction cells generalizing e with
  | nil => exact List.prefix_rfl
  | cons cell cells ih =>
    rw [calls_cons, List.map_cons]
    refine (List.prefix_cons_inj cell).2 ?_
    split
    · exact ih _
    · exact List.nil_prefix

theorem calls_complete (h : ∀ c ∈ e.calls cells, c.reply.ends = true) :
    (e.calls cells).map Call.cell = cells := by
  induction cells generalizing e with
  | nil => rfl
  | cons cell cells ih =>
    rw [calls_cons] at h ⊢
    obtain ⟨hend, hrest⟩ := List.forall_mem_cons.1 h
    have hend : (e.estimate (featuresOf cell)).ends = true := hend
    rw [if_pos hend] at hrest ⊢
    rw [List.map_cons, ih hrest]

theorem pairwise_ends (e : Estimator α) (cells : List (Task α × Machine α)) :
    (e.calls cells).Pairwise fun c _ => c.reply.ends = true := by
  induction cells generalizing e with
  | nil => exact .nil
  | cons cell cells ih =>
    rw [calls_cons]
    split
    · next hend => exact .cons (fun _ _ => hend) (ih _)
    · exact List.pairwise_singleton _ _

/-- At the end of a chain that ends in the static estimator, the length is divided by the speed. -/
theorem bottom_eq (he : e.base = static) (cells : List (Task α × Machine α)) :
    ∀ c ∈ e.calls cells, c.bottom =
      if Quantity.isZero c.cell.2.speed then .error (.fault .divisionByZero)
      else .ok (c.cell.1.length / c.cell.2.speed) := by
  intro c hc
  have hbase := calls_induct (P := fun e => e.base = static) (fun _ f h => base_estimate h f)
    he cells c hc
  have hstatic : c.bottom = ended (staticEstimate (featuresOf c.cell)) := by
    rw [Call.bottom, hbase]
    rfl
  rw [hstatic, staticEstimate, Quantity.quotient?]
  by_cases hzero : Quantity.isZero c.cell.2.speed = true <;>
    simp [featuresOf, Features.ofPair, hzero]

/-- With time limits at all levels, no level waits without an end. -/
theorem not_waits_of_limits (hlimits : ∀ l ∈ e.levels, l.timeout.isSome = true)
    (cells : List (Task α × Machine α)) :
    ∀ c ∈ e.calls cells, ∀ v ∈ c.visits, v.waits = false := by
  intro c hc v hv
  have htimeouts := calls_induct
    (P := fun e' => e'.levels.map Level.timeout = e.levels.map Level.timeout)
    (fun e f h => (timeouts_estimate e f).trans h) rfl cells c hc
  obtain ⟨l, hl, rfl⟩ := List.mem_map.1 hv
  have hlimit : l.timeout ∈ e.levels.map Level.timeout :=
    htimeouts ▸ List.mem_map_of_mem (List.mem_of_mem_take hl)
  obtain ⟨l₀, hl₀, htimeout⟩ := List.mem_map.1 hlimit
  exact Level.not_waits_of_timeout (htimeout ▸ hlimits l₀ hl₀) _

/-- A chain that ends in the static estimator answers or fails if no level waits without an end. -/
theorem ends_of_not_waits (he : e.base = static) (cells : List (Task α × Machine α)) :
    ∀ c ∈ e.calls cells, (∀ v ∈ c.visits, v.waits = false) → c.reply.ends = true := by
  intro c hc hwaits
  have hnone : c.visits.any Visit.waits ≠ true := by simpa using hwaits
  rw [Reply.ends, c.settled.result, if_neg hnone, bottom_eq he cells c hc]
  cases c.before.levels.findSome? fun l => l.offer? (featuresOf c.cell) with
  | some x => rfl
  | none => by_cases hzero : Quantity.isZero c.cell.2.speed = true <;> simp [hzero]

/-- The outermost level of a chain sees all questions. -/
theorem received_first (cells : List (Task α × Machine α)) (he : e.levels ≠ []) :
    (e.visitsAt cells 0).map Visit.cell = (e.calls cells).map Call.cell := by
  have hlevels := calls_induct (P := fun e => 0 < e.levels.length)
    (fun e f h => (length_levels_estimate e f).symm ▸ h) (List.length_pos_iff.2 he) cells
  have hfirst : ∀ c ∈ e.calls cells, c.visits[0]?.map Visit.cell = some c.cell := by
    intro c hc
    obtain ⟨v, rest, hvisits⟩ := List.exists_cons_of_ne_nil
      (c.settled.first (List.length_pos_iff.1 (hlevels c hc)))
    have hv : c.visits[0]? = some v := by rw [hvisits]; rfl
    rw [hv, Option.map_some, Call.visit_cell hv]
  rw [visitsAt, List.map_filterMap]
  exact List.filterMap_eq_map_iff_forall_eq_some.2 hfirst

/-- Any other level sees the questions that the one above it passes down. -/
theorem received_next (cells : List (Task α × Machine α)) (hi : i + 1 < e.levels.length) :
    (e.visitsAt cells (i + 1)).map Visit.cell =
      ((e.visitsAt cells i).filter Visit.passesDown).map Visit.cell := by
  have hlevels := calls_induct (P := fun e => i + 1 < e.levels.length)
    (fun e f h => (length_levels_estimate e f).symm ▸ h) hi cells
  rw [visitsAt, visitsAt, List.filter_filterMap, List.map_filterMap, List.map_filterMap]
  exact List.filterMap_congr fun c hc => Call.received_succ (hlevels c hc)

theorem visitsAt_cons (e : Estimator α) (cell : Task α × Machine α)
    (cells : List (Task α × Machine α)) (i : Nat) :
    e.visitsAt (cell :: cells) i =
      (⟨cell, e⟩ : Call α).visits[i]?.toList ++
        if (e.estimate (featuresOf cell)).ends then
          (e.estimate (featuresOf cell)).next.visitsAt cells i
        else [] := by
  have hrest : (if (e.estimate (featuresOf cell)).ends then
      (e.estimate (featuresOf cell)).next.visitsAt cells i else []) =
      (if (e.estimate (featuresOf cell)).ends then (e.estimate (featuresOf cell)).next.calls cells
        else []).filterMap fun c => c.visits[i]? := by
    split <;> rfl
  rw [hrest, visitsAt, calls_cons, List.filterMap_cons]
  cases (⟨cell, e⟩ : Call α).visits[i]? <;> rfl

/-- In the run of a chain, every level has its own run. -/
theorem runs_visitsAt (cells : List (Task α × Machine α)) (h : e.levels[i]? = some l) :
    ∃ l', (e.after cells).levels[i]? = some l' ∧ l.Runs (e.visitsAt cells i) l' := by
  induction cells generalizing e l with
  | nil => exact ⟨l, h, .nil l⟩
  | cons cell cells ih =>
    rw [visitsAt_cons, after]
    cases hend : (e.estimate (featuresOf cell)).ends with
    | true =>
      rcases levels_estimate cell h with ⟨hvisit, hnext⟩ | ⟨hvisit, hnext⟩
      · obtain ⟨l', hafter, hruns⟩ := ih hnext
        refine ⟨l', hafter, ?_⟩
        have hwaits : l.waits (featuresOf cell) = false :=
          Call.not_waits_of_ends (c := ⟨cell, e⟩) hend (List.mem_of_getElem? hvisit)
        rw [hvisit]
        exact .visit (fun hwaits' => by cases hwaits.symm.trans hwaits') hruns
      · obtain ⟨l', hafter, hruns⟩ := ih hnext
        refine ⟨l', hafter, ?_⟩
        rw [hvisit]
        exact hruns
    | false =>
      rcases levels_estimate cell h with ⟨hvisit, hnext⟩ | ⟨hvisit, hnext⟩
      · refine ⟨_, hnext, ?_⟩
        rw [hvisit]
        exact .visit (fun _ => rfl) (.nil _)
      · refine ⟨l, hnext, ?_⟩
        rw [hvisit]
        exact .nil l

end Estimator

end OneCall

/-! ## A run of a chain -/

/-- Every call of a chain gives the estimate of the outermost level that has one, or else that of
the end of the chain, which for the static estimator is the length over the speed. Only a level
without a time limit can wait for an answer that never comes; then the call does not end, and there
is no other. A level sees what the one above it passes down, and its counters, its warnings and its
availability account for what it has seen. What comes of asking a predictor is its answer if the
time limit can be waited out, and otherwise a failure. -/
theorem calls_settled (e : Estimator α) (cells : List (Task α × Machine α)) :
    (∀ c ∈ e.calls cells, c.Settled) ∧
      (e.base = .static → ∀ c ∈ e.calls cells, c.bottom =
        if Quantity.isZero c.cell.2.speed then .error (.fault .divisionByZero)
        else .ok (c.cell.1.length / c.cell.2.speed)) ∧
      ((e.calls cells).map Call.cell <+: cells ∧
        ((e.calls cells).Pairwise fun c _ => c.reply.ends = true) ∧
        ((∀ c ∈ e.calls cells, c.reply.ends = true) → (e.calls cells).map Call.cell = cells)) ∧
      (e.base = .static → (∀ l ∈ e.levels, l.timeout.isSome = true) →
        (e.calls cells).map Call.cell = cells ∧
          ∀ c ∈ e.calls cells, ∀ v ∈ c.visits, v.waits = false) ∧
      (e.levels ≠ [] → (e.visitsAt cells 0).map Visit.cell = (e.calls cells).map Call.cell) ∧
      (∀ i, i + 1 < e.levels.length →
        (e.visitsAt cells (i + 1)).map Visit.cell =
          ((e.visitsAt cells i).filter Visit.passesDown).map Visit.cell) ∧
      (∀ (i : Nat) (l : Level α), e.levels[i]? = some l →
        ∃ l', (e.after cells).levels[i]? = some l' ∧
          l.Runs (e.visitsAt cells i) l' ∧ l.Accounts (e.visitsAt cells i) l') ∧
      ∀ (l : Level α) p f, l.predictor = some p → l.hung = false →
        (l.timeout.bind Level.waitFailure? = none → l.reaction? f = some (p.answer l.calls f)) ∧
        ∀ failure, l.timeout.bind Level.waitFailure? = some failure →
          l.reaction? f = some (.failure failure) := by
  refine ⟨fun c _ => c.settled, fun he => Estimator.bottom_eq he cells,
    ⟨e.calls_prefix cells, e.pairwise_ends cells, Estimator.calls_complete⟩,
    fun he hlimits => ?_, Estimator.received_first cells,
    fun i hi => Estimator.received_next cells hi, fun i l hl => ?_,
    fun l p f hp hhung => ⟨fun hwait => ?_, fun failure hwait => ?_⟩⟩
  · have hwaits := Estimator.not_waits_of_limits hlimits cells
    exact ⟨Estimator.calls_complete fun c hc =>
      Estimator.ends_of_not_waits he cells c hc (hwaits c hc), hwaits⟩
  · obtain ⟨l', hafter, hruns⟩ := Estimator.runs_visitsAt cells hl
    exact ⟨l', hafter, hruns, hruns.accounts⟩
  · rw [Level.reaction_eq hp hhung, Predictor.outcome, hwait]
  · rw [Level.reaction_eq hp hhung, Predictor.outcome, hwait]

namespace Sample

/-- The moody predictor above one that gives a negative number and then nothing. -/
def tiers : Estimator Rat :=
  .learned { predictor := some moody, timeout := some 5 }
    (.learned { predictor := some (.scripted [.value (-2), .silence]), timeout := some 5 } .static)

/-- The moody predictor, which is waited for without a time limit. -/
def unlimited : Estimator Rat := .learned { predictor := some moody, timeout := none } .static

/-- A machine that does not run. -/
def stopped : Machine Rat := ⟨.text "stopped", 0, 1, 3⟩

/-- One task on the slow machine five times, and then on the one that does not run. -/
def rounds : List (Task Rat × Machine Rat) :=
  (List.replicate 5 slow ++ [stopped]).map (({ label := .text "load", length := 4 } : Task Rat), ·)

/-- A predictor with a time limit of some centuries above another one. -/
def patientTiers : Estimator Float :=
  .learned { predictor := some (.scripted [.value 3]), timeout := some 1e10 }
    (.learned { predictor := some (.scripted [.value 7]), timeout := some 5 } .static)

/-- A task on the machine that runs twice as fast. -/
def quickCell : Task Float × Machine Float := ({ label := .text "load", length := 10 }, twice)

end Sample

/-- The last call fails, since both predictors have been silent before and the speed is zero. Each
level warns of the questions that it passed down while it was available. Without a time limit the
first silence is the end of the calls. -/
theorem calls_settled_tiers :
    (Sample.tiers.calls Sample.rounds).map Call.cell = Sample.rounds ∧
      (Sample.tiers.calls Sample.rounds).map (fun c => c.reply.result.toOption) =
        [some 3, some 4, some 4, some 4, some 4, none] ∧
      (Sample.tiers.after Sample.rounds).levels.map (fun l => (l.fallbacks, l.available)) =
        [(5, false), (5, false)] ∧
      (Sample.tiers.visitsAt Sample.rounds 0).countP Visit.warns = 3 ∧
      (Sample.tiers.visitsAt Sample.rounds 1).countP Visit.warns = 2 ∧
      (Sample.unlimited.calls Sample.rounds).map (fun c => c.reply.ends) =
        [true, true, true, false] := by
  obtain ⟨-, -, -, hmade, -, -, hlevels, -⟩ := calls_settled Sample.tiers Sample.rounds
  have hlimits : ∀ l ∈ Sample.tiers.levels, l.timeout.isSome = true := by decide +kernel
  obtain ⟨outer, -, -, houter⟩ := hlevels 0 _ rfl
  obtain ⟨inner, -, -, hinner⟩ := hlevels 1 _ rfl
  have hmissed (i : Nat) (hi : i < 2) :
      (Sample.tiers.visitsAt Sample.rounds i).countP (fun v => !v.level.available) = i + 2 ∧
        (Sample.tiers.visitsAt Sample.rounds i).countP Visit.passesDown = 5 := by
    interval_cases i <;> decide +kernel
  refine ⟨(hmade rfl hlimits).1, by decide +kernel, by decide +kernel, ?_, ?_, by decide +kernel⟩
  · have hwarnings := houter.warnings
    rw [(hmissed 0 (by omega)).1, (hmissed 0 (by omega)).2] at hwarnings
    omega
  · have hwarnings := hinner.warnings
    rw [(hmissed 1 (by omega)).1, (hmissed 1 (by omega)).2] at hwarnings
    omega

/-- The outer level is available and its predictor has a usable answer, but the call gives the
estimate of the level below. -/
theorem not_settled_patient :
    ∃ l p, Sample.patientTiers.levels[0]? = some l ∧ l.predictor = some p ∧ l.available = true ∧
      (p.answer l.calls (featuresOf Sample.quickCell)).usable? = some 3 ∧
      (⟨Sample.quickCell, Sample.patientTiers⟩ : Call Float).reply.result.toOption = some 7 := by
  refine ⟨_, _, rfl, rfl, rfl, ?_, by decide +kernel⟩
  have husable : Level.usable (3 : Float) = true := by decide +kernel
  change (if Level.usable (3 : Float) then some (3 : Float) else none) = some 3
  rw [if_pos husable]

end EarliestFinish
