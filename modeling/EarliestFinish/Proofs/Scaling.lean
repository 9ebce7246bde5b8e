import EarliestFinish.Proofs.History
import EarliestFinish.Proofs.Outcome

/-!
# Only the ratio of the weights matters

Weights that are `k` times as large make every score `k` times as large. For a positive `k` this
changes no comparison between scores, so every task goes to the same machine at the same time, and
the next task meets the same lanes and workloads. The run with the larger weights is therefore the
other run with its scores rescaled: `Allocation.rescale_place` for one task, `rescale_placeAll` for
a run, and `rescale_scheduleFrom` for a whole schedule.

If the workload has no weight, then any two weights of the finish time have a ratio, so they all
give the same plan, in which every task goes where it finishes first: `Planning.plan_ratio`.
-/

namespace EarliestFinish

/-! ## Rescaled scores -/

section Rescale

variable {k : Rat}

/-- An offer with its score rescaled. -/
def Offer.rescale (k : Rat) (o : Offer Rat) : Offer Rat := { o with score := k * o.score }

/-- A placement with its score rescaled. -/
def Placement.rescale (k : Rat) (p : Placement Rat) : Placement Rat :=
  { p with score := p.score.map (k * ·) }

/-- An allocation with its scores rescaled. -/
def Allocation.rescale (k : Rat) (a : Allocation Rat) : Allocation Rat :=
  { a with placements := a.placements.map (Placement.rescale k) }

/-- A schedule with its scores rescaled. -/
def Schedule.rescale (k : Rat) (s : Schedule Rat) : Schedule Rat :=
  { s with allocation := s.allocation.rescale k }

/-- Rescaled scores compare as they did. -/
theorem bestOffer_rescale (hk : 0 < k) (offers : List (Offer Rat)) :
    bestOffer (offers.map (Offer.rescale k)) = (bestOffer offers).map (Offer.rescale k) :=
  bestOffer_map (fun _ _ => mul_lt_mul_iff_right₀ hk) offers

theorem scheduleOf_rescale (k : Rat) (ps : List (Placement Rat)) :
    scheduleOf (ps.map (Placement.rescale k)) = scheduleOf ps := by
  simp [scheduleOf, Placement.rescale, Function.comp_def]

end Rescale

/-! ## The run with rescaled scores -/

/-- Both weights of one pair are those of another, times a factor. -/
structure Weights.Multiple (k : Rat) (weights weights' : Weights Rat) : Prop where
  alpha : weights'.alpha = k * weights.alpha
  beta : weights'.beta = k * weights.beta

theorem Weights.Multiple.score {k : Rat} {weights weights' : Weights Rat}
    (h : Weights.Multiple k weights weights') (finish workload : Rat) :
    weights'.score finish workload = k * weights.score finish workload := by
  rw [Weights.score, Weights.score, h.alpha, h.beta]
  ring

namespace Allocation

variable {k : Rat} {weights weights' : Weights Rat} {w : Workflow Rat} {c : CostTable Rat}

theorem rescale_empty (k : Rat) (n : Nat) : (empty n).rescale k = empty n := rfl

theorem rescale_commit (k : Rat) (a : Allocation Rat) (t : Int) (m : Nat) (ready duration : Rat)
    (score : Option Rat) :
    (a.rescale k).commit t m ready duration (score.map (k * ·)) =
      (a.commit t m ready duration score).rescale k := by
  simp only [commit, rescale, List.map_append]
  rfl

theorem rescale_offer (h : weights.Multiple k weights') (a : Allocation Rat) (t : Int) (m : Nat) :
    (a.rescale k).offer w c weights' t m = Offer.rescale k <$> a.offer w c weights t m := by
  unfold offer
  rw [rescale, scheduleOf_rescale]
  cases readyTime w c (scheduleOf a.placements) t m with
  | error f => rfl
  | ok ready => exact congrArg (fun x => Except.ok (Offer.mk m ready x)) (h.score ..)

/-- A task goes to the same machine at the same time. -/
theorem rescale_place (hk : 0 < k) (h : weights.Multiple k weights') (a : Allocation Rat) (t : Int) :
    (a.rescale k).place w c weights' t = rescale k <$> a.place w c weights t := by
  have hcandidates : (a.rescale k).candidates c t = a.candidates c t := rfl
  unfold place
  rw [hcandidates, mapM_map fun m _ => rescale_offer h a t m, bind_map_left, map_bind]
  refine bind_congr fun offers => ?_
  rw [bestOffer_rescale hk]
  cases bestOffer offers with
  | none => exact congrArg Except.ok (rescale_commit k a t _ _ _ none)
  | some o => exact congrArg Except.ok (rescale_commit k a t _ _ _ (some o.score))

/-- A run with rescaled scores, task by task. -/
theorem rescale_placeAll (hk : 0 < k) (h : weights.Multiple k weights') (a : Allocation Rat)
    (ts : List Int) :
    (a.rescale k).placeAll w c weights' ts = rescale k <$> a.placeAll w c weights ts :=
  placeAll_map (I := fun _ => True) (fun t _ a _ => rescale_place hk h a t) (fun _ _ _ _ _ => trivial)
    trivial

end Allocation

variable {k : Rat} {weights weights' : Weights Rat} {w : Workflow Rat}
  {machines : List (Machine Rat)}

theorem rescale_scheduleFrom (hk : 0 < k) (h : weights.Multiple k weights') (c : CostTable Rat) :
    scheduleFrom weights' w machines c = Schedule.rescale k <$> scheduleFrom weights w machines c := by
  unfold scheduleFrom
  rw [map_bind]
  refine bind_congr fun ranks => ?_
  rw [map_bind]
  refine bind_congr fun order => ?_
  have hrun := Allocation.rescale_placeAll (w := w) (c := c) hk h (.empty machines.length) order
  rw [Allocation.rescale_empty] at hrun
  rw [hrun, bind_map_left, map_bind]
  rfl

/-! ## The same plan -/

/-- Two schedules that differ in the scores of the placements at most. -/
structure Schedule.SamePlan (s s' : Schedule Rat) : Prop where
  costs : s'.costs = s.costs
  ranks : s'.ranks = s.ranks
  order : s'.order = s.order
  /-- Every task has the same machine, start and finish. -/
  events : s'.events = s.events
  roster : s'.roster = s.roster
  workload : s'.allocation.workload = s.allocation.workload

theorem Schedule.samePlan_rescale (k : Rat) (s : Schedule Rat) : s.SamePlan (s.rescale k) where
  costs := rfl
  ranks := rfl
  order := rfl
  events := scheduleOf_rescale k s.allocation.placements
  roster := rfl
  workload := rfl

/-- Two outcomes of planning that are the same plan or the same obstacle. -/
def SameOutcome : Except (Obstacle Rat) (Schedule Rat) → Except (Obstacle Rat) (Schedule Rat) → Prop
  | .ok s, .ok s' => s.SamePlan s'
  | .error o, .error o' => o' = o
  | _, _ => False

/-- Every task is on a candidate on which it finishes no later than it would on any other. -/
def Schedule.FinishesFirst (s : Schedule Rat) : Prop :=
  ∀ before t after, s.order = before ++ t :: after →
    ∃ m x, s.workflow.Candidate s.machines t m ∧ IsLeast {y | s.Open before t m y} x ∧
      s.events.get? t = some ⟨t, x, x + s.costs.duration t m, m⟩ ∧
      ∀ k, s.workflow.Candidate s.machines t k → ∃ y, IsLeast {z | s.Open before t k z} y ∧
        x + s.costs.duration t m ≤ y + s.costs.duration t k

/-- Accepted weights, times a positive factor, are accepted. -/
theorem Weights.exists_multiple (hk : 0 < k) (weights : Weights Rat) :
    ∃ weights', Weights.ofValues (k * weights.alpha) (k * weights.beta) = .ok weights' ∧
      weights.Multiple k weights' := by
  have halpha : 0 ≤ k * weights.alpha := mul_nonneg hk.le (not_lt.1 weights.alpha_nonneg)
  have hbeta : 0 ≤ k * weights.beta := mul_nonneg hk.le (not_lt.1 weights.beta_nonneg)
  have hsum : 0 < k * weights.alpha + k * weights.beta := by
    rw [← mul_add]
    exact mul_pos hk (not_le.1 weights.sum_pos)
  let weights' : Weights Rat := ⟨k * weights.alpha, k * weights.beta, rfl, not_lt.2 halpha, rfl,
    not_lt.2 hbeta, not_le.2 hsum⟩
  exact ⟨weights', weights'.ofValues_values, rfl, rfl⟩

theorem Weights.alpha_pos (hbeta : weights.beta = 0) : 0 < weights.alpha := by
  have := not_le.1 weights.sum_pos
  rwa [hbeta, add_zero] at this

/-- Weights of the finish time alone are multiples of each other. -/
theorem Weights.multiple_of_beta (hbeta : weights.beta = 0) (hbeta' : weights'.beta = 0) :
    weights.Multiple (weights'.alpha / weights.alpha) weights' where
  alpha := (div_mul_cancel₀ _ (alpha_pos hbeta).ne').symm
  beta := by rw [hbeta, hbeta', mul_zero]

theorem Schedule.Planned.finishesFirst {s : Schedule Rat} (h : s.Planned weights w machines)
    (hc : s.costs.Describes (0 ≤ ·) w machines) (hne : machines ≠ []) (hbeta : weights.beta = 0) :
    s.FinishesFirst := by
  intro before t after hsplit
  obtain ⟨m, x, hm, hx, hevent, hbest⟩ := h.choice hc hne hsplit
  rw [h.workflow_eq, h.machines_eq]
  refine ⟨m, x, hm, hx, hevent, fun k hk => ?_⟩
  obtain ⟨y, hy, hle, -⟩ := hbest k hk
  refine ⟨y, hy, ?_⟩
  -- the score is the finish time times a positive weight
  simp only [scoreOf, Weights.score, hbeta, zero_mul, add_zero] at hle
  exact le_of_mul_le_mul_left hle (Weights.alpha_pos hbeta)

namespace Planning

variable {σ σ' : Session Rat}

/-- Weights of the same ratio make the same plan if the estimators give the same answers. -/
theorem sameOutcome_of_multiple (hk : 0 < k) (h : weights.Multiple k weights')
    (hanswers : ∀ r ∈ σ.estimator.replies (w.questions machines), ∃ x, r.result = .ok x)
    (hsame : (σ'.estimator.replies (w.questions machines)).map Reply.result =
      (σ.estimator.replies (w.questions machines)).map Reply.result) :
    SameOutcome ((plan weights w machines).runIn σ).1 ((plan weights' w machines).runIn σ').1 := by
  by_cases hm : machines = []
  · subst hm
    rfl
  obtain ⟨xs, e, hxs⟩ := Estimator.exists_answers hanswers
  obtain ⟨xs', e', hxs'⟩ : ∃ xs' e', σ'.estimator.Answers (w.questions machines) xs' e' := by
    refine Estimator.exists_answers fun r hr => ?_
    have hmem := hsame ▸ List.mem_map_of_mem hr
    obtain ⟨r', hr', hresult⟩ := List.mem_map.1 hmem
    rw [← hresult]
    exact hanswers r' hr'
  rw [hxs.results, hxs'.results] at hsame
  obtain rfl := List.map_injective_iff.2 (fun _ _ h => Except.ok.inj h) hsame
  obtain ⟨rows, hrun, hrun'⟩ := plan_same_answers weights weights' hm hxs hxs'
  rw [hrun, hrun']
  cases CostTable.ofEstimates w machines rows with
  | error f => rfl
  | ok c =>
    change SameOutcome (ended (scheduleFrom weights w machines c))
      (ended (scheduleFrom weights' w machines c))
    rw [rescale_scheduleFrom hk h]
    cases scheduleFrom weights w machines c with
    | error f => rfl
    | ok s => exact s.samePlan_rescale k

/-- Weights that are a positive multiple of accepted ones are accepted and give the same plan. If
the workload has no weight, any weight of the finish time gives the same plan, and every task is
where it finishes first. -/
theorem plan_ratio
    (hcosts : ∀ r ∈ σ.estimator.replies (w.questions machines), ∃ x, r.result = .ok x ∧ 0 ≤ x)
    (hsame : (σ'.estimator.replies (w.questions machines)).map Reply.result =
      (σ.estimator.replies (w.questions machines)).map Reply.result) :
    (∀ (weights : Weights Rat) (k : Rat), 0 < k → ∃ weights',
      Weights.ofValues (k * weights.alpha) (k * weights.beta) = .ok weights' ∧
        SameOutcome ((plan weights w machines).runIn σ).1
          ((plan weights' w machines).runIn σ').1) ∧
    ∀ weights : Weights Rat, weights.beta = 0 →
      (∀ weights' : Weights Rat, weights'.beta = 0 →
        SameOutcome ((plan weights w machines).runIn σ).1
          ((plan weights' w machines).runIn σ').1) ∧
      ∀ s, ((plan weights w machines).runIn σ).1 = .ok s → s.FinishesFirst := by
  have hanswers : ∀ r ∈ σ.estimator.replies (w.questions machines), ∃ x, r.result = .ok x :=
    fun r hr => (hcosts r hr).imp fun _ hx => hx.1
  refine ⟨fun weights k hk => ?_, fun weights hbeta => ⟨fun weights' hbeta' => ?_, fun s hs => ?_⟩⟩
  · obtain ⟨weights', haccepted, hmultiple⟩ := weights.exists_multiple hk
    exact ⟨weights', haccepted, sameOutcome_of_multiple hk hmultiple hanswers hsame⟩
  · exact sameOutcome_of_multiple (div_pos (Weights.alpha_pos hbeta') (Weights.alpha_pos hbeta))
      (Weights.multiple_of_beta hbeta hbeta') hanswers hsame
  · obtain ⟨hne, hplanned, hc, -⟩ := plan_exact (Prod.ext hs rfl) fun r hr x hx => by
      obtain ⟨y, hy, hnonneg⟩ := hcosts r hr
      rwa [← Except.ok.inj (hy.symm.trans hx)]
    exact hplanned.finishesFirst hc hne hbeta

/-- The fork on both machines, with three times the weights and with no weight for the workload. -/
theorem plan_ratio_fork :
    (∃ weights', Weights.ofValues (3 * Sample.evenly.alpha) (3 * Sample.evenly.beta) = .ok weights' ∧
      SameOutcome ((plan Sample.evenly Sample.fork [Sample.slow, Sample.fast]).runIn {}).1
        ((plan weights' Sample.fork [Sample.slow, Sample.fast]).runIn {}).1) ∧
    ∃ s σ', (plan Sample.earliest Sample.fork [Sample.slow, Sample.fast]).runIn {} = (.ok s, σ') ∧
      s.order = [0, 2, 1] ∧ s.FinishesFirst := by
  let σ : Session Rat := {}
  have hcosts : ∀ r ∈ σ.estimator.replies (Sample.fork.questions [Sample.slow, Sample.fast]),
      ∃ x, r.result = .ok x ∧ 0 ≤ x := by
    intro r hr
    obtain ⟨x, hx⟩ := static_answers (by decide +kernel) r hr
    exact ⟨x, hx, static_nonneg (by decide +kernel) (by decide +kernel) r hr x hx⟩
  have hsame : (σ.estimator.replies (Sample.fork.questions [Sample.slow, Sample.fast])).map
      Reply.result = _ := rfl
  obtain ⟨hscaled, hfirst⟩ := plan_ratio hcosts hsame
  obtain ⟨s, σ', hrun, horder⟩ := exists_runIn_of_map
    (show ((plan Sample.earliest Sample.fork [Sample.slow, Sample.fast]).runIn {}).1.toOption.map
      Schedule.order = some [0, 2, 1] by decide +kernel)
  refine ⟨hscaled Sample.evenly 3 (by norm_num), s, σ', hrun, horder, ?_⟩
  exact (hfirst Sample.earliest rfl).2 s (by rw [hrun])

end Planning

end EarliestFinish
