import EarliestFinish.Proofs.Placement
import EarliestFinish.Proofs.Run

/-!
# When a plan fails

If the estimator answers all questions, then a plan fails exactly on a malformed workflow, and it
fails before any task has a place: the fault comes from the cost table, the ranks or the order.
Once there is an order, every task of it is ready at some time on every machine, so a task is never
asked about with an unknown parent or with a parent that has no place yet.

Nothing is assumed of the numbers.
-/

namespace EarliestFinish

open Allocation

variable {α : Type} [Quantity α] {weights : Weights α} {w : Workflow α}
  {machines : List (Machine α)} {c : CostTable α} {ranks : Table Int α} {order : List Int}

theorem not_malformed (hranks : upwardRanks w c = .ok ranks)
    (horder : priorityOrder w ranks = .ok order) : ¬ w.Malformed := by
  obtain ⟨hkeys, hchildren⟩ := upwardRanks_ok hranks
  obtain ⟨hperm, hparents⟩ := priorityOrder_ok hkeys horder
  rintro (h | h | h | h)
  · exact hchildren.not_dangling hkeys h
  · exact hparents.not_dangling hperm h
  · exact hchildren.not_circular hkeys h
  · exact hparents.not_circular hperm h

/-- The state before any task of an order, in which the task is ready on every machine. -/
theorem exists_state_before (hranks : upwardRanks w c = .ok ranks)
    (horder : priorityOrder w ranks = .ok order) {before after : List Int} {t : Int}
    (hsplit : order = before ++ t :: after) :
    ∃ a, (empty machines.length).placeAll w c weights before = .ok a ∧
      ∀ machine, ∃ x, readyTime w c (scheduleOf a.placements) t machine = .ok x := by
  obtain ⟨hkeys, -⟩ := upwardRanks_ok hranks
  obtain ⟨hperm, hparents⟩ := priorityOrder_ok hkeys horder
  have hold : ∀ u ∈ order, w.Holds u := fun u hu => Workflow.holds_of_perm hperm hu
  -- a front part of a link-ordered list is link-ordered
  have hbefore : LinkOrdered w.parentsOf before := by
    rintro xs u ys rfl
    exact hparents xs u (ys ++ t :: after) (by simp [hsplit])
  obtain ⟨a, ha⟩ : ∃ a, (empty machines.length).placeAll w c weights before = .ok a :=
    exists_placeAll hbefore fun u hu => hold u (by rw [hsplit]; exact List.mem_append_left _ hu)
  have htasks : a.tasks = before := tasks_placeAll ha
  refine ⟨a, ha, exists_readyTime_of_tasks (hold t (by simp [hsplit])) fun p hp => ?_⟩
  have hmem : p ∈ before := hparents before t after hsplit p hp
  exact ⟨hold p (by rw [hsplit]; exact List.mem_append_left _ hmem), htasks ▸ hmem⟩

namespace Planning

variable {σ σ' : Session α} {s : Schedule α} {o : Obstacle α}

/-- An obstacle that comes up while no task has a place. -/
def FailsUnplaced (w : Workflow α) (machines : List (Machine α)) (σ : Session α)
    (o : Obstacle α) : Prop :=
  ((costTable w machines).runIn σ).1 = .error o ∨
    ∃ (c : CostTable α) (f : Fault α), o = f ∧ ((costTable w machines).runIn σ).1 = .ok c ∧
      (upwardRanks w c = .error f ∨ ∃ ranks, upwardRanks w c = .ok ranks ∧
        priorityOrder w ranks = .error f)

/-- A plan fails only while no task has a place. -/
theorem failsUnplaced_of_plan (hne : machines ≠ [])
    (h : ((plan weights w machines).runIn σ).1 = .error o) : FailsUnplaced w machines σ o := by
  rcases plan_error hne (Prod.ext h rfl) with
    hc | ⟨c, f, ho, hc, h | ⟨ranks, hranks, h | ⟨order, horder, h⟩⟩⟩
  · exact Or.inl (by rw [hc])
  · exact Or.inr ⟨c, f, ho, by rw [hc], Or.inl h⟩
  · exact Or.inr ⟨c, f, ho, by rw [hc], Or.inr ⟨ranks, hranks, h⟩⟩
  · obtain ⟨hkeys, -⟩ := upwardRanks_ok hranks
    obtain ⟨hperm, hparents⟩ := priorityOrder_ok hkeys horder
    -- tasks in such an order can all be placed, so the fault cannot come from the allocation
    obtain ⟨b, hb⟩ : ∃ b, (empty machines.length).placeAll w c weights order = .ok b :=
      exists_placeAll hparents fun u hu => Workflow.holds_of_perm hperm hu
    cases h.symm.trans hb

/-- A plan succeeds only on a workflow that is not malformed, and it has all tasks. -/
theorem wellFormed_of_plan (h : ((plan weights w machines).runIn σ).1 = .ok s) :
    ¬ w.Malformed ∧ s.events.keys.Perm w.positions := by
  obtain ⟨-, hplanned, -⟩ := plan_ok (Prod.ext h rfl)
  refine ⟨not_malformed hplanned.ranks_ok hplanned.order_ok, ?_⟩
  rw [Schedule.events, keys_scheduleOf, tasks_placeAll hplanned.allocation_ok]
  exact hplanned.order_perm

variable (hne : machines ≠ [])
  (hestimates : ∀ r ∈ σ.estimator.replies (w.questions machines), ∃ x, r.result = .ok x)
include hne hestimates

theorem costTable_outcome :
    (costTable w machines).Ensures σ (Dangles w)
      fun c _ => c.Describes (fun _ => True) w machines := by
  have hreplies : σ.estimator.AllReplies (fun _ => True) (fun _ => False)
      (w.questions machines) := by
    intro r hr
    obtain ⟨x, hx⟩ := hestimates r hr
    refine ⟨fun _ _ => trivial, fun o ho => ?_⟩
    rw [hx] at ho
    cases ho
  exact (costTable_ensures hne hreplies).mono (fun o ho => ho.resolve_left id) fun c s' h => h.1

theorem costTable_describes (hc : ((costTable w machines).runIn σ).1 = .ok c) :
    c.Describes (fun _ => True) w machines :=
  (costTable_outcome hne hestimates).ok (Prod.ext hc rfl)

/-- Such an obstacle is a fault in the workflow. -/
theorem FailsUnplaced.malformed (h : FailsUnplaced w machines σ o) :
    w.Malformed ∧ ∃ f : Fault α, o = f ∧ f.kind = .malformedGraph := by
  rcases h with h | ⟨c, f, ho, hc, h | ⟨ranks, hranks, h⟩⟩
  · obtain ⟨hdangling, hfault⟩ := (costTable_outcome hne hestimates).error (Prod.ext h rfl)
    exact ⟨Or.inl hdangling, hfault⟩
  · have hdescribes := costTable_describes hne hestimates hc
    obtain ⟨hkind, hchildren⟩ := upwardRanks_error (fun _ => hdescribes.covers) h
    rcases hchildren with hdangling | hcircular
    · exact ⟨Or.inl hdangling, f, ho, hkind⟩
    · exact ⟨Or.inr (Or.inr (Or.inl hcircular)), f, ho, hkind⟩
  · obtain ⟨hkeys, -⟩ := upwardRanks_ok hranks
    obtain ⟨hkind, hparents⟩ := priorityOrder_error hkeys h
    rcases hparents with hdangling | hcircular
    · exact ⟨Or.inr (Or.inl hdangling), f, ho, hkind⟩
    · exact ⟨Or.inr (Or.inr (Or.inr hcircular)), f, ho, hkind⟩

/-- A malformed workflow has no plan. -/
theorem exists_fault (weights : Weights α) (h : w.Malformed) :
    ∃ f : Fault α, ((plan weights w machines).runIn σ).1 = .error f ∧
      f.kind = .malformedGraph := by
  cases hrun : ((plan weights w machines).runIn σ).1 with
  | ok s => exact absurd h (wellFormed_of_plan hrun).1
  | error o =>
    obtain ⟨-, f, rfl, hkind⟩ := (failsUnplaced_of_plan hne hrun).malformed hne hestimates
    exact ⟨f, rfl, hkind⟩

/-- Any other workflow has one. -/
theorem exists_plan (weights : Weights α) (h : ¬ w.Malformed) :
    ∃ s, ((plan weights w machines).runIn σ).1 = .ok s := by
  cases hrun : ((plan weights w machines).runIn σ).1 with
  | ok s => exact ⟨s, rfl⟩
  | error o => exact absurd ((failsUnplaced_of_plan hne hrun).malformed hne hestimates).1 h

/-- A plan fails exactly on a malformed workflow, and before any task has a place. -/
theorem plan_fails_iff (weights : Weights α) :
    ((∃ f : Fault α, ((plan weights w machines).runIn σ).1 = .error f ∧
        f.kind = .malformedGraph) ↔ w.Malformed) ∧
      (¬ w.Malformed → ∃ s, ((plan weights w machines).runIn σ).1 = .ok s ∧
        s.events.keys.Perm w.positions) ∧
      (∀ o, ((plan weights w machines).runIn σ).1 = .error o → FailsUnplaced w machines σ o) ∧
      ∀ c ranks order, ((costTable w machines).runIn σ).1 = .ok c → upwardRanks w c = .ok ranks →
        priorityOrder w ranks = .ok order → ∀ before t after, order = before ++ t :: after →
          ∃ a, (empty machines.length).placeAll w c weights before = .ok a ∧
            ∀ machine, ∃ x, readyTime w c (scheduleOf a.placements) t machine = .ok x := by
  refine ⟨⟨?_, exists_fault hne hestimates weights⟩, fun hwell => ?_,
    fun o h => failsUnplaced_of_plan hne h, ?_⟩
  · rintro ⟨f, h, -⟩
    exact ((failsUnplaced_of_plan hne h).malformed hne hestimates).1
  · obtain ⟨s, hs⟩ := exists_plan hne hestimates weights hwell
    exact ⟨s, hs, (wellFormed_of_plan hs).2⟩
  · intro c ranks order hc hranks horder before t after hsplit
    exact exists_state_before hranks horder hsplit

omit hne hestimates in
/-- The knot cannot be planned. -/
theorem plan_fails_iff_knot :
    Sample.knot.Malformed ∧
      ∃ f : Fault Rat, ((plan Sample.evenly Sample.knot [Sample.slow]).runIn {}).1 = .error f ∧
        f.kind = .malformedGraph := by
  have hmalformed : Sample.knot.Malformed := by
    refine Or.inr (Or.inr (Or.inr ⟨0, ?_⟩))
    exact .head (b := 1) ⟨by decide, by decide⟩ (.single ⟨by decide, by decide⟩)
  refine ⟨hmalformed, ?_⟩
  have hspeed : ∀ machine ∈ [Sample.slow], Quantity.isZero machine.speed = false := by
    decide +kernel
  exact (plan_fails_iff (by simp) (static_answers hspeed) Sample.evenly).1.2 hmalformed

end Planning

end EarliestFinish
