import EarliestFinish.Proofs.History

/-!
# A bound on the makespan

The planner starts a task at zero, at the end of an earlier event, or when the files of a parent
have arrived. So no task is over later than all tasks so far take one after the other, with the
transfers between machines that they pay: `Planned.finish_le`, by induction on the order. For a
whole schedule this is the workload and the communication cost, and if every task fits somewhere,
ten times as much is below the infeasible cost: `plan_makespan_le`.
-/

namespace EarliestFinish

open Allocation

section Sums

variable {β : Type} {f : β → Rat} {xs : List β} {p q : β → Bool}

theorem sum_filter_mono (hf : ∀ a ∈ xs, 0 ≤ f a) (hpq : ∀ a, p a = true → q a = true) :
    ((xs.filter p).map f).sum ≤ ((xs.filter q).map f).sum := by
  refine ((List.monotone_filter_right xs hpq).map f).sum_le_sum fun x hx => ?_
  obtain ⟨a, ha, rfl⟩ := List.mem_map.1 hx
  exact hf a (List.mem_of_mem_filter ha)

/-- An element that only the second of two filters lets through adds to the sum. -/
theorem sum_filter_add_le (hf : ∀ a ∈ xs, 0 ≤ f a) (hpq : ∀ a, p a = true → q a = true) {a : β}
    (ha : a ∈ xs) (hp : p a = false) (hq : q a = true) :
    ((xs.filter p).map f).sum + f a ≤ ((xs.filter q).map f).sum := by
  obtain ⟨front, back, rfl⟩ := List.append_of_mem ha
  simp only [List.mem_append, List.mem_cons] at hf
  have hfront := sum_filter_mono (fun b hb => hf b (Or.inl hb)) hpq
  have hback := sum_filter_mono (fun b hb => hf b (Or.inr (Or.inr hb))) hpq
  have hnot : ¬ p a = true := by simp [hp]
  simp only [List.filter_append, List.filter_cons_of_pos hq, List.filter_cons_of_neg hnot,
    List.map_append, List.map_cons, List.sum_append, List.sum_cons]
  linarith

end Sums

namespace Schedule

/-- The time that some tasks run. -/
def workOf (s : Schedule Rat) (ts : List Int) : Rat :=
  (ts.map fun t => ((s.events.get? t).map Event.length).getD 0).sum

/-- The transfers that are paid. -/
def crossings (s : Schedule Rat) : List ((Int × Int) × Rat) :=
  s.costs.transfer.entries.filter fun ((p, c), _) =>
    (s.events.get? p).map Event.machine ≠ (s.events.get? c).map Event.machine

/-- The transfer time that is paid for some tasks to get their files. -/
def paidFor (s : Schedule Rat) (ts : List Int) : Rat :=
  ((s.crossings.filter fun e => e.1.2 ∈ ts).map Prod.snd).sum

theorem communicationCost_eq (s : Schedule Rat) :
    s.communicationCost = (s.crossings.map Prod.snd).sum :=
  Quantity.running_eq_sum _

theorem workOf_concat (s : Schedule Rat) (ts : List Int) (t : Int) :
    s.workOf (ts ++ [t]) = s.workOf ts + ((s.events.get? t).map Event.length).getD 0 := by
  simp [workOf]

namespace Planned

variable {weights : Weights Rat} {w : Workflow Rat} {machines : List (Machine Rat)}
  {s : Schedule Rat} {t : Int} {e : Event Rat} {before after : List Int}

theorem crossing_nonneg (hc : s.costs.Describes (0 ≤ ·) w machines) :
    ∀ e ∈ s.crossings, 0 ≤ e.2 :=
  fun e he => hc.transfer_nonneg e (List.mem_of_mem_filter he)

theorem sum_crossings_nonneg (hc : s.costs.Describes (0 ≤ ·) w machines)
    {xs : List ((Int × Int) × Rat)} (hxs : xs.Sublist s.crossings) :
    0 ≤ (xs.map Prod.snd).sum := by
  refine List.sum_nonneg fun x hx => ?_
  obtain ⟨e, he, rfl⟩ := List.mem_map.1 hx
  exact crossing_nonneg hc e (hxs.subset he)

theorem paidFor_mono (hc : s.costs.Describes (0 ≤ ·) w machines) (before : List Int) (t : Int) :
    s.paidFor before ≤ s.paidFor (before ++ [t]) :=
  sum_filter_mono (crossing_nonneg hc) fun e he => by
    simp only [decide_eq_true_eq] at he ⊢
    exact List.mem_append_left _ he

/-- A transfer from another machine is among those that are paid. -/
theorem paidFor_add_le (hc : s.costs.Describes (0 ≤ ·) w machines) (ht : t ∉ before)
    {f : Event Rat} {p : Int} (he : s.events.get? t = some e) (hf : s.events.get? p = some f)
    (hmachine : f.machine ≠ e.machine) :
    s.paidFor before + s.costs.transferCost p t ≤ s.paidFor (before ++ [t]) := by
  unfold CostTable.transferCost
  cases hx : s.costs.transfer.get? (p, t) with
  | none =>
    rw [Option.getD_none]
    have := paidFor_mono hc before t
    linarith
  | some x =>
    have hmem : ((p, t), x) ∈ s.crossings := by
      refine List.mem_filter.2 ⟨Table.mem_entries_of_get? hx, ?_⟩
      simpa [he, hf] using hmachine
    refine sum_filter_add_le (crossing_nonneg hc) (fun a ha => ?_) hmem ?_ ?_
    · simp only [decide_eq_true_eq] at ha ⊢
      exact List.mem_append_left _ ha
    · exact decide_eq_false ht
    · exact decide_eq_true (by simp)

theorem length_nonneg (h : s.Planned weights w machines)
    (hc : s.costs.Describes (0 ≤ ·) w machines) (hne : machines ≠ [])
    (he : e ∈ s.allocation.events) : 0 ≤ e.length := by
  obtain ⟨m, -, -, -, hfinish⟩ := (h.consistent hc hne).placed e he
  have := hc.duration_nonneg e.task m
  unfold Event.length
  linarith

theorem finish_nonneg (h : s.Planned weights w machines)
    (hc : s.costs.Describes (0 ≤ ·) w machines) (hne : machines ≠ [])
    (he : e ∈ s.allocation.events) : 0 ≤ e.finish := by
  obtain ⟨m, -, -, hstart, hfinish⟩ := (h.consistent hc hne).placed e he
  have := hc.duration_nonneg e.task m
  linarith

theorem workOf_nonneg (h : s.Planned weights w machines)
    (hc : s.costs.Describes (0 ≤ ·) w machines) (hne : machines ≠ []) (ts : List Int) :
    0 ≤ s.workOf ts := by
  refine List.sum_nonneg fun x hx => ?_
  obtain ⟨t, -, rfl⟩ := List.mem_map.1 hx
  cases he : s.events.get? t with
  | none => exact le_refl (0 : Rat)
  | some e => exact h.length_nonneg hc hne (mem_events_of_get? he).1

/-- When all tasks so far are over, and have paid their transfers, a task can run. -/
theorem open_of_finish_le (h : s.Planned weights w machines)
    (hc : s.costs.Describes (0 ≤ ·) w machines) (hne : machines ≠ [])
    (hsplit : s.order = before ++ t :: after) (he : s.events.get? t = some e) {m : Nat} {x : Rat}
    (hm : m < machines.length) (hmachine : e.machine = m) (hopen : s.Open before t m x)
    (hfinish : ∀ u ∈ before, ∀ f, s.events.get? u = some f →
      f.finish ≤ s.workOf before + s.paidFor before) :
    s.Open before t m (s.workOf before + s.paidFor (before ++ [t])) := by
  have hmono := paidFor_mono hc before t
  have hnot : t ∉ before := by
    have hnodup : (before ++ t :: after).Nodup := hsplit ▸ h.order_nodup
    exact fun hmem => (List.disjoint_of_nodup_append hnodup) hmem List.mem_cons_self
  -- it fits behind the last event of its lane
  refine ⟨?_, fun p hp => ?_, s.laneBefore before m, [], List.append_nil _, fun f hf => ?_, by simp⟩
  · have := h.workOf_nonneg hc hne before
    have : 0 ≤ s.paidFor (before ++ [t]) := sum_crossings_nonneg hc List.filter_sublist
    linarith
  · obtain ⟨f, hf, -⟩ := hopen.arrived p hp
    rw [h.workflow_eq] at hp
    have hover := hfinish p (h.order_links before t after hsplit p hp) f hf
    refine ⟨f, hf, ?_⟩
    unfold arrival
    split
    · linarith
    · next hother =>
      have := paidFor_add_le hc hnot he hf (by rwa [hmachine])
      linarith
  · obtain ⟨hlane, hbefore⟩ := List.mem_filter.1 (List.mem_of_mem_getLast? hf)
    rw [h.laneOf_eq hne hm] at hlane
    have hmem := (((h.aligned hne).mem_lane hm).1 hlane).1
    have := hfinish f.task (of_decide_eq_true hbefore) f (h.get?_task hmem)
    linarith

/-- No task is over later than all tasks so far take, one after the other and with their
transfers. -/
theorem finish_le (h : s.Planned weights w machines) (hc : s.costs.Describes (0 ≤ ·) w machines)
    (hne : machines ≠ []) (hsplit : s.order = before ++ after) :
    ∀ t ∈ before, ∀ e, s.events.get? t = some e →
      e.finish ≤ s.workOf before + s.paidFor before := by
  induction before using List.reverseRecOn generalizing after with
  | nil => simp
  | append_singleton before t ih =>
    have hsplit' : s.order = before ++ t :: after := by simpa using hsplit
    have hbefore := ih hsplit'
    have ht : w.Holds t := h.holds (by simp [hsplit'])
    obtain ⟨m, x, hcandidate, ⟨hopen, hleast⟩, hevent, -⟩ := h.choice hc hne hsplit'
    have hm : m < machines.length := ((hc.candidate_iff ht).1 hcandidate).1
    -- the start is the earliest open time, and all of this work and these transfers end at one
    have hstart : x ≤ s.workOf before + s.paidFor (before ++ [t]) :=
      hleast (h.open_of_finish_le hc hne hsplit' hevent hm rfl hopen hbefore)
    have hlength : s.workOf (before ++ [t]) = s.workOf before + s.costs.duration t m := by
      rw [workOf_concat, hevent]
      exact congrArg _ (add_sub_cancel_left x _)
    have hduration := hc.duration_nonneg t m
    intro u hu e he
    rw [hlength]
    rcases List.mem_append.1 hu with hu | hu
    · have := hbefore u hu e he
      have := paidFor_mono hc before t
      linarith
    · obtain rfl := List.mem_singleton.1 hu
      obtain rfl := Option.some.inj (he.symm.trans hevent)
      linarith

theorem workOf_order (h : s.Planned weights w machines)
    (hc : s.costs.Describes (0 ≤ ·) w machines) (hne : machines ≠ []) :
    s.workOf s.order = s.allocation.workload.sum := by
  rw [(h.consistent hc hne).total, Lane.busyTime_eq_sum, workOf, ← h.tasks_eq, tasks, List.map_map]
  refine congrArg List.sum (List.map_congr_left fun e he => ?_)
  rw [Function.comp_apply, h.get?_task he]
  rfl

theorem paidFor_le (hc : s.costs.Describes (0 ≤ ·) w machines) (ts : List Int) :
    s.paidFor ts ≤ s.communicationCost := by
  rw [communicationCost_eq]
  refine (List.filter_sublist.map Prod.snd).sum_le_sum fun x hx => ?_
  obtain ⟨e, he, rfl⟩ := List.mem_map.1 hx
  exact crossing_nonneg hc e he

theorem finish_le_total (h : s.Planned weights w machines)
    (hc : s.costs.Describes (0 ≤ ·) w machines) (hne : machines ≠ [])
    (he : e ∈ s.allocation.events) :
    e.finish ≤ s.allocation.workload.sum + s.communicationCost := by
  have ht : e.task ∈ s.order := by
    rw [← h.tasks_eq]
    exact List.mem_map_of_mem he
  have hfinish := h.finish_le hc hne (List.append_nil _).symm e.task ht e (h.get?_task he)
  have hpaid := paidFor_le hc s.order
  rw [h.workOf_order hc hne] at hfinish
  linarith

/-- The makespan is at most the workload and the communication cost. -/
theorem makespan_le (h : s.Planned weights w machines)
    (hc : s.costs.Describes (0 ≤ ·) w machines) (hne : machines ≠ []) :
    s.makespan ≤ s.allocation.workload.sum + s.communicationCost := by
  refine Quantity.largestOr_le ?_ fun x hx => ?_
  · have hwork := h.workOf_nonneg hc hne s.order
    have hcost : 0 ≤ s.communicationCost := by
      rw [communicationCost_eq]
      exact sum_crossings_nonneg hc (List.Sublist.refl _)
    rw [h.workOf_order hc hne] at hwork
    exact add_nonneg hwork hcost
  · rw [values_events] at hx
    obtain ⟨e, he, rfl⟩ := List.mem_map.1 hx
    exact h.finish_le_total hc hne he

/-- If every task fits somewhere, then the machines work no longer than the slowest feasible run of
all tasks takes. -/
theorem workload_le (h : s.Planned weights w machines)
    (hc : s.costs.Describes (0 ≤ ·) w machines) (hne : machines ≠ [])
    (hfits : ∀ t, w.Holds t → s.costs.fitsSomewhere t = true) :
    s.allocation.workload.sum ≤ (w.positions.map fun t => slowest (s.costs.rowOf t)).sum := by
  rw [← h.workOf_order hc hne, ← (h.order_perm.map _).sum_eq]
  refine List.sum_le_sum fun t ht => ?_
  obtain ⟨before, after, hsplit⟩ := List.append_of_mem ht
  obtain ⟨m, x, hcandidate, -, hevent, -⟩ := h.choice hc hne hsplit
  have hholds := h.holds ht
  have hfeasible := ((hc.candidate_iff hholds).1 hcandidate).2 (hfits t hholds)
  have hlength : x + s.costs.duration t m - x = s.costs.duration t m := add_sub_cancel_left ..
  rw [hevent, Option.map_some, Option.getD_some, Event.length, hlength]
  exact CostTable.duration_le_slowest hfeasible

theorem communicationCost_le (hc : s.costs.Describes (0 ≤ ·) w machines) :
    s.communicationCost ≤ s.costs.transfer.values.sum := by
  rw [communicationCost_eq]
  refine (List.filter_sublist.map Prod.snd).sum_le_sum fun x hx => ?_
  obtain ⟨e, he, rfl⟩ := List.mem_map.1 hx
  exact hc.transfer_nonneg e he

end Planned

end Schedule

namespace Planning

variable {weights : Weights Rat} {w : Workflow Rat} {machines : List (Machine Rat)}
  {σ σ' : Session Rat} {s : Schedule Rat}

/-- The makespan of a plan is at most its workload and its communication cost. If every task fits
somewhere, no task ends as late as one infeasible placement takes. -/
theorem plan_makespan_le (h : (plan weights w machines).runIn σ = (.ok s, σ'))
    (hestimates : ∀ r ∈ σ.estimator.replies (w.questions machines),
      ∀ x, r.result = .ok x → 0 ≤ x) :
    s.makespan ≤ s.allocation.workload.sum + s.communicationCost ∧
      ((∀ task ∈ w.tasks, ∃ machine ∈ machines, machine.fits task = true) →
        10 * (s.makespan + 1) ≤ s.costs.infeasibleCost ∧
        ∀ e ∈ s.events.values, ∀ t m, s.costs.feasible t m = false →
          e.finish < s.costs.duration t m) := by
  obtain ⟨hne, hplanned, hc, -⟩ := plan_exact h hestimates
  have hmakespan := hplanned.makespan_le hc hne
  refine ⟨hmakespan, fun hfits => ?_⟩
  have hsomewhere (t : Int) (ht : w.Holds t) : s.costs.fitsSomewhere t = true := by
    obtain ⟨task, hmem, htask⟩ := Workflow.exists_task ht
    obtain ⟨machine, hmachine, hfit⟩ := hfits task hmem
    rw [hc.fitsSomewhere_eq htask, fitsNowhere_eq_false hmachine hfit]
    rfl
  have hwork := hplanned.workload_le hc hne hsomewhere
  have hpaid := Schedule.Planned.communicationCost_le hc
  have hsentinel : 10 * (s.makespan + 1) ≤ s.costs.infeasibleCost := by
    rw [hc.infeasibleCost_eq]
    linarith
  refine ⟨hsentinel, fun e he t m hinfeasible => ?_⟩
  have hlast : e.finish ≤ s.makespan := Quantity.le_largestOr 0 (List.mem_map_of_mem he)
  have hfinish : 0 ≤ e.finish := by
    rw [Schedule.Planned.values_events] at he
    exact hplanned.finish_nonneg hc hne he
  rw [CostTable.duration_of_not_feasible hinfeasible]
  linarith

/-- The plan of the fork on both machines. -/
theorem plan_makespan_le_fork :
    ∃ s σ', (plan Sample.evenly Sample.fork [Sample.slow, Sample.fast]).runIn {} = (.ok s, σ') ∧
      s.makespan = 10 ∧ 10 ≤ s.allocation.workload.sum + s.communicationCost ∧
      110 ≤ s.costs.infeasibleCost := by
  obtain ⟨s, σ', hrun, hmakespan⟩ := exists_runIn_of_map Sample.makespan_fork
  obtain ⟨hbound, hsentinel⟩ :=
    plan_makespan_le hrun (static_nonneg (by decide +kernel) (by decide +kernel))
  have hinfeasible := (hsentinel (by decide +kernel)).1
  rw [hmakespan] at hbound hinfeasible
  exact ⟨s, σ', hrun, hmakespan, hbound, by linarith⟩

end Planning

end EarliestFinish
