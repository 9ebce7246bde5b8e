import EarliestFinish.Proofs.History

/-!
# Schedules are valid

A schedule is valid if no two events of a machine overlap, every task runs once and for its
duration, no task starts before its parents have arrived, and every workload is the time for which
the machine is busy. In exact quantities, and with estimates that are not negative, every schedule
that comes out of a plan is valid, whatever the workflow and the machines: `plan_valid`.
-/

namespace EarliestFinish

open Allocation

namespace Schedule

/-- What makes a schedule one that can be carried out as it stands. -/
structure Valid (s : Schedule Rat) : Prop where
  /-- There is a lane for every machine. -/
  lanes : s.roster.keys = (List.range s.machines.length).map Int.ofNat
  /-- On a machine, one event is over before the next one starts. -/
  inOrder : ∀ m < s.machines.length, Lane.InOrder (s.laneOf m)
  /-- Every task has an event, in the lane of its machine and of the length of its duration. -/
  runs : ∀ t, s.workflow.Holds t → ∃ m < s.machines.length, ∃ e ∈ s.laneOf m,
    s.events.get? t = some e ∧ e.task = t ∧ e.machine = m ∧ 0 ≤ e.start ∧
      e.finish = e.start + s.costs.duration t m
  /-- The lanes hold no other events. -/
  owned : ∀ m < s.machines.length, ∀ e ∈ s.laneOf m, s.events.get? e.task = some e
  /-- No task starts before its parents have finished and, from elsewhere, have arrived. -/
  arrived : ∀ t, ∀ e, s.events.get? t = some e → ∀ p ∈ s.workflow.parentsOf t,
    ∃ f, s.events.get? p = some f ∧ (f.machine = e.machine → f.finish ≤ e.start) ∧
      (f.machine ≠ e.machine → f.finish + s.costs.transferCost p t ≤ e.start)
  /-- The workload of a machine is the total length of its events. -/
  workload : ∀ m < s.machines.length,
    s.allocation.workload[m]? = some ((s.laneOf m).map Event.length).sum

namespace Planned

variable {weights : Weights Rat} {w : Workflow Rat} {machines : List (Machine Rat)}
  {s : Schedule Rat} {t : Int} {e : Event Rat}

theorem runs (h : s.Planned weights w machines) (hc : s.costs.Describes (0 ≤ ·) w machines)
    (hne : machines ≠ []) (ht : t ∈ s.order) :
    ∃ m < machines.length, ∃ e ∈ s.laneOf m, s.events.get? t = some e ∧ e.task = t ∧
      e.machine = m ∧ 0 ≤ e.start ∧ e.finish = e.start + s.costs.duration t m := by
  have hcons := h.consistent hc hne
  obtain ⟨e, he, rfl⟩ := h.exists_event ht
  obtain ⟨m, hm, hmachine, hstart, hfinish⟩ := hcons.placed e he
  refine ⟨m, hm, e, ?_, h.get?_task he, rfl, hmachine, hstart, hfinish⟩
  rw [h.laneOf_eq hne hm]
  exact (hcons.aligned.mem_lane hm).2 ⟨he, hmachine⟩

/-- A task starts when its parents have arrived, as they were found when it was placed. -/
theorem arrived (h : s.Planned weights w machines) (hc : s.costs.Describes (0 ≤ ·) w machines)
    (hne : machines ≠ []) (he : s.events.get? t = some e) {p : Int}
    (hp : p ∈ w.parentsOf t) :
    ∃ f, s.events.get? p = some f ∧ arrival s.costs t p e.machine f ≤ e.start := by
  obtain ⟨before, after, hsplit⟩ := List.append_of_mem (h.mem_order_of_get? he)
  -- the start is the earliest open time, so it is an open time
  obtain ⟨m, x, -, ⟨hopen, -⟩, hevent, -⟩ := h.choice hc hne hsplit
  obtain rfl := Option.some.inj (he.symm.trans hevent)
  exact hopen.arrived p (h.workflow_eq ▸ hp)

theorem valid (h : s.Planned weights w machines) (hc : s.costs.Describes (0 ≤ ·) w machines)
    (hne : machines ≠ []) : s.Valid := by
  have hcons := h.consistent hc hne
  have hmachines := h.machines_eq
  have hworkflow := h.workflow_eq
  constructor
  case lanes =>
    rw [hmachines]
    exact hcons.aligned.keys_roster
  case inOrder =>
    intro m hm
    rw [hmachines] at hm
    rw [h.laneOf_eq hne hm]
    exact hcons.inOrder m hm
  case runs =>
    intro t ht
    rw [hworkflow] at ht
    rw [hmachines]
    exact h.runs hc hne (Workflow.mem_of_perm h.order_perm ht)
  case owned =>
    intro m hm e he
    rw [hmachines] at hm
    rw [h.laneOf_eq hne hm] at he
    exact h.get?_task ((hcons.aligned.mem_lane hm).1 he).1
  case arrived =>
    intro t e he p hp
    rw [hworkflow] at hp
    obtain ⟨f, hf, harrival⟩ := h.arrived hc hne he hp
    refine ⟨f, hf, fun hsame => ?_, fun hother => ?_⟩
    · rwa [arrival, if_pos hsame] at harrival
    · rwa [arrival, if_neg hother] at harrival
  case workload =>
    intro m hm
    rw [hmachines] at hm
    have hlt : m < s.allocation.workload.length := hcons.loads ▸ hm
    have hload := hcons.load m hm
    rw [load, List.getElem?_eq_getElem hlt, Option.getD_some] at hload
    rw [List.getElem?_eq_getElem hlt, h.laneOf_eq hne hm, hload, Lane.busyTime_eq_sum]

end Planned

end Schedule

namespace Planning

variable {weights : Weights Rat} {w : Workflow Rat} {machines : List (Machine Rat)}
  {σ σ' : Session Rat} {s : Schedule Rat}

/-- Every schedule that comes out of a plan is valid. -/
theorem plan_valid (h : (plan weights w machines).runIn σ = (.ok s, σ'))
    (hestimates : ∀ r ∈ σ.estimator.replies (w.questions machines),
      ∀ x, r.result = .ok x → 0 ≤ x) :
    s.workflow = w ∧ s.machines = machines ∧ s.Valid := by
  obtain ⟨hne, hplanned, hc, -⟩ := plan_exact h hestimates
  exact ⟨hplanned.workflow_eq, hplanned.machines_eq, hplanned.valid hc hne⟩

/-- The plan of the fork on both machines. -/
theorem plan_valid_fork :
    ∃ s σ', (plan Sample.evenly Sample.fork [Sample.slow, Sample.fast]).runIn {} = (.ok s, σ') ∧
      s.makespan = 10 ∧ s.Valid := by
  obtain ⟨s, σ', hrun, hmakespan⟩ := exists_runIn_of_map Sample.makespan_fork
  refine ⟨s, σ', hrun, hmakespan, ?_⟩
  exact (plan_valid hrun (static_nonneg (by decide +kernel) (by decide +kernel))).2.2

end Planning

end EarliestFinish
