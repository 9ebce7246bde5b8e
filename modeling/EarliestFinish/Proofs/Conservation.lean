import EarliestFinish.Proofs.IdleTime
import EarliestFinish.Proofs.Spread
import EarliestFinish.Proofs.Validity

/-!
# Idle and busy time

Idle times add up the gaps between events and busy times the lengths of events, and neither looks at
the other. If the events of every machine follow one another in time, the two make up the makespan
on every machine and the makespan of every machine all together. So the makespan is at least the
mean busy time, and it is equal to it exactly if no machine is ever idle (`idle_conserved`).
-/

namespace EarliestFinish

namespace Idle

variable {makespan : Rat} {events : List (Event Rat)}

theorem le_addGaps (makespan idle : Rat) (events : List (Event Rat)) :
    idle ≤ addGaps makespan idle events := by
  fun_induction addGaps makespan idle events with
  | case1 idle a b later ih =>
    rw [Quantity.larger_eq_max] at ih ⊢
    exact (le_add_of_nonneg_right (le_max_left ..)).trans ih
  | case2 idle last =>
    rw [Quantity.larger_eq_max]
    exact le_add_of_nonneg_right (le_max_left ..)
  | case3 idle => exact le_refl idle

theorem ofEvents_nonneg (hmakespan : 0 ≤ makespan) (h : ∀ e ∈ events, 0 ≤ e.start) :
    0 ≤ ofEvents makespan events := by
  unfold ofEvents
  split
  · exact hmakespan
  · next first later hs =>
    have hfirst : first ∈ events := by
      apply (sortBy_perm Event.start events).mem_iff.1
      rw [hs]
      exact List.mem_cons_self
    exact (h first hfirst).trans (le_addGaps ..)

end Idle

namespace Roster

open Idle Quantity

variable {r : Roster Rat}

/-- Some machines on each of which events follow one another in time, from zero on. -/
structure Timed (r : Roster Rat) : Prop where
  machines : r.entries ≠ []
  lanes : ∀ events ∈ r.values, Lane.Timed events

/-- Idle and busy time make up the makespan, and a ratio, which is zero if no machine is busy, tells
whether there is any idle time. -/
structure Conserved (r : Roster Rat) (busy : List (Int × Rat)) (ratio : Rat) : Prop where
  perMachine : r.idle.perMachine = busy.map fun (m, x) => (m, r.idle.makespan - x)
  nonneg : ∀ p ∈ r.idle.perMachine, 0 ≤ p.2
  total : r.idle.total + (busy.map Prod.snd).sum = r.entries.length * r.idle.makespan
  ratio_eq_zero : (∀ p ∈ busy, p.2 = 0) → ratio = 0
  one_le_ratio : (∃ p ∈ busy, p.2 ≠ 0) → 1 ≤ ratio
  ratio_eq_one_iff : (∃ p ∈ busy, p.2 ≠ 0) → (ratio = 1 ↔ r.idle.total = 0)

/-! ## The two computations -/

theorem exists_loadBalance [SquareRoot Rat] (r : Roster Rat) :
    ∃ load, r.loadBalance = .ok load ∧ load.busy = r.busy :=
  ⟨_, loadBalance_ok (LoadBalance.fairnessOf_eq _), rfl⟩

/-- The mean busy time. -/
def meanBusy (r : Roster Rat) : Rat := (r.values.map Lane.busyTime).sum / r.entries.length

theorem loadRatio_eq (r : Roster Rat) :
    r.loadRatio = .ok (if 0 < r.meanBusy then r.makespan / r.meanBusy else 0) := by
  have hfairness := LoadBalance.fairnessOf_eq (r.busy.map Prod.snd)
  have hlength : (r.busy.map Prod.snd).length = r.entries.length := by simp [busy]
  rw [loadRatio, hfairness, meanBusy, ← values_busy, ← hlength, ← running_eq_sum]
  rfl

namespace Timed

theorem separate (h : r.Timed) : ∀ events ∈ r.values, Lane.Separate events := fun events he =>
  (h.lanes events he).inOrder.separate

theorem makespan_nonneg (h : r.Timed) : 0 ≤ r.makespan := by
  show 0 ≤ largestOr 0 (r.events.map Event.finish)
  cases hevents : r.events with
  | nil => exact le_refl 0
  | cons e later =>
    have he : e ∈ r.values.flatten := by
      show e ∈ r.events
      rw [hevents]
      exact List.mem_cons_self
    obtain ⟨events, hlane, he⟩ := List.mem_flatten.1 he
    obtain ⟨hzero, hinOrder⟩ := h.lanes events hlane
    calc 0 ≤ e.start := hzero e he
      _ ≤ e.finish := hinOrder.forward e he
      _ ≤ largestOr 0 ((e :: later).map Event.finish) := le_largestOr 0 List.mem_cons_self

theorem overlooked_eq_zero (h : r.Timed) : ∀ events ∈ r.values, overlooked events = 0 := by
  intro events hmem
  obtain ⟨-, hinOrder⟩ := h.lanes events hmem
  exact (overlooked_eq_zero_iff hinOrder.forward).2 hinOrder.byEnds

theorem perMachine_eq_busy (h : r.Timed) :
    r.idle.perMachine = r.busy.map fun (m, x) => (m, r.makespan - x) := by
  rw [perMachine_eq h.separate, busy, List.map_map]
  refine List.map_congr_left fun p hp => ?_
  show (p.1, _) = (p.1, _)
  rw [h.overlooked_eq_zero p.2 (List.mem_map_of_mem hp), add_zero]

theorem perMachine_nonneg (h : r.Timed) : ∀ p ∈ r.idle.perMachine, 0 ≤ p.2 := by
  intro p hp
  obtain ⟨⟨m, events⟩, hentry, rfl⟩ := List.mem_map.1 hp
  have hmem : events ∈ r.values := List.mem_map_of_mem hentry
  exact ofEvents_nonneg h.makespan_nonneg (h.lanes events hmem).fromZero

theorem total_add_busy (h : r.Timed) :
    r.idle.total + (r.values.map Lane.busyTime).sum = r.entries.length * r.makespan := by
  have hnone : (r.values.map overlooked).sum = 0 :=
    List.sum_eq_zero (List.forall_mem_map.2 h.overlooked_eq_zero)
  rw [total_eq h.separate, hnone]
  ring

theorem total_nonneg (h : r.Timed) : 0 ≤ r.idle.total := by
  rw [idle_total_eq_sum]
  refine List.sum_nonneg fun x hx => ?_
  obtain ⟨p, hp, rfl⟩ := List.mem_map.1 hx
  exact h.perMachine_nonneg p hp

theorem busy_nonneg (h : r.Timed) : ∀ x ∈ r.values.map Lane.busyTime, 0 ≤ x :=
  List.forall_mem_map.2 fun events hmem => Lane.busyTime_nonneg (h.separate events hmem).forward

/-- The machines together are never busy exactly if none of them is. -/
theorem sum_busy_eq_zero_iff (h : r.Timed) :
    (r.values.map Lane.busyTime).sum = 0 ↔ ∀ p ∈ r.busy, p.2 = 0 := by
  rw [sum_eq_zero_iff h.busy_nonneg, ← values_busy, List.forall_mem_map]

theorem length_pos (h : r.Timed) : 0 < (r.entries.length : Rat) := by
  exact_mod_cast List.length_pos_iff.2 h.machines

/-- If some machine is busy, then so are the machines on average. -/
theorem meanBusy_pos (h : r.Timed) (hsome : ∃ p ∈ r.busy, p.2 ≠ 0) : 0 < r.meanBusy := by
  obtain ⟨p, hp, hne⟩ := hsome
  apply div_pos _ h.length_pos
  apply lt_of_le_of_ne (List.sum_nonneg h.busy_nonneg)
  intro hzero
  exact hne (h.sum_busy_eq_zero_iff.1 hzero.symm p hp)

/-- On average a machine is idle for the makespan less the mean busy time. -/
theorem total_eq_meanBusy (h : r.Timed) :
    r.idle.total = r.entries.length * (r.makespan - r.meanBusy) := by
  have htotal := h.total_add_busy
  rw [mul_sub, meanBusy, mul_div_cancel₀ _ h.length_pos.ne']
  linarith

theorem meanBusy_le (h : r.Timed) : r.meanBusy ≤ r.makespan := by
  have htotal := h.total_nonneg
  rw [h.total_eq_meanBusy] at htotal
  exact sub_nonneg.1 ((mul_nonneg_iff_of_pos_left h.length_pos).1 htotal)

theorem total_eq_zero_iff (h : r.Timed) : r.idle.total = 0 ↔ r.makespan = r.meanBusy := by
  rw [h.total_eq_meanBusy, mul_eq_zero, or_iff_right h.length_pos.ne', sub_eq_zero]

theorem conserved (h : r.Timed) : ∃ ratio, r.loadRatio = .ok ratio ∧ r.Conserved r.busy ratio := by
  refine ⟨_, loadRatio_eq r, ?_⟩
  constructor
  case perMachine => exact h.perMachine_eq_busy
  case nonneg => exact h.perMachine_nonneg
  case total =>
    rw [values_busy]
    exact h.total_add_busy
  case ratio_eq_zero =>
    intro hnever
    simp [meanBusy, h.sum_busy_eq_zero_iff.2 hnever]
  case one_le_ratio =>
    intro hsome
    have hpos := h.meanBusy_pos hsome
    rw [if_pos hpos, one_le_div₀ hpos]
    exact h.meanBusy_le
  case ratio_eq_one_iff =>
    intro hsome
    have hpos := h.meanBusy_pos hsome
    rw [if_pos hpos, div_eq_one_iff_eq hpos.ne', h.total_eq_zero_iff]

end Timed

end Roster

/-! ## Plans -/

namespace Schedule.Planned

variable {weights : Weights Rat} {w : Workflow Rat} {machines : List (Machine Rat)}
  {s : Schedule Rat}

/-- The events of every machine of a schedule are in the order of time. -/
theorem timed_roster (h : s.Planned weights w machines)
    (hc : s.costs.Describes (0 ≤ ·) w machines) (hne : machines ≠ []) : s.roster.Timed := by
  have hcons := h.consistent hc hne
  have haligned := hcons.aligned
  constructor
  case machines =>
    intro hnone
    have hkeys : s.roster.keys = (List.range machines.length).map Int.ofNat := haligned.keys_roster
    rw [Table.keys, hnone] at hkeys
    simp [hne] at hkeys
  case lanes =>
    intro events hevents
    have hvalues : s.roster.values = s.allocation.lanes.map Lane.events := by
      simp [roster, Roster.ofLanes, Table.values, Function.comp_def]
    rw [hvalues, haligned.lanes_eq, List.map_map] at hevents
    obtain ⟨m, hm, rfl⟩ := List.mem_map.1 hevents
    have hlt : m < machines.length := List.mem_range.1 hm
    refine ⟨fun e he => ?_, hcons.inOrder m hlt⟩
    obtain ⟨_, -, -, hstart, -⟩ := hcons.placed e ((haligned.mem_lane hlt).1 he).1
    exact hstart

end Schedule.Planned

namespace Roster

/-- Idle and busy time make up the makespan wherever the events of every machine are in the order of
time, and so in every schedule that comes out of a plan. -/
theorem idle_conserved [SquareRoot Rat] :
    (∀ r : Roster Rat, r.Timed → ∃ load ratio, r.loadBalance = .ok load ∧
      r.loadRatio = .ok ratio ∧ r.Conserved load.busy ratio) ∧
    ∀ weights w machines (σ σ' : Session Rat) (s : Schedule Rat),
      (Planning.plan weights w machines).runIn σ = (.ok s, σ') →
      (∀ reply ∈ σ.estimator.replies (w.questions machines),
        ∀ x, reply.result = .ok x → 0 ≤ x) → s.roster.Timed := by
  refine ⟨fun r h => ?_, fun weights w machines σ σ' s hrun hestimates => ?_⟩
  · obtain ⟨ratio, hratio, hconserved⟩ := h.conserved
    obtain ⟨load, hload, hbusy⟩ := exists_loadBalance r
    exact ⟨load, ratio, hload, hratio, hbusy ▸ hconserved⟩
  · obtain ⟨hne, hplanned, hc, -⟩ := Planning.plan_exact hrun hestimates
    exact hplanned.timed_roster hc hne

end Roster

namespace Sample

/-- The mean of a number and one, as a rough square root. -/
@[reducible] def roughRoot : SquareRoot Rat := ⟨fun x => (x + 1) / 2⟩

end Sample

namespace Roster

/-- Three machines with gaps, an event that takes no time and no events at all, and the plan of the
fork on two machines. -/
theorem idle_conserved_gapped :
    Sample.gapped.Timed ∧ Sample.gapped.idle.total = 7 ∧
      (∃ load, @loadBalance Rat _ Sample.roughRoot Sample.gapped = .ok load ∧
        Sample.gapped.loadRatio = .ok (15 / 8) ∧ Sample.gapped.Conserved load.busy (15 / 8)) ∧
      ∃ s σ', (Planning.plan Sample.evenly Sample.fork [Sample.slow, Sample.fast]).runIn {} =
        (.ok s, σ') ∧ s.makespan = 10 ∧ s.roster.Timed := by
  have htimed : Sample.gapped.Timed := ⟨by decide, Sample.timed_gapped⟩
  obtain ⟨hroster, hplan⟩ := @idle_conserved Sample.roughRoot
  obtain ⟨load, ratio, hload, hratio, hconserved⟩ := hroster Sample.gapped htimed
  have hvalue : Sample.gapped.loadRatio.toOption = some (15 / 8) := by decide +kernel
  obtain rfl : ratio = 15 / 8 := by
    rw [hratio] at hvalue
    exact Option.some.inj hvalue
  obtain ⟨s, σ', hrun, hmakespan⟩ := Planning.exists_runIn_of_map Sample.makespan_fork
  refine ⟨htimed, by decide +kernel, ⟨load, hload, hratio, hconserved⟩, s, σ', hrun, hmakespan, ?_⟩
  exact hplan _ _ _ _ _ _ hrun (static_nonneg (by decide +kernel) (by decide +kernel))

end Roster

end EarliestFinish
