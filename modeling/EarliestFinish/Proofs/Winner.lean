import EarliestFinish.Proofs.Aligned

/-!
# Who wins a task

The search for a machine starts from a guess: the last machine, with the task ready at zero and a
score at the top of the numbers. An offer takes the place of the guess only if its score is below
the top.

* If some machine that is considered for a task has a score below the top, then the task is on a
  machine that is considered for it, and it does not start before it is ready there.
* If none has, then the guess is committed, even if the last machine has too few cores, and even if
  the parents of the task have not finished: `Planning.not_onConsidered_relay`.

In exact quantities every score is below the top. Of floats, a weight, a workload or a finish time
can be so large that no score is.
-/

namespace EarliestFinish

open Allocation

variable {α : Type} [Quantity α] {weights : Weights α} {w : Workflow α}
  {machines : List (Machine α)} {s : Schedule α} {t : Int} {before after : List Int}

namespace Schedule

/-- A task is on a machine that is considered for it, and not before it is ready there. -/
def OnConsidered (s : Schedule α) (t : Int) : Prop :=
  ∃ e, ∃ m : Nat, ∃ ready, s.events.get? t = some e ∧ e.machine = m ∧
    s.workflow.Candidate s.machines t m ∧
    readyTime s.workflow s.costs s.events t m = .ok ready ∧ ¬ e.start < ready

namespace Planned

variable {P : α → Prop} {a : Allocation α} {machine : Int}

/-- When a task is ready can still be told from the schedule. -/
theorem readyTime_events (h : s.Planned weights w machines) (hsplit : s.order = before ++ t :: after)
    (ha : (empty machines.length).placeAll w s.costs weights before = .ok a)
    (hafter : a.placeAll w s.costs weights (t :: after) = .ok s.allocation) :
    readyTime w s.costs s.events t machine =
      readyTime w s.costs (scheduleOf a.placements) t machine := by
  have htasks : a.tasks = before := tasks_placeAll ha
  refine readyTime_congr (h.holds (by simp [hsplit])) fun p hp => ?_
  exact get?_placeAll hafter (htasks ▸ h.order_links before t after hsplit p hp)

/-- What a placement does with the guess, as the schedule shows it. -/
theorem winner [Quantity.Ordered α] (h : s.Planned weights w machines) (hne : machines ≠ [])
    (hc : s.costs.Describes P w machines) (hsplit : s.order = before ++ t :: after) :
    ∃ a, (empty machines.length).placeAll w s.costs weights before = .ok a ∧
      ((∃ k, w.Candidate machines t k ∧ ∃ o, a.offer w s.costs weights t k = .ok o ∧
        Quantity.belowTop o.score = true) → s.OnConsidered t) ∧
      ((∀ k, w.Candidate machines t k → ∃ o, a.offer w s.costs weights t k = .ok o ∧
        Quantity.belowTop o.score = false) →
        s.events.get? t = some ((a.lane (machines.length - 1)).offer t 0
          (s.costs.duration t (machines.length - 1)))) := by
  obtain ⟨a, b, ha, hb, hafter⟩ := h.exists_place hsplit
  have haligned : a.Aligned machines.length :=
    (aligned_empty _).placeAll (List.length_pos_of_ne_nil hne) ha
  have hcandidate (k : Nat) : w.Candidate machines t k ↔ k ∈ a.candidates s.costs t := by
    rw [hc.candidate_iff (h.holds (by simp [hsplit])), mem_candidates, haligned.lanes_length]
  -- a machine makes one offer, so its score is below the top or it is not
  have hone {k : Nat} {o o' : Offer α} (ho : a.offer w s.costs weights t k = .ok o)
      (htop : Quantity.belowTop o.score = true) (ho' : a.offer w s.costs weights t k = .ok o') :
      Quantity.belowTop o'.score ≠ false := by
    obtain rfl := Except.ok.inj (ho.symm.trans ho')
    simp [htop]
  refine ⟨a, ha, ?_, ?_⟩
  · rintro ⟨k, hk, o', ho', htop⟩
    rcases place_cases hb with ⟨m, hm, o, ho, rfl, -⟩ | ⟨hnone, -⟩
    · obtain ⟨ready, hready, rfl⟩ := offer_ok ho
      refine ⟨_, m, ready, h.get?_committed hafter, ?_, ?_, ?_, ?_⟩
      · exact haligned.machine_lane ((mem_candidates.1 hm).1.trans_eq haligned.lanes_length)
      · rw [h.workflow_eq, h.machines_eq]
        exact (hcandidate m).2 hm
      · rw [h.workflow_eq, h.readyTime_events hsplit ha (bind_ok_iff.2 ⟨_, hb, hafter⟩), hready]
      · exact Lane.not_findSlot_start_lt ready _ _
    · obtain ⟨o, ho, hfalse⟩ := hnone k ((hcandidate k).1 hk)
      exact absurd hfalse (hone ho' htop ho)
  · intro hall
    rcases place_cases hb with ⟨-, -, -, -, -, k, hk, o', ho', htop⟩ | ⟨-, rfl⟩
    · obtain ⟨o, ho, hfalse⟩ := hall k ((hcandidate k).2 hk)
      exact absurd hfalse (hone ho' htop ho)
    · have hget := h.get?_committed hafter
      rwa [haligned.lanes_length] at hget

end Planned

end Schedule

namespace Sample

/-- A weight so large that only an early finish has a score below the top. -/
def steep : Weights Float :=
  ⟨1e307, 0, by decide +kernel, by decide +kernel, by decide +kernel, by decide +kernel,
    by decide +kernel⟩

/-- A task that feeds one with two cores. -/
def relay : Workflow Float where
  tasks := [
    { label := .text "load", length := 10, children := [1] },
    { label := .text "train", length := 10, cores := 2, parents := [0] }]

/-- The last machine is too small for one of the tasks. -/
def uneven : List (Machine Float) := [⟨.text "big", 1, 2, 1⟩, ⟨.text "small", 1, 1, 1⟩]

theorem plan_relay :
    ((Planning.plan steep relay uneven).runIn {}).1.toOption.map (fun s =>
      (s.order, s.events.get? 0, s.events.get? 1,
        ((empty 2).offer relay s.costs steep 0 0).toOption.map fun o =>
          Quantity.belowTop o.score)) =
      some ([0, 1], some ⟨0, 0, 10, 0⟩, some ⟨1, 0, 210, 1⟩, some true) := by
  decide +kernel

end Sample

namespace Planning

variable {σ σ' : Session α}

/-- A task for which some score is below the top is on a machine that is considered for it, and
not before it is ready there. Any other task is on the last machine, from zero on. -/
theorem plan_winner [Quantity.Ordered α] (h : (plan weights w machines).runIn σ = (.ok s, σ')) :
    s.workflow = w ∧ s.machines = machines ∧
      ∀ before t after, s.order = before ++ t :: after →
        ∃ a, (empty machines.length).placeAll w s.costs weights before = .ok a ∧
          ((∃ k, w.Candidate machines t k ∧ ∃ o, a.offer w s.costs weights t k = .ok o ∧
            Quantity.belowTop o.score = true) → s.OnConsidered t) ∧
          ((∀ k, w.Candidate machines t k → ∃ o, a.offer w s.costs weights t k = .ok o ∧
            Quantity.belowTop o.score = false) →
            s.events.get? t = some ((a.lane (machines.length - 1)).offer t 0
              (s.costs.duration t (machines.length - 1)))) := by
  obtain ⟨hne, hplanned, -⟩ := plan_ok h
  obtain ⟨hc, -⟩ := plan_costs (P := fun _ => True) (E := fun _ => True) h
    fun r _ => ⟨fun _ _ => trivial, fun _ _ => trivial⟩
  exact ⟨hplanned.workflow_eq, hplanned.machines_eq,
    fun before t after hsplit => hplanned.winner hne hc hsplit⟩

/-- The first task of the relay is on the first machine. -/
theorem plan_winner_relay :
    ∃ s σ', (plan Sample.steep Sample.relay Sample.uneven).runIn {} = (.ok s, σ') ∧
      s.events.get? 0 = some ⟨0, 0, 10, 0⟩ ∧ s.OnConsidered 0 := by
  obtain ⟨s, σ', hrun, hvalues⟩ := exists_runIn_of_map Sample.plan_relay
  simp only [Prod.mk.injEq] at hvalues
  obtain ⟨horder, hevent, -, hoffer⟩ := hvalues
  refine ⟨s, σ', hrun, hevent, ?_⟩
  obtain ⟨-, -, hwinner⟩ := plan_winner hrun
  obtain ⟨a, ha, hconsidered, -⟩ := hwinner [] 0 [1] horder
  obtain rfl := Except.ok.inj ha
  refine hconsidered ⟨0, ⟨_, _, rfl, rfl, Or.inl (by decide)⟩, ?_⟩
  change ∃ o, (empty 2).offer Sample.relay s.costs Sample.steep 0 0 = .ok o ∧ _
  cases ho : (empty 2).offer Sample.relay s.costs Sample.steep 0 0 with
  | error f =>
    rw [ho] at hoffer
    cases hoffer
  | ok o =>
    rw [ho] at hoffer
    exact ⟨o, rfl, Option.some.inj hoffer⟩

/-- The second task of the relay is on a machine that is too small for it, while another one is
not, and it starts before the first task has finished. -/
theorem not_onConsidered_relay :
    ∃ s σ', (plan Sample.steep Sample.relay Sample.uneven).runIn {} = (.ok s, σ') ∧
      s.events.get? 0 = some ⟨0, 0, 10, 0⟩ ∧ s.events.get? 1 = some ⟨1, 0, 210, 1⟩ ∧
      Sample.relay.Candidate Sample.uneven 1 0 ∧ ¬ Sample.relay.Candidate Sample.uneven 1 1 ∧
      ¬ s.OnConsidered 1 := by
  obtain ⟨s, σ', hrun, hvalues⟩ := exists_runIn_of_map Sample.plan_relay
  simp only [Prod.mk.injEq] at hvalues
  obtain ⟨-, hfirst, hsecond, -⟩ := hvalues
  have hsmall : ¬ Sample.relay.Candidate Sample.uneven 1 1 := by
    rintro ⟨task, machine, htask, hmachine, hfits⟩
    obtain rfl := Option.some.inj htask
    obtain rfl := Option.some.inj hmachine
    revert hfits
    decide
  refine ⟨s, σ', hrun, hfirst, hsecond, ⟨_, _, rfl, rfl, Or.inl (by decide)⟩, hsmall, ?_⟩
  rintro ⟨e, m, ready, he, hm, hcandidate, -⟩
  obtain ⟨-, hplanned, -⟩ := plan_ok hrun
  rw [hplanned.workflow_eq, hplanned.machines_eq] at hcandidate
  obtain rfl := Option.some.inj (he.symm.trans hsecond)
  obtain rfl : 1 = m := Int.ofNat.inj hm
  exact hsmall hcandidate

end Planning

end EarliestFinish
