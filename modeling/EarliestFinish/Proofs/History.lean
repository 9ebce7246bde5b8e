import EarliestFinish.Proofs.Consistent
import EarliestFinish.Proofs.Run

/-!
# The history of a schedule

A schedule still shows the state in which each of its tasks was placed. `Schedule.laneBefore` is
the lane of a machine at that point, and `Schedule.Open` says from which times on the task could
have run there. In exact quantities `Planned.choice` tells what the planner did with it: it took
the candidate with the least score at the earliest open time.
-/

namespace EarliestFinish

open Allocation

namespace Schedule

/-- The events of a machine. -/
def laneOf (s : Schedule Rat) (m : Nat) : List (Event Rat) := (s.roster.get? m).getD []

/-- The events of a machine when only some tasks have their places. -/
def laneBefore (s : Schedule Rat) (before : List Int) (m : Nat) : List (Event Rat) :=
  (s.laneOf m).filter fun e => e.task ∈ before

/-- A task could run on a machine from some time on, among the tasks that have their places. -/
structure Open (s : Schedule Rat) (before : List Int) (t : Int) (m : Nat) (x : Rat) : Prop where
  nonneg : 0 ≤ x
  arrived : ∀ p ∈ s.workflow.parentsOf t, ∃ e, s.events.get? p = some e ∧
    arrival s.costs t p m e ≤ x
  fits : Lane.Fits (s.laneBefore before m) (s.costs.duration t m) x

/-- The score of a machine that runs a task from some time on. -/
def scoreOf (s : Schedule Rat) (weights : Weights Rat) (before : List Int) (t : Int) (m : Nat)
    (x : Rat) : Rat :=
  weights.score (x + s.costs.duration t m) (Lane.busyTime (s.laneBefore before m))

/-- An allocation of some tasks that a schedule still shows. -/
structure Shows (s : Schedule Rat) (before : List Int) (a : Allocation Rat) : Prop where
  consistent : a.Consistent s.costs s.machines.length
  lane : ∀ m < s.machines.length, (a.lane m).events = s.laneBefore before m
  event : ∀ p ∈ before, s.events.get? p = (scheduleOf a.placements).get? p

namespace Shows

variable {s : Schedule Rat} {before : List Int} {a : Allocation Rat} {t : Int} {m : Nat} {x : Rat}

theorem candidate_iff {P : Rat → Prop} (h : s.Shows before a)
    (hc : s.costs.Describes P s.workflow s.machines) (ht : s.workflow.Holds t) :
    s.workflow.Candidate s.machines t m ↔ m ∈ a.candidates s.costs t := by
  rw [hc.candidate_iff ht, mem_candidates, h.consistent.aligned.lanes_length]

theorem open_iff (h : s.Shows before a) (hm : m < s.machines.length)
    (hparents : ∀ p ∈ s.workflow.parentsOf t, p ∈ before) :
    s.Open before t m x ↔
      (0 ≤ x ∧ ArrivedBy s.costs (scheduleOf a.placements) t m x (s.workflow.parentsOf t)) ∧
        Lane.Fits (a.lane m).events (s.costs.duration t m) x := by
  have harrived : (∀ p ∈ s.workflow.parentsOf t, ∃ e, s.events.get? p = some e ∧
      arrival s.costs t p m e ≤ x) ↔
      ArrivedBy s.costs (scheduleOf a.placements) t m x (s.workflow.parentsOf t) :=
    forall₂_congr fun p hp => by rw [h.event p (hparents p hp)]
  rw [h.lane m hm, ← harrived, and_assoc]
  constructor
  · rintro ⟨h0, h1, h2⟩
    exact ⟨h0, h1, h2⟩
  · rintro ⟨h0, h1, h2⟩
    exact ⟨h0, h1, h2⟩

/-- What a machine offers to a task: its earliest open time. -/
theorem offer_isLeast {weights : Weights Rat} {o : Offer Rat} (h : s.Shows before a)
    (hm : m < s.machines.length) (hparents : ∀ p ∈ s.workflow.parentsOf t, p ∈ before)
    (ht : s.workflow.Holds t) (hd : 0 ≤ s.costs.duration t m)
    (ho : a.offer s.workflow s.costs weights t m = .ok o) :
    ∃ x, IsLeast {y | s.Open before t m y} x ∧ o.score = s.scoreOf weights before t m x ∧
      (a.lane m).offer t o.ready (s.costs.duration t m) = ⟨t, x, x + s.costs.duration t m, m⟩ := by
  obtain ⟨ready, hready, rfl⟩ := offer_ok ho
  refine ⟨(Lane.findSlot ready (s.costs.duration t m) (a.lane m).events).start, ?_, ?_, ?_⟩
  · simp only [h.open_iff hm hparents, ← readyTime_le_iff ht hready]
    exact Lane.findSlot_isLeast (h.consistent.inOrder m hm) hd
  · rw [scoreOf, ← h.lane m hm, h.consistent.load m hm]
    rfl
  · rw [Lane.offer, Lane.eventAt, h.consistent.aligned.machine_lane hm]
    rfl

end Shows

namespace Planned

variable {weights : Weights Rat} {w : Workflow Rat} {machines : List (Machine Rat)}
  {s : Schedule Rat} {t : Int} {m : Nat} {before after : List Int}

theorem consistent (h : s.Planned weights w machines)
    (hc : s.costs.Describes (0 ≤ ·) w machines) (hne : machines ≠ []) :
    s.allocation.Consistent s.costs machines.length :=
  (consistent_empty s.costs machines.length).placeAll hne hc (fun _ => h.holds) h.allocation_ok

theorem laneOf_eq (h : s.Planned weights w machines) (hne : machines ≠ [])
    (hm : m < machines.length) : s.laneOf m = (s.allocation.lane m).events := by
  rw [laneOf, roster, (h.aligned hne).get?_roster hm]
  rfl

/-- The allocation into which a task was placed. -/
theorem exists_shows (h : s.Planned weights w machines)
    (hc : s.costs.Describes (0 ≤ ·) w machines) (hne : machines ≠ [])
    (hsplit : s.order = before ++ t :: after) :
    ∃ a b : Allocation Rat, s.Shows before a ∧ a.place w s.costs weights t = .ok b ∧
      b.placeAll w s.costs weights after = .ok s.allocation := by
  obtain ⟨a, b, ha, hb, hafter⟩ := h.exists_place hsplit
  have hrest : a.placeAll w s.costs weights (t :: after) = .ok s.allocation :=
    bind_ok_iff.2 ⟨b, hb, hafter⟩
  have htasks : a.tasks = before := tasks_placeAll ha
  have hnodup : (before ++ t :: after).Nodup := hsplit ▸ h.order_nodup
  have hcons : a.Consistent s.costs machines.length :=
    (consistent_empty _ _).placeAll hne hc
      (fun u hu => h.holds (by rw [hsplit]; exact List.mem_append_left _ hu)) ha
  refine ⟨a, b, ⟨h.machines_eq ▸ hcons, fun k hk => ?_, fun p hp => ?_⟩, hb, hafter⟩
  -- the tasks that come later are none of those that were placed before
  · rw [h.machines_eq] at hk
    rw [laneBefore, h.laneOf_eq hne hk, ← htasks]
    refine hcons.lane_eq_filter hk (fun u hu => ?_) hrest
    rw [htasks]
    exact fun hub => (List.disjoint_of_nodup_append hnodup) hub hu
  · exact get?_placeAll hrest (htasks ▸ hp)

/-- Every task is on the candidate with the least score at the earliest open time, the first of
several. -/
theorem choice (h : s.Planned weights w machines) (hc : s.costs.Describes (0 ≤ ·) w machines)
    (hne : machines ≠ []) (hsplit : s.order = before ++ t :: after) :
    ∃ m x, w.Candidate machines t m ∧ IsLeast {y | s.Open before t m y} x ∧
      s.events.get? t = some ⟨t, x, x + s.costs.duration t m, m⟩ ∧
      ∀ k, w.Candidate machines t k → ∃ y, IsLeast {z | s.Open before t k z} y ∧
        s.scoreOf weights before t m x ≤ s.scoreOf weights before t k y ∧
        (k < m → s.scoreOf weights before t m x < s.scoreOf weights before t k y) := by
  obtain ⟨a, b, ha, hb, hafter⟩ := h.exists_shows hc hne hsplit
  have ht : w.Holds t := h.holds (by simp [hsplit])
  have hbefore : ∀ p ∈ w.parentsOf t, p ∈ before := h.order_links before t after hsplit
  have hcandidates : a.candidates s.costs t ≠ [] :=
    candidates_ne_nil hne hc (by rw [ha.consistent.aligned.lanes_length, h.machines_eq]) t
  have hduration := hc.duration_nonneg t
  obtain rfl := h.workflow_eq
  obtain rfl := h.machines_eq
  obtain ⟨m, hm, o, ho, rfl, hbest⟩ := place_choice hcandidates hb
  rw [← ha.candidate_iff hc ht] at hm
  have hlt {k : Nat} (hk : s.workflow.Candidate s.machines t k) : k < s.machines.length :=
    ((hc.candidate_iff ht).1 hk).1
  obtain ⟨x, hx, hscore, hevent⟩ := ha.offer_isLeast (hlt hm) hbefore ht (hduration m) ho
  refine ⟨m, x, hm, hx, ?_, fun k hk => ?_⟩
  · rw [h.get?_committed hafter, hevent]
  · obtain ⟨o', ho', hle, hstrict⟩ := hbest k ((ha.candidate_iff hc ht).1 hk)
    obtain ⟨y, hy, hscore', -⟩ := ha.offer_isLeast (hlt hk) hbefore ht (hduration k) ho'
    rw [hscore, hscore'] at hle hstrict
    exact ⟨y, hy, hle, hstrict⟩

end Planned

end Schedule

end EarliestFinish
