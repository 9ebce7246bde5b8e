import EarliestFinish.Proofs.Aligned

/-!
# Consistent allocations

`Allocation.Consistent` ties the lanes, the workloads and the placements of an allocation together.
In exact quantities, a placement of a duration that is not negative keeps an allocation consistent,
and so does a run of placements.

The lanes before a placement are those at the end of the run without the tasks that are placed later
(`Consistent.lane_eq_filter`).
-/

namespace EarliestFinish
namespace Allocation

open Lane

/-- What holds of an allocation to some machines. -/
structure Consistent (c : CostTable Rat) (n : Nat) (a : Allocation Rat) : Prop where
  machines : a.lanes.map Lane.machine = (List.range n).map Int.ofNat
  loads : a.workload.length = n
  inOrder : ∀ m < n, InOrder (a.lane m).events
  lanes : ∀ m < n, (a.lane m).events.Perm (a.events.filter fun e => e.machine = m)
  load : ∀ m < n, a.load m = busyTime (a.lane m).events
  total : a.workload.sum = busyTime a.events
  placed : ∀ e ∈ a.events, ∃ m < n, e.machine = Int.ofNat m ∧ 0 ≤ e.start ∧
    e.finish = e.start + c.duration e.task m

variable {w : Workflow Rat} {c : CostTable Rat} {weights : Weights Rat} {a b : Allocation Rat}
  {t : Int} {ts us : List Int} {m n : Nat} {ready duration : Rat} {score : Option Rat}

theorem busyTime_concat (events : List (Event Rat)) (e : Event Rat) :
    busyTime (events ++ [e]) = busyTime events + e.length := by
  simp [busyTime_eq_sum]

theorem sum_modify_add {loads : List Rat} (hm : m < loads.length) (x : Rat) :
    (loads.modify m (· + x)).sum = loads.sum + x := by
  induction loads generalizing m with
  | nil => cases hm
  | cons y ys ih =>
    cases m with
    | zero =>
      rw [List.modify_zero_cons, List.sum_cons, List.sum_cons]
      ring
    | succ m =>
      rw [List.modify_succ_cons, List.sum_cons, List.sum_cons, ih (Nat.lt_of_succ_lt_succ hm)]
      ring

theorem consistent_empty (c : CostTable Rat) (n : Nat) : (empty n).Consistent c n where
  machines := by simp [empty]
  loads := by simp [empty]
  inOrder m hm := by
    have : ((empty n : Allocation Rat).lane m).events = [] := by simp [empty, lane, hm]
    rw [this]
    exact ⟨by simp, .nil⟩
  lanes m hm := by simp [empty, lane, events, hm]
  load m hm := by simp [empty, load, lane, hm, busyTime_eq_sum]
  total := by simp [empty, events, busyTime_eq_sum]
  placed := by simp [empty, events]

namespace Consistent

theorem aligned (h : a.Consistent c n) : a.Aligned n where
  machines := h.machines
  lanes := h.lanes
  onMachine e he := by
    obtain ⟨m, hm, hmachine, -⟩ := h.placed e he
    exact ⟨m, hm, hmachine⟩

/-- A task committed to a machine. -/
theorem commit (h : a.Consistent c n) (hm : m < n) (hready : 0 ≤ ready)
    (hd : 0 ≤ c.duration t m) : (a.commit t m ready (c.duration t m) score).Consistent c n := by
  -- only the lane and the workload of this machine change
  have hlane : m < a.lanes.length := h.aligned.lanes_length ▸ hm
  have hload : m < a.workload.length := h.loads ▸ hm
  have haligned : (a.commit t m ready (c.duration t m) score).Aligned n := h.aligned.commit hm
  constructor
  case machines => exact haligned.machines
  case lanes => exact haligned.lanes
  case loads => simp [Allocation.commit, h.loads]
  case inOrder =>
    intro k hk
    by_cases hkm : m = k
    · subst hkm
      rw [lane_commit_self hlane]
      exact inOrder_commit (h.inOrder m hk) hd
    · rw [lane_commit_of_ne hkm]
      exact h.inOrder k hk
  case load =>
    intro k hk
    by_cases hkm : m = k
    · subst hkm
      rw [lane_commit_self hlane, load_commit_self hload, busyTime_commit, h.load m hk]
    · rw [lane_commit_of_ne hkm, load_commit_of_ne hkm, h.load k hk]
  case total =>
    rw [events_commit, busyTime_concat, length_offer, ← h.total]
    exact sum_modify_add hload _
  case placed =>
    rw [events_commit]
    intro e he
    rcases List.mem_append.1 he with he | he
    · exact h.placed e he
    · obtain rfl := List.mem_singleton.1 he
      exact ⟨m, hm, h.aligned.machine_lane hm, hready.trans (findSlot_sound ..).1, rfl⟩

/-- If all tasks of an allocation are among some tasks, so are those in its lanes. -/
theorem filter_lane (h : a.Consistent c n) (hm : m < n) :
    (a.lane m).events.filter (fun e => e.task ∈ a.tasks) = (a.lane m).events := by
  refine List.filter_eq_self.2 fun e he => ?_
  have hmem : e ∈ a.events := ((h.aligned.mem_lane hm).1 he).1
  exact decide_eq_true (List.mem_map_of_mem hmem)

/-- A lane before some placements is the lane after them without their tasks. -/
theorem lane_eq_filter (h : a.Consistent c n) (hm : m < n) (hts : ∀ t ∈ ts, t ∉ a.tasks)
    (hb : a.placeAll w c weights ts = .ok b) :
    (a.lane m).events = (b.lane m).events.filter fun e => e.task ∈ a.tasks := by
  rw [filter_lane_placeAll hts hb, h.filter_lane hm]

variable {machines : List (Machine Rat)}

/-- A placement. -/
theorem place (hne : machines ≠ []) (hc : c.Describes (0 ≤ ·) w machines)
    (h : a.Consistent c machines.length) (ht : w.Holds t) (hb : a.place w c weights t = .ok b) :
    b.Consistent c machines.length := by
  have hsome := candidates_ne_nil hne hc h.aligned.lanes_length t
  obtain ⟨m, hm, o, ho, rfl, -⟩ := place_choice hsome hb
  obtain ⟨ready, hready, rfl⟩ := offer_ok ho
  have hlt : m < machines.length := h.aligned.lanes_length ▸ (mem_candidates.1 hm).1
  exact h.commit hlt ((readyTime_le_iff ht hready).1 le_rfl).1 (hc.duration_nonneg t m)

/-- A run of placements. -/
theorem placeAll (hne : machines ≠ []) (hc : c.Describes (0 ≤ ·) w machines)
    (h : a.Consistent c machines.length) (hold : ∀ t ∈ ts, w.Holds t)
    (hb : a.placeAll w c weights ts = .ok b) : b.Consistent c machines.length :=
  placeAll_induction (I := fun _ b => b.Consistent c machines.length) []
    (fun _ t _ _ ht h hb => h.place hne hc (hold t ht) hb) h hb

end Consistent

end Allocation
end EarliestFinish
