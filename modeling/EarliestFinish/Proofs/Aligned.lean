import EarliestFinish.Proofs.Placement
import EarliestFinish.Proofs.Run

/-!
# Lanes and placements

An event is recorded twice: among the placements, in the order in which they were made, and in the
lane of its machine, in the order of time. `Allocation.Aligned` says that the two records show the
same events and that there is one lane for each machine. Every placement keeps them aligned
(`Aligned.place`), also the one that is made when no offer has a score below the top.

For a schedule it follows that every task has one event (`Planned.get?_task`), and that the lanes
together hold these events and no others (`Aligned.roster_perm`). The placement of a task can be
found again between those before it and those after it (`Planned.exists_place`).

Nothing is assumed of the numbers.
-/

namespace EarliestFinish

variable {α : Type}

theorem flatMap_filter_perm {β : Type} (key : β → Int) (xs : List β) (n : Nat) :
    ((List.range n).flatMap fun (m : Nat) => xs.filter fun x => key x = m).Perm
      (xs.filter fun x => 0 ≤ key x ∧ key x < n) := by
  induction n with
  | zero =>
    rw [List.filter_eq_nil_iff.2 fun x _ => by simp]
    exact .refl _
  | succ n ih =>
    rw [List.range_succ, List.flatMap_append, List.flatMap_singleton]
    refine (ih.append_right _).trans ?_
    -- those with the key `n` come behind those with a lower one
    have hsplit := List.filter_append_perm (fun x => decide (key x < n))
      (xs.filter fun x => 0 ≤ key x ∧ key x < (n + 1 : Nat))
    simp only [List.filter_filter] at hsplit
    refine .trans (.of_eq ?_) hsplit
    congr 1
    · refine List.filter_congr fun x _ => ?_
      rw [← Bool.decide_and, decide_eq_decide]
      omega
    · refine List.filter_congr fun x _ => ?_
      rw [← decide_not, ← Bool.decide_and, decide_eq_decide]
      omega

namespace Allocation

/-- What ties the lanes of an allocation to some machines to its placements. -/
structure Aligned (n : Nat) (a : Allocation α) : Prop where
  machines : a.lanes.map Lane.machine = (List.range n).map Int.ofNat
  lanes : ∀ m < n, (a.lane m).events.Perm (a.events.filter fun e => e.machine = m)
  onMachine : ∀ e ∈ a.events, ∃ m < n, e.machine = Int.ofNat m

namespace Aligned

variable {a : Allocation α} {n m : Nat}

theorem lanes_length (h : a.Aligned n) : a.lanes.length = n := by
  simpa using congrArg List.length h.machines

theorem machine_lane (h : a.Aligned n) (hm : m < n) : (a.lane m).machine = m := by
  have hlt : m < a.lanes.length := h.lanes_length ▸ hm
  have := congrArg (·[m]?) h.machines
  simpa [lane, List.getElem?_eq_getElem hlt, hm] using this

theorem lanes_eq (h : a.Aligned n) : a.lanes = (List.range n).map a.lane := by
  refine List.ext_getElem (by simp [h.lanes_length]) fun k hk _ => ?_
  simp [lane, List.getElem?_eq_getElem hk]

theorem mem_lanes (h : a.Aligned n) (hm : m < n) : a.lane m ∈ a.lanes := by
  rw [h.lanes_eq]
  exact List.mem_map_of_mem (List.mem_range.2 hm)

theorem keys_roster (h : a.Aligned n) :
    (Roster.ofLanes a.lanes).keys = (List.range n).map Int.ofNat := by
  rw [← h.machines]
  simp [Roster.ofLanes, Table.keys, Function.comp_def]

/-- The roster lists the events of every machine. -/
theorem get?_roster (h : a.Aligned n) (hm : m < n) :
    (Roster.ofLanes a.lanes).get? m = some (a.lane m).events := by
  refine Table.get?_of_mem ?_ ?_
  · rw [h.keys_roster]
    exact List.nodup_range.map fun _ _ hij => Int.ofNat.inj hij
  · rw [← h.machine_lane hm]
    exact List.mem_map_of_mem (h.mem_lanes hm)

theorem mem_lane (h : a.Aligned n) (hm : m < n) {e : Event α} :
    e ∈ (a.lane m).events ↔ e ∈ a.events ∧ e.machine = m := by
  rw [(h.lanes m hm).mem_iff, List.mem_filter, decide_eq_true_eq]

/-- The roster lists the events lane by lane. -/
theorem events_roster (h : a.Aligned n) :
    (Roster.ofLanes a.lanes).events = (List.range n).flatMap fun m => (a.lane m).events := by
  rw [h.lanes_eq]
  simp [Roster.ofLanes, Roster.events, Table.values, List.flatMap_def, Function.comp_def]

open scoped List in
/-- The lanes together hold the events of all placements. -/
theorem roster_perm (h : a.Aligned n) : (Roster.ofLanes a.lanes).events.Perm a.events := by
  have hall : a.events.filter (fun e => 0 ≤ e.machine ∧ e.machine < (n : Int)) = a.events := by
    refine List.filter_eq_self.2 fun e he => ?_
    obtain ⟨m, hm, hmachine⟩ := h.onMachine e he
    simpa [hmachine] using hm
  calc (Roster.ofLanes a.lanes).events
      = (List.range n).flatMap fun m => (a.lane m).events := h.events_roster
    _ ~ (List.range n).flatMap fun (m : Nat) => a.events.filter fun e => e.machine = m :=
      .flatMap_left _ fun m hm => h.lanes m (List.mem_range.1 hm)
    _ ~ a.events.filter fun e => 0 ≤ e.machine ∧ e.machine < (n : Int) :=
      flatMap_filter_perm Event.machine a.events n
    _ = a.events := hall

end Aligned

variable [Quantity α] {a b : Allocation α} {w : Workflow α} {c : CostTable α} {weights : Weights α}
  {t : Int} {ts : List Int} {n m : Nat} {ready duration : α} {score : Option α}

theorem machines_commit (a : Allocation α) (t : Int) (m : Nat) (ready duration : α)
    (score : Option α) :
    (a.commit t m ready duration score).lanes.map Lane.machine = a.lanes.map Lane.machine := by
  refine List.ext_getElem? fun k => ?_
  by_cases hkm : m = k
  · subst hkm
    simp [Allocation.commit, Function.comp_def, Lane.commit]
  · simp [Allocation.commit, List.getElem?_modify_ne, hkm]

theorem aligned_empty (n : Nat) : (empty n : Allocation α).Aligned n where
  machines := by simp [empty]
  lanes m hm := by simp [empty, lane, events, hm]
  onMachine := by simp [empty, events]

namespace Aligned

/-- A task committed to a machine. -/
theorem commit (h : a.Aligned n) (hm : m < n) :
    (a.commit t m ready duration score).Aligned n := by
  -- only the lane of this machine changes
  have hlane : m < a.lanes.length := h.lanes_length ▸ hm
  have hmachine : ((a.lane m).offer t ready duration).machine = m := h.machine_lane hm
  constructor
  case machines => rw [machines_commit, h.machines]
  case lanes =>
    intro k hk
    rw [events_commit, List.filter_append]
    by_cases hkm : m = k
    · subst hkm
      -- the event is somewhere in its lane, but at the end of the placements
      rw [lane_commit_self hlane, List.filter_cons_of_pos (by simpa using hmachine)]
      refine (Lane.perm_commit ..).trans ?_
      exact ((h.lanes m hk).cons _).trans (List.perm_append_singleton _ _).symm
    · rw [lane_commit_of_ne hkm, List.filter_cons_of_neg (by simpa [hmachine] using hkm)]
      simpa using h.lanes k hk
  case onMachine =>
    rw [events_commit]
    intro e he
    rcases List.mem_append.1 he with he | he
    · exact h.onMachine e he
    · obtain rfl := List.mem_singleton.1 he
      exact ⟨m, hm, hmachine⟩

/-- A placement. -/
theorem place (h : a.Aligned n) (hn : 0 < n) (hb : a.place w c weights t = .ok b) :
    b.Aligned n := by
  rcases place_cases hb with ⟨m, hm, o, -, rfl, -⟩ | ⟨-, rfl⟩
  · exact h.commit (h.lanes_length ▸ (mem_candidates.1 hm).1)
  · rw [h.lanes_length]
    exact h.commit (Nat.sub_lt hn Nat.one_pos)

/-- A run of placements. -/
theorem placeAll (h : a.Aligned n) (hn : 0 < n) (hb : a.placeAll w c weights ts = .ok b) :
    b.Aligned n :=
  placeAll_induction (I := fun _ b => b.Aligned n) [] (fun _ _ _ _ _ h hb => h.place hn hb) h hb

end Aligned

end Allocation

/-! ## Schedules -/

namespace Schedule.Planned

open Allocation

variable [Quantity α] {weights : Weights α} {w : Workflow α} {machines : List (Machine α)}
  {s : Schedule α} {t : Int} {e : Event α} {before after : List Int} {m : Nat}
  {ready duration : α} {score : Option α}

theorem holds (h : s.Planned weights w machines) (ht : t ∈ s.order) : w.Holds t :=
  Workflow.holds_of_perm h.order_perm ht

theorem tasks_eq (h : s.Planned weights w machines) : s.allocation.tasks = s.order := by
  rw [tasks_placeAll h.allocation_ok]
  rfl

theorem order_nodup (h : s.Planned weights w machines) : s.order.Nodup :=
  h.order_perm.nodup_iff.2 w.positions_nodup

omit [Quantity α] in
theorem values_events (s : Schedule α) : s.events.values = s.allocation.events := by
  simp [events, scheduleOf, Table.values, Allocation.events, Function.comp_def]

theorem keys_events (h : s.Planned weights w machines) : s.events.keys = s.order := by
  rw [events, keys_scheduleOf, h.tasks_eq]

/-- Every event is the one of its task. -/
theorem get?_task (h : s.Planned weights w machines) (he : e ∈ s.allocation.events) :
    s.events.get? e.task = some e := by
  refine Table.get?_of_mem (h.keys_events ▸ h.order_nodup) ?_
  obtain ⟨p, hp, rfl⟩ := List.mem_map.1 he
  exact List.mem_map_of_mem hp

omit [Quantity α] in
theorem mem_events_of_get? (he : s.events.get? t = some e) :
    e ∈ s.allocation.events ∧ e.task = t := by
  obtain ⟨p, hp, hpe⟩ := List.mem_map.1 (Table.mem_entries_of_get? he)
  obtain ⟨rfl, rfl⟩ := Prod.mk.inj hpe
  exact ⟨List.mem_map_of_mem hp, rfl⟩

theorem exists_event (h : s.Planned weights w machines) (ht : t ∈ s.order) :
    ∃ e ∈ s.allocation.events, e.task = t := by
  rw [← h.tasks_eq] at ht
  exact List.mem_map.1 ht

theorem mem_order_of_get? (h : s.Planned weights w machines) (he : s.events.get? t = some e) :
    t ∈ s.order := by
  obtain ⟨hmem, rfl⟩ := mem_events_of_get? he
  rw [← h.tasks_eq]
  exact List.mem_map_of_mem hmem

theorem aligned (h : s.Planned weights w machines) (hne : machines ≠ []) :
    s.allocation.Aligned machines.length :=
  (aligned_empty machines.length).placeAll (List.length_pos_of_ne_nil hne) h.allocation_ok

/-- The placement of a task, between those of the tasks before it and those of the tasks after
it. -/
theorem exists_place (h : s.Planned weights w machines) (hsplit : s.order = before ++ t :: after) :
    ∃ a b, (empty machines.length).placeAll w s.costs weights before = .ok a ∧
      a.place w s.costs weights t = .ok b ∧
      b.placeAll w s.costs weights after = .ok s.allocation := by
  have hrun := h.allocation_ok
  rw [hsplit, placeAll_append_ok] at hrun
  obtain ⟨a, ha, hrest⟩ := hrun
  obtain ⟨b, hb, hafter⟩ := bind_ok_iff.1 hrest
  exact ⟨a, b, ha, hb, hafter⟩

/-- A task that is committed keeps its event. -/
theorem get?_committed {a : Allocation α} (h : s.Planned weights w machines)
    (hafter : (a.commit t m ready duration score).placeAll w s.costs weights after =
      .ok s.allocation) :
    s.events.get? t = some ((a.lane m).offer t ready duration) := by
  obtain ⟨later, hlater, -⟩ := placements_placeAll hafter
  have hmem : (a.lane m).offer t ready duration ∈ s.allocation.events := by
    rw [Allocation.events, hlater]
    simp [Allocation.commit]
  exact h.get?_task hmem

end Schedule.Planned

end EarliestFinish
