import EarliestFinish.Proofs.Aligned

/-!
# Stretched time

If a task is ready `k` times as late and takes `k` times as long, and all events of a lane start and
finish `k` times as late, then its slot is at the same place and starts `k` times as late. For every
comparison of the search is one between times, and for a positive `k` such a comparison comes out as
before. The scores of all offers grow by the same factor, so the same offer wins.

* `Lane.findSlot_stretch` is the slot in a stretched lane;
* `Allocation.stretch_place` and `stretch_placeAll`: with costs that are `k` times as high
  (`CostTable.Multiple`), the tasks go to the same machines and all times are `k` times as late.

The cost that stands in for an infeasible placement is not `k` times as high. So the placements have
to be feasible.
-/

namespace EarliestFinish

/-! ## Tables -/

namespace Table

variable {κ ν μ : Type}

/-- A table with its values changed. -/
def mapValues (f : ν → μ) (t : Table κ ν) : Table κ μ := ⟨t.entries.map fun e => (e.1, f e.2)⟩

theorem values_mapValues (f : ν → μ) (t : Table κ ν) : (t.mapValues f).values = t.values.map f := by
  simp [mapValues, values]

variable [DecidableEq κ]

theorem get?_mapValues (f : ν → μ) (t : Table κ ν) (key : κ) :
    (t.mapValues f).get? key = (t.get? key).map f := by
  obtain ⟨entries⟩ := t
  induction entries with
  | nil => rfl
  | cons e entries ih =>
    change (if e.1 = key then some (f e.2) else _) = Option.map f (if e.1 = key then some e.2 else _)
    rw [apply_ite (Option.map f)]
    exact congrArg _ ih

end Table

/-! ## Lanes -/

/-- An event that starts and finishes `k` times as late. -/
def Event.stretch (k : Rat) (e : Event Rat) : Event Rat :=
  { e with start := k * e.start, finish := k * e.finish }

/-- A slot that starts `k` times as late. -/
def Slot.stretch (k : Rat) (s : Slot Rat) : Slot Rat := { s with start := k * s.start }

namespace Lane

/-- A lane with its events stretched. -/
def stretch (k : Rat) (lane : Lane Rat) : Lane Rat :=
  { lane with events := lane.events.map (Event.stretch k) }

variable {k : Rat} {ready duration : Rat}

/-- A window is as wide for a task as it was. -/
theorem window_stretch (hk : 0 < k) {start finish : Rat} :
    k * start + k * duration ≤ k * finish ↔ start + duration ≤ finish := by
  rw [← mul_add, mul_le_mul_iff_right₀ hk]

theorem searchBack_stretch (hk : 0 < k) (ready duration : Rat) (rev : List (Event Rat))
    (best : Slot Rat) :
    searchBack (k * ready) (k * duration) (rev.map (Event.stretch k)) (best.stretch k) =
      (searchBack ready duration rev best).stretch k := by
  fun_induction searchBack ready duration rev best with
  | case1 best current previous earlier here hready hfit =>
    simp only [List.map_cons, searchBack, Event.stretch, mul_lt_mul_iff_right₀ hk,
      window_stretch hk, List.length_map]
    rw [if_pos hready, if_pos hfit]
    rfl
  | case2 best current previous earlier hready hfit =>
    simp only [List.map_cons, searchBack, Event.stretch, mul_lt_mul_iff_right₀ hk,
      window_stretch hk]
    rw [if_pos hready, if_neg hfit]
  | case3 best current previous earlier here hready ih =>
    simp only [List.map_cons, searchBack, Event.stretch, mul_lt_mul_iff_right₀ hk,
      window_stretch hk, List.length_map] at ih ⊢
    rw [if_neg hready, ← ih]
    congr 1
    split <;> rfl
  | case4 rev best hshort =>
    -- fewer than two events are left
    rcases rev with _ | ⟨current, _ | ⟨previous, earlier⟩⟩
    · rfl
    · rfl
    · exact absurd rfl (hshort current previous earlier)

/-- The slot in a stretched lane. -/
theorem findSlot_stretch (hk : 0 < k) (events : List (Event Rat)) :
    findSlot (k * ready) (k * duration) (events.map (Event.stretch k)) =
      (findSlot ready duration events).stretch k := by
  match events with
  | [] => rfl
  | [only] =>
    simp only [List.map_cons, List.map_nil, findSlot, Event.stretch, mul_le_mul_iff_right₀ hk,
      window_stretch hk]
    split
    · rfl
    · split <;> rfl
  | first :: second :: later =>
    let last := (second :: later).getLast (by simp)
    let behind : Slot Rat := ⟨later.length + 2, Quantity.larger ready last.finish⟩
    have hlast : (second.stretch k :: later.map (Event.stretch k)).getLast (by simp) =
        last.stretch k :=
      List.getLast_map (l := second :: later) (by simp)
    have hbehind : behind.stretch k = ⟨(later.map (Event.stretch k)).length + 2,
        Quantity.larger (k * ready) (last.stretch k).finish⟩ := by
      simp only [Slot.stretch, behind, Event.stretch, Quantity.larger_mul hk.le, List.length_map]
    have hback :=
      searchBack_stretch hk ready duration (first :: second :: later).reverse behind
    rw [hbehind, List.map_reverse, List.map_cons, List.map_cons] at hback
    simp only [List.map_cons, findSlot, hlast, hback]
    rw [apply_ite (Slot.stretch k)]
    exact if_congr (window_stretch hk) rfl rfl

theorem slot_stretch (hk : 0 < k) (lane : Lane Rat) :
    (lane.stretch k).slot (k * ready) (k * duration) = (lane.slot ready duration).stretch k :=
  findSlot_stretch hk lane.events

theorem eventAt_stretch (lane : Lane Rat) (s : Slot Rat) (task : Int) (duration : Rat) :
    (lane.stretch k).eventAt (s.stretch k) task (k * duration) =
      (lane.eventAt s task duration).stretch k := by
  simp only [eventAt, Slot.stretch, Event.stretch, stretch, mul_add]

theorem query_stretch (hk : 0 < k) (lane : Lane Rat) :
    (lane.stretch k).query (k * ready) (k * duration) = (lane.query ready duration).stretch k := by
  rw [query, slot_stretch hk, eventAt_stretch, query]

theorem offer_stretch (hk : 0 < k) (lane : Lane Rat) (task : Int) :
    (lane.stretch k).offer task (k * ready) (k * duration) =
      (lane.offer task ready duration).stretch k := by
  rw [offer, slot_stretch hk, eventAt_stretch, offer]

theorem commit_stretch (hk : 0 < k) (lane : Lane Rat) (task : Int) :
    (lane.stretch k).commit task (k * ready) (k * duration) =
      (lane.commit task ready duration).stretch k := by
  unfold commit
  rw [slot_stretch hk, offer_stretch hk]
  simp only [stretch, List.map_insertIdx]
  rfl

end Lane

/-! ## Larger workflows -/

/-- A file that is `k` times as large. -/
def File.enlarge (k : Rat) (f : File Rat) : File Rat := { f with size := k * f.size }

/-- A task that is `k` times as long and has files that are `k` times as large. -/
def Task.enlarge (k : Rat) (t : Task Rat) : Task Rat :=
  { t with length := k * t.length, files := t.files.map (File.enlarge k) }

/-- A workflow with all its tasks enlarged. -/
def Workflow.enlarge (k : Rat) (w : Workflow Rat) : Workflow Rat := ⟨w.tasks.map (Task.enlarge k)⟩

namespace Workflow

variable (k : Rat) (w : Workflow Rat) (t : Int)

theorem size_enlarge : (w.enlarge k).size = w.size := List.length_map _

theorem holds_enlarge : (w.enlarge k).Holds t ↔ w.Holds t := by rw [Holds, Holds, size_enlarge]

theorem task?_enlarge : (w.enlarge k).task? t = (w.task? t).map (Task.enlarge k) := by
  rw [task?, task?, size_enlarge, Option.map_bind]
  congr 1
  funext i
  exact List.getElem?_map

theorem task_enlarge : (w.enlarge k).task t = Task.enlarge k <$> w.task t := by
  have htask := task?_enlarge k w t
  unfold task? size at htask
  unfold task elementAt
  rw [htask]
  cases (position? w.tasks.length t).bind (w.tasks[·]?) <;> rfl

theorem labelOf_enlarge : (w.enlarge k).labelOf t = w.labelOf t := by
  rw [labelOf, labelOf, task?_enlarge]
  cases w.task? t <;> rfl

theorem childrenOf_enlarge : (w.enlarge k).childrenOf t = w.childrenOf t := by
  rw [childrenOf, childrenOf, task?_enlarge]
  cases w.task? t <;> rfl

theorem parentsOf_enlarge : (w.enlarge k).parentsOf t = w.parentsOf t := by
  rw [parentsOf, parentsOf, task?_enlarge]
  cases w.task? t <;> rfl

end Workflow

/-! ## Higher costs -/

/-- Wherever there is an estimate, the costs of the one table are `k` times those of the other. -/
structure CostTable.Multiple (k : Rat) (c c' : CostTable Rat) : Prop where
  estimates : c'.estimates = c.estimates.map (List.map (Option.map (k * ·)))
  transferCost : ∀ parent child, c'.transferCost parent child = k * c.transferCost parent child

namespace CostTable.Multiple

variable {k : Rat} {c c' : CostTable Rat} {t : Int} {m : Nat} (h : c.Multiple k c')
include h

theorem rowOf_eq (t : Int) : c'.rowOf t = (c.rowOf t).map (Option.map (k * ·)) := by
  rw [rowOf, rowOf, h.estimates, List.length_map]
  cases position? c.estimates.length t with
  | none => rfl
  | some i =>
    rw [Option.bind_some, Option.bind_some, List.getElem?_map]
    cases c.estimates[i]? <;> rfl

theorem cell_eq (t : Int) (m : Nat) :
    (c'.rowOf t)[m]?.join = ((c.rowOf t)[m]?.join).map (k * ·) := by
  rw [h.rowOf_eq, List.getElem?_map]
  cases (c.rowOf t)[m]? <;> rfl

theorem feasible_eq (t : Int) (m : Nat) : c'.feasible t m = c.feasible t m := by
  rw [feasible, feasible, h.cell_eq, Option.isSome_map]

theorem fitsSomewhere_eq (t : Int) : c'.fitsSomewhere t = c.fitsSomewhere t := by
  simp [fitsSomewhere, h.rowOf_eq, Function.comp_def]

theorem duration_eq (hf : c.feasible t m = true) : c'.duration t m = k * c.duration t m := by
  obtain ⟨x, hx⟩ := Option.isSome_iff_exists.1 hf
  rw [duration, duration, h.cell_eq, hx]
  rfl

/-- The infeasible cost does not show in the mean of a row without gaps. -/
theorem averageCost_eq (hrow : ∀ x ∈ c.rowOf t, x.isSome = true) :
    c'.averageCost t = k * c.averageCost t := by
  have hfill : c'.fill (c'.rowOf t) = (c.fill (c.rowOf t)).map (k * ·) := by
    rw [h.rowOf_eq, fill, fill, List.map_map, List.map_map]
    refine List.map_congr_left fun x hx => ?_
    obtain ⟨y, rfl⟩ := Option.isSome_iff_exists.1 (hrow x hx)
    rfl
  rw [averageCost, averageCost, hfill, Quantity.mean_mul]

end CostTable.Multiple

/-! ## Placements -/

/-- An offer for a time that is `k` times as late, with a score that is `k` times as high. -/
def Offer.stretch (k : Rat) (o : Offer Rat) : Offer Rat :=
  { o with ready := k * o.ready, score := k * o.score }

/-- A placement with its event stretched and a score that is `k` times as high. -/
def Placement.stretch (k : Rat) (p : Placement Rat) : Placement Rat :=
  ⟨p.event.stretch k, p.score.map (k * ·)⟩

theorem scheduleOf_stretch (k : Rat) (ps : List (Placement Rat)) :
    scheduleOf (ps.map (Placement.stretch k)) = (scheduleOf ps).mapValues (Event.stretch k) := by
  simp [scheduleOf, Table.mapValues, Placement.stretch, Event.stretch, Function.comp_def]

section ReadyTime

variable {k : Rat} {w : Workflow Rat} {c c' : CostTable Rat} {scheduled : Table Int (Event Rat)}
  {t : Int}

theorem arrival_stretch (h : c.Multiple k c') (p machine : Int) (e : Event Rat) :
    arrival c' t p machine (e.stretch k) = k * arrival c t p machine e := by
  unfold arrival
  rw [h.transferCost, mul_ite, mul_add]
  rfl

theorem latestArrival_stretch (hk : 0 < k) (h : c.Multiple k c') (machine : Int) (ready : Rat)
    (parents : List Int) :
    latestArrival (w.enlarge k) c' (scheduled.mapValues (Event.stretch k)) t machine (k * ready)
        parents =
      (k * ·) <$> latestArrival w c scheduled t machine ready parents := by
  induction parents generalizing ready with
  | nil => rfl
  | cons p parents ih =>
    simp only [latestArrival, w.holds_enlarge k, w.labelOf_enlarge k, Table.get?_mapValues]
    split
    · cases scheduled.get? p with
      | none => rfl
      | some e =>
        simp only [Option.map_some, arrival_stretch h, Quantity.larger_mul hk.le]
        exact ih _
    · rfl

theorem readyTime_stretch (hk : 0 < k) (h : c.Multiple k c') (machine : Int) :
    readyTime (w.enlarge k) c' (scheduled.mapValues (Event.stretch k)) t machine =
      (k * ·) <$> readyTime w c scheduled t machine := by
  rw [readyTime, readyTime, w.task_enlarge, bind_map_left, map_bind]
  refine bind_congr fun task => ?_
  rw [← latestArrival_stretch hk h, mul_zero]
  rfl

end ReadyTime

theorem Weights.score_mul (weights : Weights Rat) (k finish workload : Rat) :
    weights.score (k * finish) (k * workload) = k * weights.score finish workload := by
  rw [score, score]
  ring

namespace Allocation

/-- An allocation with its events stretched and its workloads and scores `k` times as high. -/
def stretch (k : Rat) (a : Allocation Rat) : Allocation Rat where
  lanes := a.lanes.map (Lane.stretch k)
  workload := a.workload.map (k * ·)
  placements := a.placements.map (Placement.stretch k)

variable {k : Rat} {weights : Weights Rat} {w : Workflow Rat} {c c' : CostTable Rat} {t : Int}
  {n m : Nat} {a : Allocation Rat}

theorem stretch_empty (k : Rat) (n : Nat) : (empty n).stretch k = empty n := by
  simp [stretch, empty, Lane.stretch, Function.comp_def]

theorem lane_stretch (a : Allocation Rat) (m : Nat) :
    (a.stretch k).lane m = (a.lane m).stretch k := by
  rw [lane, lane, stretch, List.getElem?_map]
  cases a.lanes[m]? <;> rfl

theorem load_stretch (a : Allocation Rat) (m : Nat) : (a.stretch k).load m = k * a.load m := by
  rw [load, load, stretch, List.getElem?_map]
  cases a.workload[m]? with
  | none => exact (mul_zero k).symm
  | some x => rfl

theorem map_modify {β : Type} {f g g' : β → β} (h : ∀ x, f (g x) = g' (f x)) (xs : List β)
    (m : Nat) : (xs.modify m g).map f = (xs.map f).modify m g' := by
  refine List.ext_getElem? fun i => ?_
  simp only [List.getElem?_map, List.getElem?_modify, Option.map_eq_map, Option.map_map]
  congr 1
  funext x
  simp only [Function.comp_apply]
  split
  · exact h x
  · rfl

theorem stretch_commit (hk : 0 < k) (a : Allocation Rat) (t : Int) (m : Nat)
    (ready duration : Rat) (score : Option Rat) :
    (a.stretch k).commit t m (k * ready) (k * duration) (score.map (k * ·)) =
      (a.commit t m ready duration score).stretch k := by
  have hlanes : (a.lanes.modify m fun lane => lane.commit t ready duration).map (Lane.stretch k) =
      (a.lanes.map (Lane.stretch k)).modify m fun lane =>
        lane.commit t (k * ready) (k * duration) :=
    map_modify (fun lane => (lane.commit_stretch hk t).symm) a.lanes m
  have hloads : (a.workload.modify m (· + duration)).map (k * ·) =
      (a.workload.map (k * ·)).modify m (· + k * duration) :=
    map_modify (fun x => mul_add k x duration) a.workload m
  unfold commit
  rw [lane_stretch, Lane.offer_stretch hk]
  simp only [stretch, hlanes, hloads, List.map_append]
  rfl

theorem candidates_stretch (h : c.Multiple k c') (a : Allocation Rat) (t : Int) :
    (a.stretch k).candidates c' t = a.candidates c t := by
  simp only [candidates, stretch, List.length_map, h.fitsSomewhere_eq, h.feasible_eq]

theorem stretch_offer (hk : 0 < k) (h : c.Multiple k c') (hf : c.feasible t m = true)
    (a : Allocation Rat) :
    (a.stretch k).offer (w.enlarge k) c' weights t m =
      Offer.stretch k <$> a.offer w c weights t m := by
  have hscheduled : scheduleOf (a.stretch k).placements =
      (scheduleOf a.placements).mapValues (Event.stretch k) := scheduleOf_stretch k a.placements
  unfold offer
  rw [hscheduled, readyTime_stretch hk h, bind_map_left, map_bind]
  refine bind_congr fun ready => ?_
  rw [lane_stretch, load_stretch, h.duration_eq hf, Lane.query_stretch hk]
  exact congrArg (fun x => Except.ok (Offer.mk m (k * ready) x)) (weights.score_mul k ..)

/-- A task goes to the same machine, and all times are `k` times as late. -/
theorem stretch_place (hk : 0 < k) (h : c.Multiple k c') (hn : 0 < a.lanes.length)
    (hf : ∀ m < a.lanes.length, c.feasible t m = true) :
    (a.stretch k).place (w.enlarge k) c' weights t = stretch k <$> a.place w c weights t := by
  have hcommit {m : Nat} (hm : m < a.lanes.length) (ready : Rat) (score : Option Rat) :
      (a.stretch k).commit t m (k * ready) (c'.duration t m) (score.map (k * ·)) =
        (a.commit t m ready (c.duration t m) score).stretch k := by
    rw [h.duration_eq (hf m hm), stretch_commit hk]
  have hmap : ((a.stretch k).candidates c' t).mapM
      ((a.stretch k).offer (w.enlarge k) c' weights t) =
        List.map (Offer.stretch k) <$> (a.candidates c t).mapM (a.offer w c weights t) := by
    rw [candidates_stretch h]
    exact mapM_map fun m hm => stretch_offer hk h (hf m (mem_candidates.1 hm).1) a
  cases hoffers : (a.candidates c t).mapM (a.offer w c weights t) with
  | error f =>
    rw [hoffers] at hmap
    unfold place
    rw [hoffers, hmap]
    rfl
  | ok offers =>
    rw [hoffers] at hmap
    obtain ⟨hmachines, -⟩ := offers_machines (mapM_ok_iff.1 hoffers)
    rw [place_of_offers hoffers, place_of_offers hmap,
      bestOffer_map (f := Offer.stretch k) fun _ _ => mul_lt_mul_iff_right₀ hk]
    refine congrArg Except.ok ?_
    cases hbest : bestOffer offers with
    | some o =>
      have hmem := List.mem_map_of_mem (f := Offer.machine) (bestOffer_mem hbest)
      rw [hmachines] at hmem
      exact hcommit (mem_candidates.1 hmem).1 o.ready (some o.score)
    | none =>
      have hlast := hcommit (Nat.sub_lt hn Nat.one_pos) 0 none
      rw [mul_zero] at hlast
      have hlength : (a.stretch k).lanes.length = a.lanes.length := List.length_map _
      simp only [hlength]
      exact hlast

/-- A run of placements. -/
theorem stretch_placeAll {ts : List Int} (hk : 0 < k) (h : c.Multiple k c') (hn : 0 < n)
    (hf : ∀ t ∈ ts, ∀ m < n, c.feasible t m = true) (ha : a.Aligned n) :
    (a.stretch k).placeAll (w.enlarge k) c' weights ts =
      stretch k <$> a.placeAll w c weights ts := by
  refine placeAll_map (I := Aligned n) (fun t ht a ha => ?_) (fun t a b ha hb => ha.place hn hb) ha
  refine stretch_place hk h ?_ fun m hm => hf t ht m ?_
  · rwa [ha.lanes_length]
  · rwa [← ha.lanes_length]

end Allocation

end EarliestFinish
