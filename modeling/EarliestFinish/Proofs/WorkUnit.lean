import EarliestFinish.Proofs.CriticalPath
import EarliestFinish.Proofs.Failure
import EarliestFinish.Proofs.Outcome
import EarliestFinish.Proofs.RankOrder
import EarliestFinish.Proofs.Stretch

/-!
# The unit of work does not matter

If all task lengths and all file sizes are `k` times as large, then so are the static estimates and
the transfer times. The means that the ranks are made of grow by the same factor, so the ranks do,
and the tasks come in the same order. In this order they go to the same machines, `k` times as late.

This takes that every task fits on every machine. For the cost that stands in for an infeasible
placement contains a constant, and where it enters a mean the ranks do not keep their proportions.

* `Workflow.staticRows` is what the static estimator makes of a workflow, and `plan_static` the plan;
* `ofEstimates_enlarge`, `ranks_enlarge` and `order_enlarge` are the stages before the placements;
* `Planning.plan_enlarge` puts them together with `Allocation.stretch_placeAll`.
-/

namespace EarliestFinish

/-! ## The static estimates -/

section Static

variable {weights : Weights Rat} {w : Workflow Rat} {machines : List (Machine Rat)}
  {σ : Session Rat}

/-- The length of every task over the speed of every machine that has the cores for it. -/
def Workflow.staticRows (w : Workflow Rat) (machines : List (Machine Rat)) : Estimates Rat :=
  w.tasks.map fun task => machines.map fun machine =>
    if machine.fits task then some (task.length / machine.speed) else none

theorem shapeOf_staticRows : shapeOf (w.staticRows machines) = w.fitting machines := by
  simp only [shapeOf, Workflow.staticRows, Workflow.fitting, List.map_map]
  refine List.map_congr_left fun task _ => ?_
  simp only [Function.comp_apply, List.map_map]
  refine List.map_congr_left fun machine _ => ?_
  cases hfits : machine.fits task <;> simp [hfits]

theorem numbersOf_staticRows :
    numbersOf (w.staticRows machines) =
      (w.questions machines).map fun f => f.length / f.speed := by
  simp only [numbersOf, Workflow.staticRows, Workflow.questions, List.flatMap_map,
    List.map_flatMap, questionsOf_eq_flatMap]
  refine List.flatMap_congr fun task _ => List.flatMap_congr fun machine _ => ?_
  cases hfits : machine.fits task <;> simp [questionOf, hfits, Features.ofPair]

theorem describes_staticRows {c : CostTable Rat}
    (hc : CostTable.ofEstimates w machines (w.staticRows machines) = .ok c) :
    c.Describes (fun _ => True) w machines := by
  obtain ⟨hrows, -, htransfer, hinfeasible⟩ := ofEstimates_ok hc
  refine ⟨?_, htransfer, hrows ▸ hinfeasible⟩
  rw [hrows, Workflow.staticRows, List.forall₂_map_right_iff, List.forall₂_same]
  intro task _
  rw [List.forall₂_map_right_iff, List.forall₂_same]
  intro machine _
  split
  · next hfits => exact .value hfits trivial
  · next hfits => exact .tooSmall (Bool.eq_false_iff.2 hfits)

/-- The outcome of a plan with the static estimator. -/
theorem plan_static (hm : machines ≠ []) (hσ : σ.estimator = .static)
    (hspeed : ∀ machine ∈ machines, Quantity.isZero machine.speed = false) :
    ((Planning.plan weights w machines).runIn σ).1 =
      ended (CostTable.ofEstimates w machines (w.staticRows machines) >>=
        scheduleFrom weights w machines) := by
  have hanswers := Estimator.Answers.static (staticEstimate_eq (static_answers (w := w) hspeed))
  rw [← hσ] at hanswers
  obtain ⟨rows, σ', hshape, hnumbers, hrun, -⟩ := Planning.plan_answers weights hm hanswers
  obtain rfl := estimates_ext (hshape.trans shapeOf_staticRows.symm)
    (hnumbers.trans numbersOf_staticRows.symm)
  rw [hrun]

end Static

/-! ## The costs -/

section Costs

variable {k : Rat} {w : Workflow Rat} {machines : List (Machine Rat)} {rows : Estimates Rat}
  {c c' : CostTable Rat}

theorem staticRows_enlarge (k : Rat) (w : Workflow Rat) (machines : List (Machine Rat)) :
    (w.enlarge k).staticRows machines =
      (w.staticRows machines).map (List.map (Option.map (k * ·))) := by
  simp only [Workflow.staticRows, Workflow.enlarge, List.map_map]
  refine List.map_congr_left fun task _ => ?_
  simp only [Function.comp_apply, List.map_map]
  refine List.map_congr_left fun machine _ => ?_
  rw [Function.comp_apply, apply_ite (Option.map (k * ·))]
  exact if_congr Iff.rfl (congrArg some (mul_div_assoc ..)) rfl

theorem sharedSize_enlarge (k : Rat) (parent child : Task Rat) :
    sharedSize (parent.enlarge k) (child.enlarge k) = k * sharedSize parent child := by
  have hnames : (child.enlarge k).inputs.map File.name = child.inputs.map File.name := by
    rw [Task.inputs, Task.enlarge, List.filter_map, List.map_map]
    rfl
  have hsizes (names : List String) :
      (((parent.enlarge k).outputs.filter fun f => f.name ∈ names).map File.size) =
        ((parent.outputs.filter fun f => f.name ∈ names).map File.size).map (k * ·) := by
    simp only [Task.outputs, Task.enlarge, List.filter_map, List.map_map]
    rfl
  simp only [sharedSize, hnames, hsizes, Quantity.running_eq_sum, Quantity.sum_mul]

theorem transferTime_mul (hk : 0 < k) (bandwidth size : Rat) :
    transferTime bandwidth (k * size) = k * transferTime bandwidth size := by
  rw [transferTime, transferTime, mul_ite, mul_zero, mul_div_assoc]
  exact if_congr (and_congr_left' (mul_pos_iff_of_pos_left hk)) rfl rfl

theorem edgeTime_enlarge (hk : 0 < k) (w : Workflow Rat) (bandwidth : Rat) (e : Int × Int) :
    edgeTime (w.enlarge k) bandwidth e = k * edgeTime w bandwidth e := by
  rw [edgeTime, edgeTime, w.task?_enlarge, w.task?_enlarge]
  cases w.task? e.1 with
  | none => exact (mul_zero k).symm
  | some parent =>
    cases w.task? e.2 with
    | none => exact (mul_zero k).symm
    | some child =>
      simp only [Option.map_some, sharedSize_enlarge, transferTime_mul hk]

theorem edges_enlarge (k : Rat) (w : Workflow Rat) : (w.enlarge k).edges = w.edges := by
  simp only [Workflow.edges, Workflow.enlarge, List.zipIdx_map, List.flatMap_map]
  rfl

/-- Estimates that are `k` times as high make costs that are. -/
theorem ofEstimates_enlarge (hk : 0 < k) (hc : CostTable.ofEstimates w machines rows = .ok c)
    (hc' : CostTable.ofEstimates (w.enlarge k) machines
      (rows.map (List.map (Option.map (k * ·)))) = .ok c') : c.Multiple k c' := by
  obtain ⟨hrows, hbandwidth, htransfer, -⟩ := ofEstimates_ok hc
  obtain ⟨hrows', hbandwidth', htransfer', -⟩ := ofEstimates_ok hc'
  rw [← Except.ok.inj (hbandwidth.symm.trans hbandwidth')] at htransfer'
  refine ⟨by rw [hrows', hrows], fun parent child => ?_⟩
  rw [CostTable.transferCost, CostTable.transferCost, transferTable_get? htransfer,
    transferTable_get? htransfer', edges_enlarge, edgeTime_enlarge hk]
  split
  · rfl
  · exact (mul_zero k).symm

end Costs

/-! ## The ranks and the order -/

section Order

variable {k : Rat} {w : Workflow Rat} {c c' : CostTable Rat} {ranks ranks' : Table Int Rat}
  {order order' : List Int}

/-- If no row of the cost table has a gap, then all ranks are `k` times as high. -/
theorem ranks_enlarge (hk : 0 < k) (h : c.Multiple k c')
    (hrows : ∀ t, w.Holds t → ∀ x ∈ c.rowOf t, x.isSome = true)
    (hranks : upwardRanks w c = .ok ranks) (hranks' : upwardRanks (w.enlarge k) c' = .ok ranks')
    (t : Int) : ranks'.get? t = (ranks.get? t).map (k * ·) := by
  by_cases ht : w.Holds t
  · refine upwardRanks_induction (P := fun t => ranks'.get? t = (ranks.get? t).map (k * ·)) hranks
      (fun t ht ih => ?_) ht
    rw [upwardRanks_eq_rankOf hranks ht,
      upwardRanks_eq_rankOf hranks' ((w.holds_enlarge k t).2 ht), Option.map_some]
    -- every child adds `k` times as much
    have hterms : (w.childrenOf t).map (fun child =>
          c'.transferCost t child + (ranks'.get? child).getD 0) =
        ((w.childrenOf t).map fun child =>
          c.transferCost t child + (ranks.get? child).getD 0).map (k * ·) := by
      rw [List.map_map]
      refine List.map_congr_left fun child hchild => ?_
      rw [Function.comp_apply, ih child hchild, h.transferCost, mul_add]
      cases ranks.get? child with
      | none => exact congrArg _ (mul_zero k).symm
      | some r => rfl
    rw [Walk.rankOf, Walk.rankOf, w.childrenOf_enlarge, hterms, h.averageCost_eq (hrows t ht),
      Quantity.largestOr_mul hk.le, mul_add]
  · rw [rank_eq_none hranks ht, rank_eq_none hranks' (mt (w.holds_enlarge k t).1 ht)]
    rfl

theorem positions_enlarge (k : Rat) (w : Workflow Rat) : (w.enlarge k).positions = w.positions := by
  rw [Workflow.positions, Workflow.positions, w.size_enlarge]

/-- Ranks that are all `k` times as high compare as they did. -/
theorem ranksBefore_mul (hk : 0 < k) (hmul : ∀ t, ranks'.get? t = (ranks.get? t).map (k * ·))
    (t u : Int) : RanksBefore ranks' t u ↔ RanksBefore ranks t u := by
  constructor
  · rintro ⟨x', y', hx', hy', h⟩
    rw [hmul, Option.map_eq_some_iff] at hx' hy'
    obtain ⟨x, hx, rfl⟩ := hx'
    obtain ⟨y, hy, rfl⟩ := hy'
    refine ⟨x, y, hx, hy, h.imp (mul_lt_mul_iff_right₀ hk).1 fun heq => ?_⟩
    exact ⟨mul_left_cancel₀ hk.ne' heq.1, heq.2⟩
  · rintro ⟨x, y, hx, hy, h⟩
    refine ⟨k * x, k * y, by rw [hmul, hx, Option.map_some], by rw [hmul, hy, Option.map_some],
      h.imp (mul_lt_mul_iff_right₀ hk).2 fun heq => ?_⟩
    exact ⟨congrArg (k * ·) heq.1, heq.2⟩

/-- Such ranks make the same order. -/
theorem order_enlarge (hk : 0 < k) (hranks : upwardRanks w c = .ok ranks)
    (hranks' : upwardRanks (w.enlarge k) c' = .ok ranks')
    (hmul : ∀ t, ranks'.get? t = (ranks.get? t).map (k * ·))
    (horder : priorityOrder w ranks = .ok order)
    (horder' : priorityOrder (w.enlarge k) ranks' = .ok order') : order' = order := by
  have hkeys : ranks'.keys.Perm ranks.keys := by
    have := (upwardRanks_ok hranks').1
    rw [positions_enlarge] at this
    exact this.trans (upwardRanks_ok hranks).1.symm
  have hsame : RanksBefore ranks' = RanksBefore ranks := by
    funext t u
    exact propext (ranksBefore_mul hk hmul t u)
  have hparents : (w.enlarge k).parentsOf = w.parentsOf := funext (w.parentsOf_enlarge k)
  rw [priorityOrder_eq horder, priorityOrder_eq horder', hparents,
    rankOrder_eq (ranks_nodup hranks) hkeys hsame]

end Order

/-! ## The plans -/

theorem malformed_enlarge (k : Rat) (w : Workflow Rat) : (w.enlarge k).Malformed ↔ w.Malformed :=
  Workflow.malformed_congr (w.holds_enlarge k) (fun t l => by rw [w.childrenOf_enlarge])
    fun t l => by rw [w.parentsOf_enlarge]

/-- Two schedules with the same order and the same machines, in which all ranks, all times and all
workloads of the second are `k` times those of the first. -/
structure Schedule.Stretched (k : Rat) (s s' : Schedule Rat) : Prop where
  order : s'.order = s.order
  ranks : ∀ t, s'.ranks.get? t = (s.ranks.get? t).map (k * ·)
  /-- Every task is on the same machine, but starts and finishes `k` times as late. -/
  events : s'.events = s.events.mapValues (Event.stretch k)
  roster : s'.roster = s.roster.mapValues (List.map (Event.stretch k))
  workload : s'.allocation.workload = s.allocation.workload.map (k * ·)
  makespan : s'.makespan = k * s.makespan

theorem Schedule.makespan_stretch {k : Rat} {s s' : Schedule Rat} (hk : 0 < k)
    (h : s'.events = s.events.mapValues (Event.stretch k)) : s'.makespan = k * s.makespan := by
  have hfinish : s'.events.values.map Event.finish =
      (s.events.values.map Event.finish).map (k * ·) := by
    rw [h, Table.values_mapValues, List.map_map, List.map_map]
    rfl
  rw [makespan, makespan, hfinish, Quantity.largestOr_mul hk.le]

section Plan

variable {k : Rat} {weights : Weights Rat} {w : Workflow Rat} {machines : List (Machine Rat)}
  {c c' : CostTable Rat} {s s' : Schedule Rat}

/-- The schedules from two cost tables, if no placement is infeasible. -/
theorem schedule_enlarge (hk : 0 < k) (hne : machines ≠ []) (h : c.Multiple k c')
    (hdescribes : c.Describes (fun _ => True) w machines)
    (hfits : ∀ task ∈ w.tasks, ∀ machine ∈ machines, machine.fits task = true)
    (hs : scheduleFrom weights w machines c = .ok s)
    (hs' : scheduleFrom weights (w.enlarge k) machines c' = .ok s') : s.Stretched k s' := by
  obtain ⟨hp, rfl⟩ := scheduleFrom_ok hs
  obtain ⟨hp', rfl⟩ := scheduleFrom_ok hs'
  have hmul := ranks_enlarge hk h (fun t ht x => hdescribes.isSome_of_fits hfits ht) hp.ranks_ok
    hp'.ranks_ok
  have horder : s'.order = s.order :=
    order_enlarge hk hp.ranks_ok hp'.ranks_ok hmul hp.order_ok hp'.order_ok
  have hfeasible : ∀ t ∈ s.order, ∀ m < machines.length, s.costs.feasible t m = true :=
    fun t ht m hm => hdescribes.feasible_of_fits hfits (hp.holds ht) hm
  have hallocation : s'.allocation = s.allocation.stretch k := by
    have hrun : ((Allocation.empty machines.length).stretch k).placeAll (w.enlarge k) s'.costs
        weights s.order = Allocation.stretch k <$>
          Allocation.placeAll w s.costs weights (.empty machines.length) s.order :=
      Allocation.stretch_placeAll hk h (List.length_pos_of_ne_nil hne) hfeasible
        (Allocation.aligned_empty machines.length)
    rw [Allocation.stretch_empty, hp.allocation_ok, ← horder, hp'.allocation_ok] at hrun
    exact Except.ok.inj hrun
  have hevents : s'.events = s.events.mapValues (Event.stretch k) := by
    rw [Schedule.events, hallocation]
    exact scheduleOf_stretch k s.allocation.placements
  refine ⟨horder, hmul, hevents, ?_, ?_, Schedule.makespan_stretch hk hevents⟩
  · simp [Schedule.roster, hallocation, Roster.ofLanes, Table.mapValues, Allocation.stretch,
      Lane.stretch, Function.comp_def]
  · rw [hallocation]
    rfl

end Plan

namespace Planning

variable {k : Rat} {weights : Weights Rat} {w : Workflow Rat} {machines : List (Machine Rat)}
  {σ σ' : Session Rat} {s : Schedule Rat}

/-- With all lengths and file sizes `k` times as large, the tasks go to the same machines in the
same order, and all ranks, times and workloads are `k` times as large. -/
theorem plan_enlarge (hk : 0 < k) (hσ : σ.estimator = .static) (hσ' : σ'.estimator = .static)
    (hspeed : ∀ machine ∈ machines, 0 < machine.speed)
    (hfits : ∀ task ∈ w.tasks, ∀ machine ∈ machines, machine.fits task = true)
    (hs : ((plan weights w machines).runIn σ).1 = .ok s) :
    ∃ s', ((plan weights (w.enlarge k) machines).runIn σ').1 = .ok s' ∧ s.Stretched k s' := by
  obtain ⟨hne, -⟩ := plan_ok (Prod.ext hs rfl)
  have hzero : ∀ machine ∈ machines, Quantity.isZero machine.speed = false := fun machine hm => by
    simp [Quantity.isZero, not_le.2 (hspeed machine hm)]
  obtain ⟨s', hs'⟩ : ∃ s', ((plan weights (w.enlarge k) machines).runIn σ').1 = .ok s' := by
    refine exists_plan hne ?_ weights (mt (malformed_enlarge k w).1 (wellFormed_of_plan hs).1)
    rw [hσ']
    exact static_answers hzero
  refine ⟨s', hs', ?_⟩
  rw [plan_static hne hσ hzero] at hs
  rw [plan_static hne hσ' hzero, staticRows_enlarge] at hs'
  obtain ⟨c, hc, hs⟩ := bind_ok_iff.1 (ended_eq_ok_iff.1 hs)
  obtain ⟨c', hc', hs'⟩ := bind_ok_iff.1 (ended_eq_ok_iff.1 hs')
  exact schedule_enlarge hk hne (ofEstimates_enlarge hk hc hc') (describes_staticRows hc) hfits hs hs'

/-- Three times the fork, on two machines on which all of it fits. -/
theorem plan_enlarge_fork :
    ∃ s s', ((plan Sample.evenly Sample.fork [Sample.wide, Sample.fast]).runIn {}).1 = .ok s ∧
      ((plan Sample.evenly (Sample.fork.enlarge 3) [Sample.wide, Sample.fast]).runIn {}).1 = .ok s' ∧
      s.Stretched 3 s' ∧ s'.order = [0, 2, 1] ∧ s'.makespan = 30 := by
  obtain ⟨s, σ', hrun, hresult⟩ := exists_runIn_of_map
    (show ((plan Sample.evenly Sample.fork [Sample.wide, Sample.fast]).runIn {}).1.toOption.map
      (fun s => (s.order, s.makespan)) = some ([0, 2, 1], 10) by decide +kernel)
  obtain ⟨horder, hmakespan⟩ := Prod.mk.inj hresult
  have hs : ((plan Sample.evenly Sample.fork [Sample.wide, Sample.fast]).runIn {}).1 = .ok s := by
    rw [hrun]
  obtain ⟨s', hs', hstretched⟩ : ∃ s', ((plan Sample.evenly (Sample.fork.enlarge 3)
      [Sample.wide, Sample.fast]).runIn {}).1 = .ok s' ∧ s.Stretched 3 s' :=
    plan_enlarge (by norm_num) rfl rfl (by decide +kernel) (by decide +kernel) hs
  refine ⟨s, s', hs, hs', hstretched, hstretched.order.trans horder, ?_⟩
  rw [hstretched.makespan, hmakespan]
  norm_num

/-- On the slow machine one task does not fit, and with three times the work it does not get three
times its rank. -/
example :
    [Sample.fork, Sample.fork.enlarge 3].map (fun w =>
      ((plan Sample.evenly w [Sample.slow, Sample.fast]).runIn {}).1.toOption.map
        (·.ranks.get? 2)) = [some (some 97), some (some 281)] := by
  decide +kernel

end Planning

end EarliestFinish
