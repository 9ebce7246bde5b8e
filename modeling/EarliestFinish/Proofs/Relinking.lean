import EarliestFinish.Proofs.Construction
import EarliestFinish.Proofs.CriticalPath
import EarliestFinish.Proofs.Failure
import EarliestFinish.Proofs.Outcome
import EarliestFinish.Proofs.RankOrder

/-!
# The order of declarations

Two workflows are *relinked* if they have the same tasks with the same links, but list the links of
a task in different orders. Every stage of a plan looks at the links in the order in which they are
listed, and comes to the same in the end:

* the estimator is asked the same questions, and the transfer table has the same edges with the
  same times, so both workflows have the same costs (`ofEstimates_relinked`);
* the ranks are lengths of longest paths, and there is one order of them (`rankOrder_congr`);
* a gate lets a task out if all its parents are out, and a task is ready when the last of its
  parents has arrived, so the same tasks go to the same places (`placeAll_relinked`).

Workflows that are built from the same tasks by declaring the same dependencies are relinked, so
their plans agree: `Planning.plan_declarations`.
-/

namespace EarliestFinish

variable {α : Type}

/-- Two tasks that differ in the order of their links at most. -/
structure Task.Relinked (t t' : Task α) : Prop where
  label : t'.label = t.label
  length : t'.length = t.length
  cores : t'.cores = t.cores
  files : t'.files = t.files
  parents : t'.parents.Perm t.parents
  children : t'.children.Perm t.children

theorem Task.Relinked.fits {t t' : Task α} (h : t.Relinked t') (m : Machine α) :
    m.fits t' = m.fits t := by
  rw [Machine.fits, Machine.fits, h.cores]

theorem sharedSize_relinked [Quantity α] {t t' u u' : Task α} (ht : t.Relinked t')
    (hu : u.Relinked u') : sharedSize t' u' = sharedSize t u := by
  have houtputs : t'.outputs = t.outputs := by rw [Task.outputs, Task.outputs, ht.files]
  have hinputs : u'.inputs = u.inputs := by rw [Task.inputs, Task.inputs, hu.files]
  rw [sharedSize, sharedSize, houtputs, hinputs]

/-- Two workflows that differ in the order of links at most. -/
def Workflow.Relinked (w w' : Workflow α) : Prop := List.Forall₂ Task.Relinked w.tasks w'.tasks

namespace Workflow

/-! ## Built workflows -/

/-- The order in which accepted pairs were declared, and how often, shows in the order of links
only. -/
theorem relinked_ofLinks (tasks : List (Task α)) {pairs pairs' : List (Int × Int)}
    (h : ∀ e, e ∈ pairs' ↔ e ∈ pairs) : (ofLinks tasks pairs).Relinked (ofLinks tasks pairs') := by
  have hlength : (ofLinks tasks pairs).tasks.length = (ofLinks tasks pairs').tasks.length := by
    simp [ofLinks]
  refine List.forall₂_iff_get.2 ⟨hlength, fun k hk hk' => ?_⟩
  simp only [ofLinks, List.get_eq_getElem, List.getElem_mapIdx, linkTask]
  constructor
  case parents =>
    refine (List.perm_ext_iff_of_nodup (parentsIn_nodup ..) (parentsIn_nodup ..)).2 fun i => ?_
    rw [mem_parentsIn, mem_parentsIn, h]
  case children =>
    refine (List.perm_ext_iff_of_nodup (childrenIn_nodup ..) (childrenIn_nodup ..)).2 fun i => ?_
    rw [mem_childrenIn, mem_childrenIn, h]
  all_goals rfl

/-- Commands that add the same tasks and declare the same dependencies build the same workflow, but
for the order of links. -/
theorem relinked_build {commands commands' : List (Command α)}
    (htasks : tasksOf commands' = tasksOf commands)
    (hpairs : ∀ e, e ∈ acceptedPairs {} commands' ↔ e ∈ acceptedPairs {} commands) :
    (build commands).Relinked (build commands') := by
  rw [(build_eq commands).1, (build_eq commands').1, htasks]
  exact relinked_ofLinks _ hpairs

/-! ## Relinked workflows -/

namespace Relinked

variable {w w' : Workflow α} {machines : List (Machine α)} {t l : Int}

theorem size_eq (h : w.Relinked w') : w'.size = w.size := (List.Forall₂.length_eq h).symm

theorem holds_iff (h : w.Relinked w') : w'.Holds t ↔ w.Holds t := by
  rw [Holds, Holds, h.size_eq]

/-- At every position there are two relinked tasks or none. -/
theorem task?_rel (h : w.Relinked w') (t : Int) :
    (w.task? t = none ∧ w'.task? t = none) ∨
      ∃ u u', w.task? t = some u ∧ w'.task? t = some u' ∧ u.Relinked u' :=
  task?_related h t

theorem childrenOf_perm (h : w.Relinked w') (t : Int) :
    (w'.childrenOf t).Perm (w.childrenOf t) := by
  unfold childrenOf
  rcases h.task?_rel t with ⟨hu, hu'⟩ | ⟨u, u', hu, hu', hrel⟩
  · rw [hu, hu']
  · rw [hu, hu']
    exact hrel.children

theorem parentsOf_perm (h : w.Relinked w') (t : Int) : (w'.parentsOf t).Perm (w.parentsOf t) := by
  unfold parentsOf
  rcases h.task?_rel t with ⟨hu, hu'⟩ | ⟨u, u', hu, hu', hrel⟩
  · rw [hu, hu']
  · rw [hu, hu']
    exact hrel.parents

theorem mem_edges_iff (h : w.Relinked w') {e : Int × Int} : e ∈ w'.edges ↔ e ∈ w.edges := by
  obtain ⟨p, c⟩ := e
  rw [mem_edges, mem_edges, Links, Links, h.holds_iff, (h.childrenOf_perm p).mem_iff]

theorem malformed_iff (h : w.Relinked w') : w'.Malformed ↔ w.Malformed :=
  malformed_congr (fun _ => h.holds_iff) (fun t _ => (h.childrenOf_perm t).mem_iff)
    fun t _ => (h.parentsOf_perm t).mem_iff

/-- What does not depend on the order of links is the same for all tasks. -/
theorem map_tasks {β : Type} {f : Task α → β} (h : w.Relinked w')
    (hf : ∀ t t' : Task α, t.Relinked t' → f t' = f t) : w'.tasks.map f = w.tasks.map f := by
  have hsame : List.Forall₂ (fun t t' => f t = f t') w.tasks w'.tasks :=
    h.imp fun t t' ht => (hf t t' ht).symm
  rw [eq_comm, ← List.forall₂_eq_eq_eq, List.forall₂_map_left_iff, List.forall₂_map_right_iff]
  exact hsame

/-- The estimator is asked the same questions. -/
theorem questions_eq (h : w.Relinked w') (machines : List (Machine α)) :
    w'.questions machines = w.questions machines := by
  rw [questions, questions, List.flatMap_def, List.flatMap_def]
  refine congrArg List.flatten (h.map_tasks fun t t' ht => ?_)
  have hfeatures : Features.ofPair t' = Features.ofPair (α := α) t := by
    funext m
    rw [Features.ofPair, Features.ofPair, ht.length, ht.parents.length_eq]
  simp only [questionsOf, ht.fits, hfeatures]

theorem fitting_eq (h : w.Relinked w') (machines : List (Machine α)) :
    w'.fitting machines = w.fitting machines :=
  h.map_tasks fun t t' ht => by simp only [ht.fits]

variable [Quantity α]

theorem edgeTime_eq (h : w.Relinked w') (bandwidth : α) (e : Int × Int) :
    edgeTime w' bandwidth e = edgeTime w bandwidth e := by
  unfold edgeTime
  rcases h.task?_rel e.1 with ⟨hp, hp'⟩ | ⟨p, p', hp, hp', hparent⟩
  · rw [hp, hp']
  rcases h.task?_rel e.2 with ⟨hc, hc'⟩ | ⟨c, c', hc, hc', hchild⟩
  · rw [hp, hp', hc, hc']
  · rw [hp, hp', hc, hc']
    exact congrArg (transferTime bandwidth) (sharedSize_relinked hparent hchild)

theorem transferTable_relinked (h : w.Relinked w') {bandwidth : α}
    {table table' : Table (Int × Int) α} (ht : transferTable w bandwidth = .ok table)
    (ht' : transferTable w' bandwidth = .ok table') : ∀ e, table'.get? e = table.get? e := by
  intro e
  rw [transferTable_get? ht, transferTable_get? ht', h.edgeTime_eq]
  simp only [h.mem_edges_iff]

end Relinked

end Workflow

/-! ## The costs -/

/-- Two cost tables that differ in the order of the transfer times at most. -/
structure CostTable.Agrees (c c' : CostTable Rat) : Prop where
  estimates : c'.estimates = c.estimates
  infeasibleCost : c'.infeasibleCost = c.infeasibleCost
  transferCost : ∀ parent child, c'.transferCost parent child = c.transferCost parent child

section Costs

variable {w w' : Workflow Rat} {machines : List (Machine Rat)} {rows : Estimates Rat}
  {c c' : CostTable Rat}

theorem infeasibleCostOf_perm {transfer transfer' : Table (Int × Int) Rat}
    (h : transfer'.entries.Perm transfer.entries) :
    infeasibleCostOf rows transfer' = infeasibleCostOf rows transfer := by
  have hvalues : transfer'.values.sum = transfer.values.sum := (h.map Prod.snd).sum_eq
  rw [infeasibleCostOf, infeasibleCostOf, Quantity.running_eq_sum, Quantity.running_eq_sum, hvalues]

/-- Relinked workflows with the same estimates have the same costs. -/
theorem ofEstimates_relinked (h : w.Relinked w')
    (hc : CostTable.ofEstimates w machines rows = .ok c)
    (hc' : CostTable.ofEstimates w' machines rows = .ok c') : c.Agrees c' := by
  obtain ⟨hrows, hbandwidth, htransfer, hinfeasible⟩ := ofEstimates_ok hc
  obtain ⟨hrows', hbandwidth', htransfer', hinfeasible'⟩ := ofEstimates_ok hc'
  rw [← Except.ok.inj (hbandwidth.symm.trans hbandwidth')] at htransfer'
  have hsame := h.transferTable_relinked htransfer htransfer'
  have hperm := Table.entries_perm (transferTable_nodup htransfer) (transferTable_nodup htransfer')
    hsame
  refine ⟨hrows'.trans hrows.symm, ?_, fun parent child => ?_⟩
  · rw [hinfeasible', hinfeasible, infeasibleCostOf_perm hperm]
  · rw [CostTable.transferCost, CostTable.transferCost, hsame]

namespace CostTable.Agrees

variable (h : c.Agrees c')
include h

theorem rowOf_eq (t : Int) : c'.rowOf t = c.rowOf t := by rw [rowOf, rowOf, h.estimates]

theorem fill_eq (row : List (Option Rat)) : c'.fill row = c.fill row := by
  rw [fill, fill, h.infeasibleCost]

theorem durations_eq : c'.durations = c.durations := by
  have hfill : c'.fill = c.fill := funext h.fill_eq
  rw [durations, durations, h.estimates, hfill]

theorem averageCost_eq (t : Int) : c'.averageCost t = c.averageCost t := by
  rw [averageCost, averageCost, h.fill_eq, h.rowOf_eq]

theorem duration_eq (t : Int) (m : Nat) : c'.duration t m = c.duration t m := by
  rw [duration, duration, h.rowOf_eq, h.infeasibleCost]

theorem candidates_eq (a : Allocation Rat) (t : Int) : a.candidates c' t = a.candidates c t := by
  simp only [Allocation.candidates, fitsSomewhere, feasible, h.rowOf_eq]

end CostTable.Agrees

end Costs

/-! ## The ranks and the order -/

section Order

variable {w w' : Workflow Rat} {c c' : CostTable Rat} {ranks ranks' : Table Int Rat}
  {order order' : List Int}

theorem renumbering_relinked (h : w.Relinked w') (hc : c.Agrees c') :
    Renumbering id w c w' c' where
  tasks := by
    have : {t | w'.Holds t} = {t | w.Holds t} := by
      ext t
      exact h.holds_iff
    rw [this]
    exact Set.bijOn_id _
  edges := by
    rw [Prod.map_id, Set.image_id]
    ext e
    exact h.mem_edges_iff
  covers t _ := by rw [CostTable.covers, CostTable.covers, hc.estimates, id]
  averageCost t _ := hc.averageCost_eq t
  transferCost e _ := hc.transferCost e.1 e.2

theorem ranks_relinked (h : w.Relinked w') (hc : c.Agrees c')
    (hranks : upwardRanks w c = .ok ranks) (hranks' : upwardRanks w' c' = .ok ranks') :
    ∀ t, ranks'.get? t = ranks.get? t := by
  obtain ⟨ranks₁, hranks₁, hsame⟩ := (renumbering_relinked h hc).upwardRanks hranks
  obtain rfl := Except.ok.inj (hranks'.symm.trans hranks₁)
  intro t
  by_cases ht : w.Holds t
  · exact hsame t ht
  · rw [rank_eq_none hranks ht, rank_eq_none hranks' (mt h.holds_iff.1 ht)]

theorem Gate.release_congr {parents parents' : Int → List Int}
    (h : ∀ out, clears parents' out = clears parents out) (g : Gate) :
    release parents' g = release parents g := by
  fun_induction release parents g with
  | case1 g t hfind ih =>
    rw [release]
    split
    · next u hu =>
      rw [h, hfind] at hu
      obtain rfl := Option.some.inj hu
      exact ih
    · next hnone =>
      rw [h, hfind] at hnone
      cases hnone
  | case2 g hfind =>
    rw [release]
    split
    · next u hu =>
      rw [h, hfind] at hu
      cases hu
    · rfl

/-- A gate does not look at the order in which the parents of a task are listed. -/
theorem receive_relinked (h : w.Relinked w') :
    Gate.receive w'.parentsOf = Gate.receive w.parentsOf := by
  funext g t
  apply Gate.release_congr
  intro out
  funext u
  rw [Gate.clears, Gate.clears, (h.parentsOf_perm u).all_eq]

theorem order_relinked (h : w.Relinked w') (hc : c.Agrees c')
    (hranks : upwardRanks w c = .ok ranks) (hranks' : upwardRanks w' c' = .ok ranks')
    (horder : priorityOrder w ranks = .ok order) (horder' : priorityOrder w' ranks' = .ok order') :
    order' = order := by
  rw [priorityOrder_eq horder, priorityOrder_eq horder', receive_relinked h,
    rankOrder_congr (ranks_nodup hranks) (ranks_nodup hranks') (ranks_relinked h hc hranks hranks')]

end Order

/-! ## The placements -/

section Placements

variable {w w' : Workflow Rat} {c c' : CostTable Rat} {weights : Weights Rat}
  {scheduled : Table Int (Event Rat)} {a b b' : Allocation Rat} {t machine : Int} {m : Nat}
  {x x' : Rat} {o o' : Offer Rat} {ts : List Int}

theorem readyTime_relinked (h : w.Relinked w') (hc : c.Agrees c') (ht : w.Holds t)
    (hx : readyTime w c scheduled t machine = .ok x)
    (hx' : readyTime w' c' scheduled t machine = .ok x') : x' = x := by
  -- both are the earliest time by which the same parents have arrived
  apply eq_of_forall_ge_iff
  intro y
  rw [readyTime_le_iff ht hx, readyTime_le_iff (h.holds_iff.2 ht) hx']
  have harrival (p : Int) (e : Event Rat) : arrival c' t p machine e = arrival c t p machine e := by
    rw [arrival, arrival, hc.transferCost]
  simp only [ArrivedBy, harrival, (h.parentsOf_perm t).mem_iff]

theorem offer_relinked (h : w.Relinked w') (hc : c.Agrees c') (ht : w.Holds t)
    (ho : a.offer w c weights t m = .ok o) (ho' : a.offer w' c' weights t m = .ok o') :
    o' = o := by
  obtain ⟨ready, hready, rfl⟩ := Allocation.offer_ok ho
  obtain ⟨ready', hready', rfl⟩ := Allocation.offer_ok ho'
  rw [readyTime_relinked h hc ht hready hready', hc.duration_eq]

theorem offers_relinked (h : w.Relinked w') (hc : c.Agrees c') (ht : w.Holds t) {ms : List Nat}
    {offers offers' : List (Offer Rat)} (ho : ms.mapM (a.offer w c weights t) = .ok offers)
    (ho' : ms.mapM (a.offer w' c' weights t) = .ok offers') : offers' = offers := by
  rw [mapM_ok_iff] at ho ho'
  induction ho generalizing offers' with
  | nil => exact List.forall₂_nil_left_iff.1 ho'
  | cons hm _ ih =>
    obtain ⟨o', rest', hm', hrest', rfl⟩ := List.forall₂_cons_left_iff.1 ho'
    rw [offer_relinked h hc ht hm hm', ih hrest']

theorem place_relinked (h : w.Relinked w') (hc : c.Agrees c') (ht : w.Holds t)
    (hb : a.place w c weights t = .ok b) (hb' : a.place w' c' weights t = .ok b') : b' = b := by
  unfold Allocation.place at hb hb'
  rw [hc.candidates_eq] at hb'
  obtain ⟨offers, ho, hb⟩ := bind_ok_iff.1 hb
  obtain ⟨offers', ho', hb'⟩ := bind_ok_iff.1 hb'
  rw [offers_relinked h hc ht ho ho'] at hb'
  simp only [hc.duration_eq] at hb'
  exact Except.ok.inj (hb'.symm.trans hb)

/-- The same tasks go to the same places. -/
theorem placeAll_relinked (h : w.Relinked w') (hc : c.Agrees c') (hold : ∀ t ∈ ts, w.Holds t)
    (hb : a.placeAll w c weights ts = .ok b) (hb' : a.placeAll w' c' weights ts = .ok b') :
    b' = b := by
  induction ts generalizing a with
  | nil => exact Except.ok.inj (hb'.symm.trans hb)
  | cons t ts ih =>
    obtain ⟨ht, hts⟩ := List.forall_mem_cons.1 hold
    obtain ⟨a₁, ha₁, hb⟩ := bind_ok_iff.1 hb
    obtain ⟨a₁', ha₁', hb'⟩ := bind_ok_iff.1 hb'
    obtain rfl := place_relinked h hc ht ha₁ ha₁'
    exact ih hts hb hb'

end Placements

/-! ## The plans -/

/-- Two schedules with the same ranks, order, placements and costs. -/
structure Schedule.Agrees (s s' : Schedule Rat) : Prop where
  ranks : ∀ t, s'.ranks.get? t = s.ranks.get? t
  order : s'.order = s.order
  /-- Every event, lane and workload is the same. -/
  allocation : s'.allocation = s.allocation
  estimates : s'.costs.estimates = s.costs.estimates
  durations : s'.costs.durations = s.costs.durations
  infeasibleCost : s'.costs.infeasibleCost = s.costs.infeasibleCost

theorem schedule_relinked {w w' : Workflow Rat} {machines : List (Machine Rat)}
    {weights : Weights Rat} {c c' : CostTable Rat} {s s' : Schedule Rat} (h : w.Relinked w')
    (hc : c.Agrees c') (hs : scheduleFrom weights w machines c = .ok s)
    (hs' : scheduleFrom weights w' machines c' = .ok s') : s.Agrees s' := by
  obtain ⟨hp, rfl⟩ := scheduleFrom_ok hs
  obtain ⟨hp', rfl⟩ := scheduleFrom_ok hs'
  have horder : s'.order = s.order :=
    order_relinked h hc hp.ranks_ok hp'.ranks_ok hp.order_ok hp'.order_ok
  have hold : ∀ t ∈ s.order, w.Holds t := fun t => Workflow.holds_of_perm hp.order_perm
  have hallocation' := hp'.allocation_ok
  rw [horder] at hallocation'
  exact ⟨ranks_relinked h hc hp.ranks_ok hp'.ranks_ok, horder,
    placeAll_relinked h hc hold hp.allocation_ok hallocation', hc.estimates, hc.durations_eq,
    hc.infeasibleCost⟩

namespace Sample

/-- The tasks of the fork and its dependencies. -/
def forkOnce : List (Command Rat) := fork.tasks.map .task ++ [.dependency 0 1, .dependency 0 2]

/-- The dependencies of the fork in another order, with a repeated one and one that is refused. -/
def forkAgain : List (Command Rat) :=
  fork.tasks.map .task ++
    [.dependency 0 2, .dependency 2 2, .dependency 0 1, .dependency 0 2]

end Sample

namespace Planning

variable {w w' : Workflow Rat} {machines : List (Machine Rat)} {σ : Session Rat}

/-- Two plans that both fail on a malformed workflow or both succeed and agree. -/
def SameFate (x x' : Except (Obstacle Rat) (Schedule Rat)) : Prop :=
  (∃ f f' : Fault Rat, x = .error f ∧ x' = .error f' ∧
    f.kind = .malformedGraph ∧ f'.kind = .malformedGraph) ∨
    ∃ s s', x = .ok s ∧ x' = .ok s' ∧ s.Agrees s'

/-- Plans of relinked workflows. -/
theorem sameFate_relinked (h : w.Relinked w') (hne : machines ≠ [])
    (hestimates : ∀ r ∈ σ.estimator.replies (w.questions machines), ∃ x, r.result = .ok x)
    (weights : Weights Rat) :
    SameFate ((plan weights w machines).runIn σ).1 ((plan weights w' machines).runIn σ).1 := by
  have hestimates' := hestimates
  rw [← h.questions_eq] at hestimates'
  by_cases hmalformed : w.Malformed
  · obtain ⟨f, hf, hkind⟩ := exists_fault hne hestimates weights hmalformed
    obtain ⟨f', hf', hkind'⟩ := exists_fault hne hestimates' weights (h.malformed_iff.2 hmalformed)
    exact Or.inl ⟨f, f', hf, hf', hkind, hkind'⟩
  · obtain ⟨s, hs⟩ := exists_plan hne hestimates weights hmalformed
    obtain ⟨s', hs'⟩ := exists_plan hne hestimates' weights (mt h.malformed_iff.1 hmalformed)
    obtain ⟨xs, e, hxs⟩ := Estimator.exists_answers hestimates
    have hxs' := hxs
    rw [← h.questions_eq] at hxs'
    obtain ⟨rows, σ₁, hshape, hnumbers, hrun, -⟩ := plan_answers weights hne hxs
    obtain ⟨rows', σ₁', hshape', hnumbers', hrun', -⟩ := plan_answers weights hne hxs'
    rw [h.fitting_eq] at hshape'
    obtain rfl := estimates_ext (hshape.trans hshape'.symm) (hnumbers.trans hnumbers'.symm)
    rw [hrun] at hs
    rw [hrun'] at hs'
    obtain ⟨c, hc, hschedule⟩ := bind_ok_iff.1 (ended_eq_ok_iff.1 hs)
    obtain ⟨c', hc', hschedule'⟩ := bind_ok_iff.1 (ended_eq_ok_iff.1 hs')
    refine Or.inr ⟨s, s', by rw [hrun, hs], by rw [hrun', hs'], ?_⟩
    exact schedule_relinked h (ofEstimates_relinked h hc hc') hschedule hschedule'

/-- Adding the same tasks and declaring the same dependencies, in whatever order and however often,
makes plans that both fail on a malformed workflow or both succeed and agree. -/
theorem plan_declarations {commands commands' : List (Command Rat)}
    (htasks : tasksOf commands' = tasksOf commands)
    (hpairs : ∀ e, e ∈ Workflow.acceptedPairs {} commands' ↔
      e ∈ Workflow.acceptedPairs {} commands)
    (hne : machines ≠ [])
    (hestimates : ∀ r ∈ σ.estimator.replies ((Workflow.build commands).questions machines),
      ∃ x, r.result = .ok x)
    (weights : Weights Rat) :
    SameFate ((plan weights (Workflow.build commands) machines).runIn σ).1
      ((plan weights (Workflow.build commands') machines).runIn σ).1 :=
  sameFate_relinked (Workflow.relinked_build htasks hpairs) hne hestimates weights

/-- The fork, declared in two orders, which show in the edges but not in the plan. -/
theorem plan_declarations_fork :
    (Workflow.build Sample.forkOnce).edges = [(0, 1), (0, 2)] ∧
      (Workflow.build Sample.forkAgain).edges = [(0, 2), (0, 1)] ∧
      ∃ s s',
        ((plan Sample.evenly (Workflow.build Sample.forkOnce)
          [Sample.slow, Sample.fast]).runIn {}).1 = .ok s ∧
        ((plan Sample.evenly (Workflow.build Sample.forkAgain)
          [Sample.slow, Sample.fast]).runIn {}).1 = .ok s' ∧
        s.Agrees s' ∧ s'.order = [0, 2, 1] := by
  have honce : Workflow.acceptedPairs {} Sample.forkOnce = [(0, 1), (0, 2)] := by decide +kernel
  have hagain : Workflow.acceptedPairs {} Sample.forkAgain = [(0, 2), (0, 1), (0, 2)] := by
    decide +kernel
  have htasks : tasksOf Sample.forkAgain = tasksOf Sample.forkOnce := rfl
  have hpairs (e : Int × Int) : e ∈ Workflow.acceptedPairs {} Sample.forkAgain ↔
      e ∈ Workflow.acceptedPairs {} Sample.forkOnce := by
    rw [honce, hagain]
    simp only [List.mem_cons, List.not_mem_nil, or_false]
    tauto
  have hestimates : ∀ r ∈ ({} : Session Rat).estimator.replies
      ((Workflow.build Sample.forkOnce).questions [Sample.slow, Sample.fast]),
      ∃ x, r.result = .ok x := static_answers (by decide +kernel)
  obtain ⟨s, σ', hrun, horder⟩ := exists_runIn_of_map
    (show ((plan Sample.evenly (Workflow.build Sample.forkOnce)
      [Sample.slow, Sample.fast]).runIn {}).1.toOption.map Schedule.order = some [0, 2, 1] by
      decide +kernel)
  refine ⟨by decide +kernel, by decide +kernel, ?_⟩
  rcases plan_declarations htasks hpairs (by simp) hestimates Sample.evenly with
    ⟨f, -, hf, -⟩ | ⟨s₁, s', hs, hs', hagrees⟩
  · rw [hrun] at hf
    cases hf
  · rw [hrun] at hs
    cases hs
    exact ⟨s, s', by rw [hrun], hs', hagrees, by rw [hagrees.order, horder]⟩

end Planning

end EarliestFinish
