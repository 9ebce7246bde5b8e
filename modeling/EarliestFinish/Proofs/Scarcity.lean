import EarliestFinish.Proofs.Costs
import EarliestFinish.Proofs.Outcome
import EarliestFinish.Proofs.Placement
import EarliestFinish.Proofs.Ties

/-!
# Tasks that few machines can take come first

The infeasible cost enters the average cost of a task once for every machine that is too small for
it. It is ten times what all tasks at their slowest and all transfers take, and some more. So a task
for which a tenth of the machines are too small has a higher rank than any task that fits everywhere
with all its descendants: the critical path of the latter goes through no task and no edge twice,
and so it is shorter than a tenth of the infeasible cost.

* `CostTable.Describes.infeasibleCost_le` bounds the average cost of the one from below;
* `CostTable.Describes.pathLength_le` bounds every path from the other from above;
* `Planning.plan_scarce_first` is what follows for the ranks and for the order of every plan.
-/

namespace EarliestFinish

open Quantity Workflow

variable {α : Type}

/-- How many machines have too few cores for a task. -/
def tooSmallFor (machines : List (Machine α)) (task : Task α) : Nat :=
  machines.countP fun m => !m.fits task

/-- Some machine is too small for a task, and at least a tenth of all are. -/
def Workflow.Scarce (w : Workflow α) (machines : List (Machine α)) (t : Int) : Prop :=
  w.Holds t ∧ ∃ task, w.task? t = some task ∧
    0 < tooSmallFor machines task ∧ machines.length ≤ 10 * tooSmallFor machines task

/-- A task and all its descendants fit on every machine. -/
def Workflow.Roomy (w : Workflow α) (machines : List (Machine α)) (t : Int) : Prop :=
  w.Holds t ∧ ∀ u, Relation.ReflTransGen (w.Links w.childrenOf) t u →
    ∀ task, w.task? u = some task → ∀ machine ∈ machines, machine.fits task = true

/-! ## Sums -/

theorem sum_le_of_subset {β : Type} {f : β → Rat} {xs ys : List β} (hn : xs.Nodup) (hs : xs ⊆ ys)
    (hf : ∀ y ∈ ys, 0 ≤ f y) : (xs.map f).sum ≤ (ys.map f).sum := by
  obtain ⟨zs, hperm, hsub⟩ := List.subperm_of_subset hn hs
  rw [← (hperm.map f).sum_eq]
  exact (hsub.map f).sum_le_sum (List.forall_mem_map.2 hf)

/-- Each machine that is too small for a task adds what stands in for its estimate. -/
theorem tooSmallFor_mul_le_sum {machines : List (Machine Rat)} {task : Task Rat}
    {row : List (Option Rat)} {b : Rat}
    (h : List.Forall₂ (IsEstimate (0 ≤ ·) task) machines row) :
    tooSmallFor machines task * b ≤ (row.map fun x => x.getD b).sum := by
  unfold tooSmallFor
  induction h with
  | nil => simp
  | cons hx _ ih =>
    rw [List.map_cons, List.sum_cons, List.countP_cons]
    cases hx with
    | value hfits hx =>
      simp only [hfits, Bool.not_true, Bool.false_eq_true, if_false, add_zero, Option.getD_some]
      linarith
    | tooSmall hfits =>
      simp only [hfits, Bool.not_false, if_true, Option.getD_none]
      push_cast
      linarith

/-! ## Paths without repetitions -/

section Paths

variable {w : Workflow Rat} {c : CostTable Rat} {ranks : Table Int Rat} {t : Int}
  {path : List Int}

theorem Workflow.Descent.reaches (h : upwardRanks w c = .ok ranks) (ht : w.Holds t)
    (hpath : w.Descent t path) :
    ∀ u ∈ path, w.Holds u ∧ Relation.ReflTransGen (w.Links w.childrenOf) t u := by
  induction hpath with
  | sink => exact List.forall_mem_singleton.2 ⟨ht, .refl⟩
  | step hlink _ ih =>
    refine List.forall_mem_cons.2 ⟨⟨ht, .refl⟩, fun u hu => ?_⟩
    obtain ⟨hold, hreach⟩ := ih (holds_child h ht hlink) u hu
    exact ⟨hold, .head ⟨ht, hlink⟩ hreach⟩

/-- No task comes twice on a path, for that would close a cycle. -/
theorem Workflow.Descent.nodup (h : upwardRanks w c = .ok ranks) (ht : w.Holds t)
    (hpath : w.Descent t path) : path.Nodup := by
  induction hpath with
  | sink => exact List.nodup_singleton _
  | @step t child path hlink hpath ih =>
    have hchild := holds_child h ht hlink
    refine List.nodup_cons.2 ⟨fun hmem => ?_, ih hchild⟩
    obtain ⟨hperm, horder⟩ := upwardRanks_ok h
    have hback := (hpath.reaches h hchild t hmem).2
    exact horder.not_cycle (w := w) (Workflow.mem_of_perm hperm ht) (.head' ⟨ht, hlink⟩ hback)

/-- The neighbours on a path are edges. -/
theorem Workflow.Descent.mem_edges (h : upwardRanks w c = .ok ranks) (ht : w.Holds t)
    (hpath : w.Descent t path) : ∀ e ∈ path.zip path.tail, e ∈ w.edges := by
  induction hpath with
  | sink => simp
  | @step t child path hlink hpath ih =>
    have hrest := ih (holds_child h ht hlink)
    obtain ⟨rest, rfl⟩ := hpath.exists_cons
    exact List.forall_mem_cons.2 ⟨Workflow.mem_edges.2 ⟨ht, hlink⟩, hrest⟩

end Paths

/-! ## Bounds on ranks -/

namespace CostTable

variable {w : Workflow Rat} {machines : List (Machine Rat)} {c : CostTable Rat}
  {ranks : Table Int Rat} {t : Int} {task : Task Rat} {path : List Int} {x : Rat}

theorem sum_transferCost_keys (hn : c.transfer.keys.Nodup) :
    (c.transfer.keys.map fun e => c.transferCost e.1 e.2).sum = c.transfer.values.sum := by
  unfold Table.keys Table.values
  rw [List.map_map]
  refine congrArg List.sum (List.map_congr_left fun e he => ?_)
  rw [Function.comp_apply, transferCost, Table.get?_of_mem hn he, Option.getD_some]

/-- A path is at least as long as its first task takes on average. -/
theorem averageCost_le_pathLength (hc : c.Nonneg) (hpath : w.Descent t path) :
    c.averageCost t ≤ c.pathLength path := by
  cases hpath with
  | sink => rw [pathLength_singleton]
  | @step _ child rest _ hrest =>
    have hlength : 0 ≤ c.pathLength rest := by
      refine add_nonneg (List.sum_nonneg ?_) (List.sum_nonneg ?_)
      · exact List.forall_mem_map.2 fun u _ => hc.averageCost u
      · rw [← List.map_uncurry_zip_eq_zipWith]
        exact List.forall_mem_map.2 fun e _ => hc.transferCost e.1 e.2
    have htransfer := hc.transferCost t child
    rw [hrest.pathLength_cons]
    linarith

namespace Describes

/-- What holds of all estimates of a table can be added to what is known of them. -/
theorem of_estimates {P Q : Rat → Prop} (h : c.Describes P w machines)
    (hQ : ∀ row ∈ c.estimates, ∀ x, some x ∈ row → Q x) : c.Describes Q w machines where
  rows := by
    obtain ⟨hlength, hrows⟩ := List.forall₂_iff_zip.1 h.rows
    refine List.forall₂_iff_zip.2 ⟨hlength, fun {task row} hrow => ?_⟩
    obtain ⟨hlength, hcells⟩ := List.forall₂_iff_zip.1 (hrows hrow)
    refine List.forall₂_iff_zip.2 ⟨hlength, fun {machine x} hcell => ?_⟩
    cases hcells hcell with
    | value hfits =>
      exact .value hfits (hQ row (List.of_mem_zip hrow).2 _ (List.of_mem_zip hcell).2)
    | tooSmall hfits => exact .tooSmall hfits
  transfer := h.transfer
  infeasibleCost := h.infeasibleCost

variable (h : c.Describes (0 ≤ ·) w machines)
include h

theorem nonneg : c.Nonneg where
  durations row hrow x hx := by
    obtain ⟨estimates, hmem, rfl⟩ := List.mem_map.1 hrow
    obtain ⟨y, hy, rfl⟩ := List.mem_map.1 hx
    rw [← h.map_rowOf_positions] at hmem
    obtain ⟨t, -, rfl⟩ := List.mem_map.1 hmem
    cases y with
    | none => exact h.infeasibleCost_pos.le
    | some y =>
      obtain ⟨m, hm⟩ := List.mem_iff_getElem?.1 hy
      exact h.estimate (t := t) (m := m) (by rw [hm]; rfl)
  transfer x hx := by
    obtain ⟨e, he, rfl⟩ := List.mem_map.1 hx
    exact h.transfer_nonneg e he

/-- If a tenth of the machines are too small for a task, then it takes at least a tenth of the
infeasible cost on average. -/
theorem infeasibleCost_le (ht : w.Scarce machines t) :
    c.infeasibleCost ≤ 10 * c.averageCost t := by
  obtain ⟨-, task, htask, hsome, htenth⟩ := ht
  have hsum : tooSmallFor machines task * c.infeasibleCost ≤ (c.fill (c.rowOf t)).sum :=
    tooSmallFor_mul_le_sum (h.row htask)
  have hlength : (c.fill (c.rowOf t)).length = machines.length := by
    rw [CostTable.fill, List.length_map, (h.row htask).length_eq]
  have hpos : 0 < (machines.length : Rat) := by
    have : 0 < machines.length := hsome.trans_le List.countP_le_length
    exact_mod_cast this
  have htenth : (machines.length : Rat) ≤ 10 * tooSmallFor machines task := by exact_mod_cast htenth
  have hmul := mul_le_mul_of_nonneg_right htenth h.infeasibleCost_pos.le
  rw [averageCost, mean_eq, hlength, mul_div_assoc', le_div_iff₀ hpos]
  linarith

/-- A task that fits on every machine takes at most as long as at its slowest on average. -/
theorem averageCost_le_slowest (hne : machines ≠ []) (ht : w.task? t = some task)
    (hfits : ∀ machine ∈ machines, machine.fits task = true) :
    c.averageCost t ≤ slowest (c.rowOf t) := by
  have hrow := h.row ht
  have hcells := map_isSome_of_isEstimate hrow
  refine mean_le (fun hnil => hne ?_) fun x hx => ?_
  · have hempty : c.rowOf t = [] := List.map_eq_nil_iff.1 hnil
    rw [hempty] at hrow
    exact List.forall₂_nil_right_iff.1 hrow
  · obtain ⟨y, hy, rfl⟩ := List.mem_map.1 hx
    have hsome : y.isSome ∈ machines.map fun m => m.fits task := by
      rw [← hcells]
      exact List.mem_map_of_mem hy
    obtain ⟨machine, hmachine, hfit⟩ := List.mem_map.1 hsome
    obtain ⟨z, rfl⟩ := Option.isSome_iff_exists.1 (hfit.symm.trans (hfits machine hmachine))
    exact getD_le_slowest hy

/-- A path from a task that fits everywhere with its descendants is no longer than all tasks at
their slowest and all transfers together. -/
theorem pathLength_le (hne : machines ≠ []) (hranks : upwardRanks w c = .ok ranks)
    (ht : w.Roomy machines t) (hpath : w.Descent t path) :
    c.pathLength path ≤
      (w.positions.map fun t => slowest (c.rowOf t)).sum + c.transfer.values.sum := by
  obtain ⟨ht, hfits⟩ := ht
  have hreaches := hpath.reaches hranks ht
  have hnodup := hpath.nodup hranks ht
  refine add_le_add ?_ ?_
  · calc (path.map c.averageCost).sum
        ≤ (path.map fun u => slowest (c.rowOf u)).sum := by
          refine List.sum_le_sum fun u hu => ?_
          obtain ⟨hold, hreach⟩ := hreaches u hu
          obtain ⟨task, -, htask⟩ := Workflow.exists_task hold
          exact h.averageCost_le_slowest hne htask (hfits u hreach task htask)
      _ ≤ (w.positions.map fun u => slowest (c.rowOf u)).sum := by
          refine sum_le_of_subset hnodup (fun u hu => ?_) fun u _ => h.slowest_nonneg u
          exact Workflow.mem_positions.2 (hreaches u hu).1
  · have hkeys := transferTable_nodup h.transfer
    rw [← List.map_uncurry_zip_eq_zipWith, ← sum_transferCost_keys hkeys]
    refine sum_le_of_subset ?_ (fun e he => ?_) fun e _ => h.transferCost_nonneg e.1 e.2
    -- no two links of the path lead to the same task
    · refine List.Nodup.of_map Prod.snd ?_
      rw [List.map_snd_zip (by simp)]
      exact hnodup.sublist (List.tail_sublist path)
    · refine Table.mem_keys_iff.2 ⟨edgeTime w c.averageBandwidth e, ?_⟩
      rw [transferTable_get? h.transfer, if_pos (hpath.mem_edges hranks ht e he)]

/-- A task for which a tenth of the machines are too small has a higher rank than a task that fits
everywhere with its descendants. -/
theorem rank_lt (hne : machines ≠ []) (hranks : upwardRanks w c = .ok ranks) {u : Int}
    (ht : w.Scarce machines t) (hu : w.Roomy machines u) :
    ∃ x y, ranks.get? t = some x ∧ ranks.get? u = some y ∧ y < x := by
  obtain ⟨x, hx, ⟨path, hpath, rfl⟩, -⟩ := rank_isGreatest hranks ht.1
  obtain ⟨y, hy, ⟨path', hpath', rfl⟩, -⟩ := rank_isGreatest hranks hu.1
  refine ⟨_, _, hx, hy, ?_⟩
  have hlow := averageCost_le_pathLength h.nonneg hpath
  have hhigh := h.pathLength_le hne hranks hu hpath'
  have htenth := h.infeasibleCost_le ht
  rw [h.infeasibleCost_eq] at htenth
  linarith

end Describes

end CostTable

/-! ## The order of a plan -/

/-- Along an order in which the ranks do not rise, a task with a higher rank comes first. -/
theorem sublist_of_rank_lt {ranks : Table Int Rat} {order : List Int} {t u : Int} {x y : Rat}
    (h : order.Pairwise (RanksAtLeast ranks)) (ht : t ∈ order) (hu : u ∈ order)
    (hx : ranks.get? t = some x) (hy : ranks.get? u = some y) (hlt : y < x) :
    [t, u].Sublist order := by
  obtain ⟨before, after, rfl⟩ := List.append_of_mem ht
  have hlater : u ∈ after := by
    rcases List.mem_append.1 hu with hbefore | hbehind
    · obtain ⟨y', x', hy', hx', hle⟩ :=
        (List.pairwise_append.1 h).2.2 u hbefore t List.mem_cons_self
      obtain rfl := Option.some.inj (hy.symm.trans hy')
      obtain rfl := Option.some.inj (hx.symm.trans hx')
      exact absurd hlt (not_lt.2 hle)
    · refine (List.mem_cons.1 hbehind).resolve_left ?_
      rintro rfl
      obtain rfl := Option.some.inj (hx.symm.trans hy)
      exact absurd hlt (lt_irrefl x)
  exact ((List.singleton_sublist.2 hlater).cons_cons t).trans (List.sublist_append_right ..)

namespace Planning

variable {machines : List (Machine Rat)} {σ σ' : Session Rat} {c : CostTable Rat}

theorem machines_ne_nil {w : Workflow Rat} (h : (costTable w machines).runIn σ = (.ok c, σ')) :
    machines ≠ [] := by
  rintro rfl
  cases h

/-- A cost table from which there are ranks and an order is that of a schedule. -/
theorem plan_of_costTable {w : Workflow Rat} {ranks : Table Int Rat} {order : List Int}
    (h : (costTable w machines).runIn σ = (.ok c, σ')) (hranks : upwardRanks w c = .ok ranks)
    (horder : priorityOrder w ranks = .ok order) (weights : Weights Rat) :
    ∃ s σ'', (plan weights w machines).runIn σ = (.ok s, σ'') ∧ s.costs = c ∧ s.ranks = ranks ∧
      s.order = order := by
  obtain ⟨hperm, hlinks⟩ := priorityOrder_sound horder
  have hold : ∀ t ∈ order, w.Holds t := fun t =>
    Workflow.holds_of_perm (hperm.trans (upwardRanks_ok hranks).1)
  obtain ⟨allocation, hallocation⟩ : ∃ allocation,
      Allocation.placeAll w c weights (.empty machines.length) order = .ok allocation :=
    Allocation.exists_placeAll hlinks hold
  have hschedule : scheduleFrom weights w machines c =
      .ok ⟨w, machines, c, ranks, order, allocation⟩ :=
    bind_ok_iff.2 ⟨ranks, hranks, bind_ok_iff.2 ⟨order, horder, bind_ok_iff.2
      ⟨allocation, hallocation, rfl⟩⟩⟩
  obtain ⟨σ'', hrun, -⟩ := runIn_bind_quiet (y := .ok c) h (quiet_planFrom weights)
  rw [← plan_eq weights w (machines_ne_nil h)] at hrun
  change _ = (ended (scheduleFrom weights w machines c), σ'') at hrun
  rw [hschedule] at hrun
  exact ⟨_, σ'', hrun, rfl, rfl, rfl⟩

/-- In a workflow that is built by commands and has no cycle, a task for which at least a tenth of
the machines are too small has a higher rank than every task that fits everywhere with all its
descendants, and every plan has it earlier in its order. -/
theorem plan_scarce_first (commands : List (Command Rat))
    (hacyclic : ¬ (build commands).Circular (build commands).childrenOf)
    (h : (costTable (build commands) machines).runIn σ = (.ok c, σ'))
    (hestimates : ∀ row ∈ c.estimates, ∀ x, some x ∈ row → 0 ≤ x) :
    ∃ ranks order, upwardRanks (build commands) c = .ok ranks ∧
      priorityOrder (build commands) ranks = .ok order ∧
      (∀ weights, ∃ s σ'', (plan weights (build commands) machines).runIn σ = (.ok s, σ'') ∧
        s.costs = c ∧ s.ranks = ranks ∧ s.order = order) ∧
      ∀ t u, (build commands).Scarce machines t → (build commands).Roomy machines u →
        (∃ x y, ranks.get? t = some x ∧ ranks.get? u = some y ∧ y < x) ∧
          [t, u].Sublist order := by
  have hne := machines_ne_nil h
  have hmirrored := mirrored_build commands
  have hc : c.Describes (0 ≤ ·) (build commands) machines :=
    ((costTable_ensures (P := fun _ => True) (E := fun _ => True) hne
      fun _ _ => ⟨fun _ _ => trivial, fun _ _ => trivial⟩).ok h).1.of_estimates hestimates
  obtain ⟨ranks, order, hranks, horder⟩ :=
    exists_ranks_order (fun _ => hc.covers) (hmirrored.not_malformed hacyclic)
  have hdescending := priorityOrder_descending hmirrored hc.nonneg hranks horder
  have hmem {t : Int} (ht : (build commands).Holds t) : t ∈ order :=
    Workflow.mem_of_perm ((priorityOrder_sound horder).1.trans (upwardRanks_ok hranks).1) ht
  refine ⟨ranks, order, hranks, horder, plan_of_costTable h hranks horder, fun t u ht hu => ?_⟩
  obtain ⟨x, y, hx, hy, hlt⟩ := hc.rank_lt hne hranks ht hu
  exact ⟨⟨x, y, hx, hy, hlt⟩, sublist_of_rank_lt hdescending (hmem ht.1) (hmem hu.1) hx hy hlt⟩

end Planning

namespace Sample

/-- A chain of two tasks, and a third one that takes no time and needs two cores. -/
def chores : List (Command Rat) :=
  [.task { label := .text "clean", length := 6 }, .task { label := .text "report", length := 1 },
    .task { label := .text "train", length := 0, cores := 2 }, .dependency 0 1]

/-- Ten machines, one of which has a single core. -/
def fleet : List (Machine Rat) := List.replicate 9 fast ++ [slow]

/-- How long the fleet takes for the three tasks. -/
def choreEstimates : Estimates Rat :=
  [List.replicate 9 (some 3) ++ [some 6], List.replicate 9 (some (1 / 2)) ++ [some 1],
    List.replicate 9 (some 0) ++ [none]]

end Sample

namespace Planning

/-- One machine in ten is enough to put the task that takes no time in front of the others. -/
theorem plan_scarce_first_chores :
    ∃ s σ', (plan Sample.evenly (build Sample.chores) Sample.fleet).runIn {} = (.ok s, σ') ∧
      [2, 0].Sublist s.order ∧
      ∃ x y, s.ranks.get? 2 = some x ∧ s.ranks.get? 0 = some y ∧ y < x := by
  obtain ⟨c, σ', hcosts, hestimates⟩ := exists_runIn_of_map (g := CostTable.estimates)
    (x := costTable (build Sample.chores) Sample.fleet) (s := {}) (c := Sample.choreEstimates)
    (by decide +kernel)
  have hnonneg : ∀ row ∈ Sample.choreEstimates, ∀ x ∈ row, 0 ≤ x.getD 0 := by decide +kernel
  have hchain : LinkOrdered (build Sample.chores).childrenOf [1, 0] :=
    ((LinkOrdered.nil _).concat (by decide)).concat (by decide)
  have hacyclic : ¬ (build Sample.chores).Circular (build Sample.chores).childrenOf :=
    (hchain.concat (t := 2) (by decide)).not_circular (by decide)
  have hscarce : (build Sample.chores).Scarce Sample.fleet 2 :=
    ⟨by decide, _, rfl, by decide, by decide⟩
  have hfits : ∀ u ∈ [1, 0], ((build Sample.chores).task? u).all fun task =>
      Sample.fleet.all fun machine => machine.fits task := by decide
  have hroomy : (build Sample.chores).Roomy Sample.fleet 0 := by
    refine ⟨by decide, fun u hu task htask machine hmachine => ?_⟩
    have := hfits u (hchain.mem_of_reaches (by decide) hu)
    rw [htask, Option.all_some, List.all_eq_true] at this
    exact this machine hmachine
  obtain ⟨ranks, order, -, -, hplans, hfirst⟩ := plan_scarce_first Sample.chores hacyclic hcosts
    (fun row hrow x hx => hnonneg row (hestimates ▸ hrow) (some x) hx)
  obtain ⟨s, σ'', hrun, -, rfl, rfl⟩ := hplans Sample.evenly
  obtain ⟨hrank, horder⟩ := hfirst 2 0 hscarce hroomy
  exact ⟨s, σ'', hrun, horder, hrank⟩

end Planning

end EarliestFinish
