import EarliestFinish.Proofs.Estimates
import EarliestFinish.Proofs.Exact
import EarliestFinish.Proofs.Transfer

/-!
# The cost table of a plan

`CostTable.Describes` says how a cost table belongs to a workflow and some machines: it has a row
for every task and an estimate wherever a machine has the cores for the task. `costTable_ensures`
shows this of the table of a plan, and that a plan fails to get one only if the estimator fails or
a child link leads out of the workflow.

If the estimates are exact and not negative, then no duration is negative, and ten times the
slowest feasible run of all tasks, with all transfers, is below the infeasible cost.
-/

namespace EarliestFinish

variable {α : Type}

namespace CostTable

/-- What makes a cost table that of a workflow on some machines. -/
structure Describes [Quantity α] (P : α → Prop) (w : Workflow α) (machines : List (Machine α))
    (c : CostTable α) : Prop where
  rows : List.Forall₂ (fun task => List.Forall₂ (IsEstimate P task) machines) w.tasks c.estimates
  transfer : transferTable w c.averageBandwidth = .ok c.transfer
  infeasibleCost : c.infeasibleCost = infeasibleCostOf c.estimates c.transfer

namespace Describes

variable [Quantity α] {P : α → Prop} {w : Workflow α} {machines : List (Machine α)}
  {c : CostTable α} {t : Int} {task : Task α} {m : Nat} {machine : Machine α}

theorem covers (h : c.Describes P w machines) (ht : w.Holds t) : c.covers t = true := by
  obtain ⟨k, hk, rfl⟩ := Workflow.exists_natCast ht
  rw [CostTable.covers, ← h.rows.length_eq]
  unfold Workflow.size at hk
  rw [position?_natCast hk]
  rfl

theorem row (h : c.Describes P w machines) (ht : w.task? t = some task) :
    List.Forall₂ (IsEstimate P task) machines (c.rowOf t) := by
  unfold Workflow.task? Workflow.size at ht
  obtain ⟨k, hk, ht⟩ := Option.bind_eq_some_iff.1 ht
  obtain ⟨hlt, rfl⟩ := List.getElem?_eq_some_iff.1 ht
  have hlt' : k < c.estimates.length := h.rows.length_eq ▸ hlt
  have hrow : c.rowOf t = c.estimates[k] := by
    rw [rowOf, ← h.rows.length_eq, hk, Option.bind_some, List.getElem?_eq_getElem hlt']
    rfl
  rw [hrow]
  exact h.rows.get hlt hlt'

theorem cell (h : c.Describes P w machines) (ht : w.task? t = some task)
    (hm : machines[m]? = some machine) : IsEstimate P task machine (c.rowOf t)[m]?.join := by
  obtain ⟨hlt, rfl⟩ := List.getElem?_eq_some_iff.1 hm
  have hrow := h.row ht
  have hlt' : m < (c.rowOf t).length := hrow.length_eq ▸ hlt
  rw [List.getElem?_eq_getElem hlt', Option.join_some]
  exact hrow.get hlt hlt'

/-- A placement is feasible if the machine has the cores for the task. -/
theorem feasible_eq (h : c.Describes P w machines) (ht : w.task? t = some task)
    (hm : machines[m]? = some machine) : c.feasible t m = machine.fits task :=
  (h.cell ht hm).isSome_iff

/-- If every task fits on every machine, then every placement is feasible. -/
theorem feasible_of_fits (h : c.Describes P w machines)
    (hfits : ∀ task ∈ w.tasks, ∀ machine ∈ machines, machine.fits task = true) (ht : w.Holds t)
    (hm : m < machines.length) : c.feasible t m = true := by
  obtain ⟨task, hmem, htask⟩ := Workflow.exists_task ht
  rw [h.feasible_eq htask (List.getElem?_eq_getElem hm)]
  exact hfits task hmem _ (List.getElem_mem hm)

/-- If every task fits on every machine, then no row has a gap. -/
theorem isSome_of_fits (h : c.Describes P w machines)
    (hfits : ∀ task ∈ w.tasks, ∀ machine ∈ machines, machine.fits task = true) (ht : w.Holds t)
    {x : Option α} (hx : x ∈ c.rowOf t) : x.isSome = true := by
  obtain ⟨m, hm, rfl⟩ := List.mem_iff_getElem.1 hx
  obtain ⟨task, -, htask⟩ := Workflow.exists_task ht
  have hlt : m < machines.length := (h.row htask).length_eq ▸ hm
  have hfeasible := h.feasible_of_fits hfits ht hlt
  rwa [CostTable.feasible, List.getElem?_eq_getElem hm, Option.join_some] at hfeasible

theorem lt_of_feasible (h : c.Describes P w machines) (ht : w.task? t = some task)
    (hf : c.feasible t m = true) : m < machines.length := by
  rw [(h.row ht).length_eq]
  by_contra hm
  rw [feasible, List.getElem?_eq_none (not_lt.1 hm)] at hf
  cases hf

/-- A task fits somewhere unless no machine has the cores for it. -/
theorem fitsSomewhere_eq (h : c.Describes P w machines) (ht : w.task? t = some task) :
    c.fitsSomewhere t = !fitsNowhere machines task := by
  have : Option.isSome = fun x : Option α => !x.isNone := funext fun x => (Option.not_isNone x).symm
  rw [← all_isNone_of_isEstimate (h.row ht), List.not_all_eq_any_not, fitsSomewhere, this]

/-- The candidates, as the cost table has them. -/
theorem candidate_iff (h : c.Describes P w machines) (ht : w.Holds t) :
    w.Candidate machines t m ↔
      m < machines.length ∧ (c.fitsSomewhere t = true → c.feasible t m = true) := by
  obtain ⟨task, -, htask⟩ := Workflow.exists_task ht
  rw [h.fitsSomewhere_eq htask]
  constructor
  · rintro ⟨task', machine, ht', hm, hfits⟩
    obtain rfl := Option.some.inj (ht'.symm.trans htask)
    refine ⟨(List.getElem?_eq_some_iff.1 hm).1, fun hsome => ?_⟩
    rw [h.feasible_eq htask hm]
    exact hfits.resolve_right (by simpa using hsome)
  · rintro ⟨hm, hfits⟩
    refine ⟨task, machines[m], htask, List.getElem?_eq_getElem hm, ?_⟩
    rw [h.feasible_eq htask (List.getElem?_eq_getElem hm)] at hfits
    cases hnowhere : fitsNowhere machines task with
    | true => exact Or.inr rfl
    | false => exact Or.inl (hfits (by rw [hnowhere]; rfl))

theorem rowOf_eq_nil (h : c.Describes P w machines) (ht : w.task? t = none) :
    c.rowOf t = [] := by
  unfold Workflow.task? Workflow.size at ht
  unfold rowOf
  rw [← h.rows.length_eq]
  cases hk : position? w.tasks.length t with
  | none => rfl
  | some k =>
    rw [hk, Option.bind_some, List.getElem?_eq_none_iff, h.rows.length_eq] at ht
    rw [Option.bind_some, List.getElem?_eq_none ht]
    rfl

/-- Every estimate passes the test. -/
theorem estimate (h : c.Describes P w machines) {x : α} (hx : (c.rowOf t)[m]?.join = some x) :
    P x := by
  cases ht : w.task? t with
  | none =>
    rw [h.rowOf_eq_nil ht] at hx
    cases hx
  | some task =>
    have hm : c.feasible t m = true := by rw [feasible, hx]; rfl
    have hcell := h.cell ht (List.getElem?_eq_getElem (h.lt_of_feasible ht hm))
    rw [hx] at hcell
    cases hcell with
    | value _ hP => exact hP

theorem map_rowOf_positions (h : c.Describes P w machines) :
    w.positions.map c.rowOf = c.estimates := by
  have hlen := h.rows.length_eq
  refine List.ext_getElem (by simp [Workflow.positions, Workflow.size, hlen]) fun k hk hk' => ?_
  simp [Workflow.positions, rowOf, position?_natCast hk', List.getElem?_eq_getElem hk']

end Describes

/-! ## Exact costs that are not negative -/

variable {w : Workflow Rat} {machines : List (Machine Rat)} {c : CostTable Rat} {t : Int} {m : Nat}

theorem getD_le_slowest {row : List (Option Rat)} {x : Option Rat} (hx : x ∈ row) :
    x.getD 0 ≤ slowest row :=
  Quantity.le_highest (List.mem_map_of_mem hx)

theorem duration_of_not_feasible (hf : c.feasible t m = false) :
    c.duration t m = c.infeasibleCost := by
  rw [feasible, Option.isSome_eq_false_iff, Option.isNone_iff_eq_none] at hf
  rw [duration, hf]
  rfl

/-- A feasible placement takes no longer than the slowest one. -/
theorem duration_le_slowest (hf : c.feasible t m = true) :
    c.duration t m ≤ slowest (c.rowOf t) := by
  obtain ⟨x, hx⟩ := Option.isSome_iff_exists.1 hf
  have := getD_le_slowest (List.mem_of_getElem? (Option.join_eq_some_iff.1 hx))
  rwa [duration, hx]

namespace Describes

theorem infeasibleCost_eq {P : Rat → Prop} (h : c.Describes P w machines) :
    c.infeasibleCost =
      10 * ((w.positions.map fun t => slowest (c.rowOf t)).sum + c.transfer.values.sum + 1) := by
  have hrows : w.positions.map (fun t => slowest (c.rowOf t)) = c.estimates.map slowest := by
    rw [← h.map_rowOf_positions, List.map_map]
    rfl
  rw [h.infeasibleCost, hrows, infeasibleCostOf, Quantity.total_eq_sum, Quantity.running_eq_sum]
  norm_num
  ring

theorem transfer_nonneg {P : Rat → Prop} (h : c.Describes P w machines) :
    ∀ e ∈ c.transfer.entries, 0 ≤ e.2 :=
  transferTable_nonneg h.transfer

theorem transferCost_nonneg {P : Rat → Prop} (h : c.Describes P w machines) (parent child : Int) :
    0 ≤ c.transferCost parent child := by
  unfold transferCost
  cases hx : c.transfer.get? (parent, child) with
  | none => exact le_rfl
  | some x => exact h.transfer_nonneg _ (Table.mem_entries_of_get? hx)

variable (h : c.Describes (0 ≤ ·) w machines)
include h

theorem slowest_nonneg (t : Int) : 0 ≤ slowest (c.rowOf t) := by
  cases hrow : c.rowOf t with
  | nil => exact le_refl (0 : Rat)
  | cons x xs =>
    have hx : x.getD 0 ≤ slowest (x :: xs) := getD_le_slowest List.mem_cons_self
    refine le_trans ?_ hx
    cases x with
    | none => exact le_refl (0 : Rat)
    | some x => exact h.estimate (m := 0) (t := t) (by rw [hrow]; rfl)

theorem infeasibleCost_pos : 0 < c.infeasibleCost := by
  have hrows : 0 ≤ (w.positions.map fun t => slowest (c.rowOf t)).sum :=
    List.sum_nonneg (by simp [h.slowest_nonneg])
  have htransfer : 0 ≤ c.transfer.values.sum := by
    refine List.sum_nonneg fun x hx => ?_
    obtain ⟨e, he, rfl⟩ := List.mem_map.1 hx
    exact h.transfer_nonneg e he
  rw [h.infeasibleCost_eq]
  linarith

theorem duration_nonneg (t : Int) (m : Nat) : 0 ≤ c.duration t m := by
  unfold duration
  cases hx : (c.rowOf t)[m]?.join with
  | none => exact h.infeasibleCost_pos.le
  | some x => exact h.estimate hx

end Describes

end CostTable

namespace Planning

variable [Quantity α] {P : α → Prop} {E : Obstacle α → Prop} {s : Session α} {w : Workflow α}
  {machines : List (Machine α)}

/-- A child link leads out of the workflow, which is a fault of the graph. -/
def Dangles (w : Workflow α) (o : Obstacle α) : Prop :=
  w.Dangling w.childrenOf ∧ ∃ f : Fault α, o = f ∧ f.kind = .malformedGraph

theorem transferTimes_ensures (w : Workflow α) (bandwidth : α) (s : Session α) :
    (transferTimes w bandwidth).Ensures s (Dangles w)
      fun transfer s' => transferTable w bandwidth = .ok transfer ∧ s'.misfits = s.misfits := by
  have htable (s' : Session α) (hs : s'.misfits = s.misfits) :
      Ensures (liftM (transferTable w bandwidth)) s' (Dangles w)
        fun transfer s'' => transferTable w bandwidth = .ok transfer ∧ s''.misfits = s.misfits := by
    refine ensures_lift (fun _ h => ⟨h, hs⟩) fun f h => ?_
    obtain ⟨hkind, hdangling⟩ := transferTable_error h
    exact ⟨hdangling, f, rfl, hkind⟩
  unfold transferTimes
  split
  · refine ensures_bind (ensures_note (htable _ ?_))
    simp [Session.misfits, Entry.isMisfit]
  · exact ensures_bind (ensures_pure (htable s rfl))

/-- What comes of the cost table of a plan. -/
theorem costTable_ensures (hm : machines ≠ [])
    (h : s.estimator.AllReplies P E (w.questions machines)) :
    (costTable w machines).Ensures s
      (fun o => E o ∨ Dangles w o)
      fun c s' => c.Describes P w machines ∧ s'.misfits = s.misfits ++
        (w.tasks.filter (fitsNowhere machines)).map fun t => .fitsNowhere t.label t.cores := by
  unfold costTable
  refine ensures_bind ((estimateAll_ensures hm h).mono (fun _ hf => Or.inl hf) fun rows s₁ hr => ?_)
  obtain ⟨hrows, hmisfits⟩ := hr
  refine ensures_bind (ensures_lift (fun bandwidth _ => ?_) fun f hf => ?_)
  · refine ensures_bind ((transferTimes_ensures w bandwidth s₁).mono (fun _ hf => Or.inr hf)
      fun transfer s₂ ht => ?_)
    exact ensures_pure ⟨⟨hrows, ht.1, rfl⟩, ht.2.trans hmisfits⟩
  · rw [averageBandwidth, if_neg (by simpa using hm)] at hf
    cases hf

end Planning

end EarliestFinish
