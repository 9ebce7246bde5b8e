import EarliestFinish.Schedule
import EarliestFinish.Proofs.Costs
import EarliestFinish.Proofs.Gate
import EarliestFinish.Proofs.Walk

/-!
# The run of a plan

`Schedule.Planned` says how a schedule comes from its cost table: the table gives the ranks, the
ranks the order, and the order the allocation. `plan_ok` and `plan_error` take the run of a plan
apart: a schedule is planned from the cost table of the run and its entries are noted; an obstacle
comes from the cost table, or it is a fault in the ranks, the order or the allocation.
-/

namespace EarliestFinish

variable {α : Type} [Quantity α] {weights : Weights α} {w : Workflow α}
  {machines : List (Machine α)}

/-- How a schedule comes from its cost table. -/
structure Schedule.Planned (weights : Weights α) (w : Workflow α) (machines : List (Machine α))
    (s : Schedule α) : Prop where
  workflow_eq : s.workflow = w
  machines_eq : s.machines = machines
  ranks_ok : upwardRanks w s.costs = .ok s.ranks
  order_ok : priorityOrder w s.ranks = .ok s.order
  allocation_ok :
    Allocation.placeAll w s.costs weights (.empty machines.length) s.order = .ok s.allocation

namespace Schedule.Planned

variable {s : Schedule α}

theorem ranks_perm (h : s.Planned weights w machines) : s.ranks.keys.Perm w.positions :=
  (upwardRanks_ok h.ranks_ok).1

/-- Every task has its place in the order. -/
theorem order_perm (h : s.Planned weights w machines) : s.order.Perm w.positions :=
  (priorityOrder_ok h.ranks_perm h.order_ok).1

/-- In the order, every task comes behind its parents. -/
theorem order_links (h : s.Planned weights w machines) : LinkOrdered w.parentsOf s.order :=
  (priorityOrder_ok h.ranks_perm h.order_ok).2

end Schedule.Planned

namespace Planning

variable {s : Schedule α} {o : Obstacle α} {σ σ' : Session α}

omit [Quantity α] in
theorem runIn_forM_note (entries : List (Entry α)) (σ : Session α) :
    (entries.forM note).runIn σ = (.ok (), { σ with journal := σ.journal ++ entries }) := by
  induction entries generalizing σ with
  | nil =>
    have : σ.journal ++ ([] : List (Entry α)) = σ.journal := by simp
    rw [this]
    rfl
  | cons e es ih =>
    have hnote : (note e).runIn σ = (.ok (), { σ with journal := σ.journal.push e }) := rfl
    change (note e >>= fun _ => es.forM note).runIn σ = _
    rw [runIn_bind, hnote]
    dsimp only
    rw [ih]
    simp

/-- A schedule is planned from the cost table of the run, and its entries are noted. -/
theorem plan_ok (h : (plan weights w machines).runIn σ = (.ok s, σ')) :
    machines ≠ [] ∧ s.Planned weights w machines ∧
      ∃ σ₁, (costTable w machines).runIn σ = (.ok s.costs, σ₁) ∧
        σ' = { σ₁ with journal := σ₁.journal ++ s.entries } := by
  unfold plan at h
  split at h
  · cases h
  next hm =>
  rw [List.isEmpty_iff] at hm
  obtain ⟨c, σ₁, hc, h⟩ := runIn_bind_ok h
  obtain ⟨ranks, hranks, h⟩ := runIn_lift_bind_ok h
  obtain ⟨order, horder, h⟩ := runIn_lift_bind_ok h
  obtain ⟨allocation, hallocation, h⟩ := runIn_lift_bind_ok h
  obtain ⟨_, σ₂, hnote, h⟩ := runIn_bind_ok h
  rw [runIn_forM_note] at hnote
  cases hnote
  cases h
  exact ⟨hm, ⟨rfl, rfl, hranks, horder, hallocation⟩, σ₁, hc, rfl⟩

/-- The cost table of a schedule, and the warnings that are noted in a run. -/
theorem plan_costs {P : α → Prop} {E : Obstacle α → Prop}
    (h : (plan weights w machines).runIn σ = (.ok s, σ'))
    (hq : σ.estimator.AllReplies P E (w.questions machines)) :
    s.costs.Describes P w machines ∧
      σ'.misfits = σ.misfits ++
        (w.tasks.filter (fitsNowhere machines)).map (fun t => .fitsNowhere t.label t.cores) ++
        s.entries.filter Entry.isMisfit := by
  obtain ⟨hm, -, σ₁, hc, rfl⟩ := plan_ok h
  obtain ⟨hdescribes, hmisfits⟩ := (costTable_ensures hm hq).ok hc
  refine ⟨hdescribes, ?_⟩
  rw [← hmisfits]
  simp [Session.misfits]

/-- A plan in exact quantities whose estimates are not negative. -/
theorem plan_exact {weights : Weights Rat} {w : Workflow Rat} {machines : List (Machine Rat)}
    {σ σ' : Session Rat} {s : Schedule Rat}
    (h : (plan weights w machines).runIn σ = (.ok s, σ'))
    (hestimates : ∀ r ∈ σ.estimator.replies (w.questions machines),
      ∀ x, r.result = .ok x → 0 ≤ x) :
    machines ≠ [] ∧ s.Planned weights w machines ∧ s.costs.Describes (0 ≤ ·) w machines ∧
      σ'.misfits = σ.misfits ++
        (w.tasks.filter (fitsNowhere machines)).map (fun t => .fitsNowhere t.label t.cores) ++
        s.entries.filter Entry.isMisfit := by
  obtain ⟨hne, hplanned, -⟩ := plan_ok h
  exact ⟨hne, hplanned, plan_costs (E := fun _ => True) h
    fun r hr => ⟨hestimates r hr, fun _ _ => trivial⟩⟩

/-- An obstacle comes from the cost table of the run, or it is a fault in what follows from the cost
table. -/
theorem plan_error (hm : machines ≠ []) (h : (plan weights w machines).runIn σ = (.error o, σ')) :
    (costTable w machines).runIn σ = (.error o, σ') ∨
      ∃ (c : CostTable α) (f : Fault α), o = f ∧ (costTable w machines).runIn σ = (.ok c, σ') ∧
        (upwardRanks w c = .error f ∨ ∃ ranks, upwardRanks w c = .ok ranks ∧
          (priorityOrder w ranks = .error f ∨ ∃ order, priorityOrder w ranks = .ok order ∧
            Allocation.placeAll w c weights (.empty machines.length) order = .error f)) := by
  unfold plan at h
  rw [if_neg (by simpa using hm)] at h
  rcases runIn_bind_error h with h | ⟨c, σ₁, hc, h⟩
  · exact Or.inl h
  refine Or.inr ⟨c, ?_⟩
  rcases runIn_lift_bind_error h with ⟨f, hranks, ho, rfl⟩ | ⟨ranks, hranks, h⟩
  · exact ⟨f, ho, hc, Or.inl hranks⟩
  rcases runIn_lift_bind_error h with ⟨f, horder, ho, rfl⟩ | ⟨order, horder, h⟩
  · exact ⟨f, ho, hc, Or.inr ⟨ranks, hranks, Or.inl horder⟩⟩
  rcases runIn_lift_bind_error h with ⟨f, hallocation, ho, rfl⟩ | ⟨allocation, hallocation, h⟩
  · exact ⟨f, ho, hc, Or.inr ⟨ranks, hranks, Or.inr ⟨order, horder, hallocation⟩⟩⟩
  -- noting the entries cannot fail
  rcases runIn_bind_error h with h | ⟨_, _, -, h⟩
  · rw [runIn_forM_note] at h
    cases h
  · cases h

end Planning

/-! ## Small plans -/

namespace Sample

/-- Finish time and workload count the same. -/
def evenly : Weights Rat :=
  ⟨1 / 2, 1 / 2, rfl, by decide +kernel, rfl, by decide +kernel, by decide +kernel⟩

/-- The finish time alone counts. -/
def earliest : Weights Rat :=
  ⟨1, 0, rfl, by decide +kernel, rfl, by decide +kernel, by decide +kernel⟩

/-- The workload alone counts. -/
def level : Weights Rat :=
  ⟨0, 1, rfl, by decide +kernel, rfl, by decide +kernel, by decide +kernel⟩

/-- A task that feeds two others, one of which needs two cores. -/
def fork : Workflow Rat where
  tasks := [
    { label := .text "load", length := 4, children := [1, 2]
      files := [⟨"data", 6, .output⟩] },
    { label := .text "clean", length := 6, parents := [0]
      files := [⟨"data", 6, .input⟩] },
    { label := .text "train", length := 8, cores := 2, parents := [0]
      files := [⟨"data", 6, .input⟩] }]

/-- Two tasks that are each other's parents. -/
def knot : Workflow Rat where
  tasks := [
    { label := .number 0, length := 1, parents := [1] },
    { label := .number 1, length := 1, parents := [0] }]

def slow : Machine Rat := ⟨.text "slow", 1, 1, 3⟩

def fast : Machine Rat := ⟨.text "fast", 2, 2, 3⟩

/-- As many cores as the fast machine at half its speed. -/
def wide : Machine Rat := ⟨.text "wide", 1, 2, 3⟩

theorem makespan_fork :
    ((Planning.plan evenly fork [slow, fast]).runIn {}).1.toOption.map Schedule.makespan =
      some 10 := by
  decide +kernel

end Sample

end EarliestFinish
