import EarliestFinish.Proofs.Failure
import EarliestFinish.Proofs.Validity

/-!
# Which dependencies a plan honours

A dependency can be recorded on either side, among the children of one task or among the parents
of the other. The ranks and the transfer times come from the child links, but the order and the
ready times come from the parent links. So a plan honours the dependencies that the child knows of
and reports every cycle of them, as it reports every cycle of child links: `Planning.plan_honours`.

A child link that its child does not know of is not honoured, and a cycle that needs it is planned
like any other workflow: `Planning.not_honours_crossed`.
-/

namespace EarliestFinish

/-- One task depends on another, on whichever side it is recorded. -/
def Workflow.Depends {α : Type} (w : Workflow α) (parent child : Int) : Prop :=
  (parent, child) ∈ w.edges ∨ w.Links w.parentsOf child parent

/-- A dependency that is recorded with the child, and maybe with the parent as well. -/
def Workflow.Known {α : Type} (w : Workflow α) (parent child : Int) : Prop :=
  w.Depends parent child ∧ parent ∈ w.parentsOf child

/-- A task does not start before another one has finished. -/
def Schedule.Honours (s : Schedule Rat) (parent child : Int) : Prop :=
  ∃ e f, s.events.get? parent = some e ∧ s.events.get? child = some f ∧ e.finish ≤ f.start

namespace Workflow

variable {α : Type} {w : Workflow α} {parent child t : Int}

/-- If no child link dangles, then a dependency that the child knows of is a parent link. -/
theorem Known.links (h : w.Known parent child) (hwell : ¬ w.Dangling w.childrenOf) :
    w.Links w.parentsOf child parent := by
  obtain ⟨hedge | hlink, hparent⟩ := h
  · refine ⟨?_, hparent⟩
    by_contra hout
    exact hwell ⟨parent, child, mem_edges.1 hedge, hout⟩
  · exact hlink

/-- A workflow with a cycle of dependencies that the children know of is malformed. -/
theorem malformed_of_known (h : Relation.TransGen w.Known t t) : w.Malformed := by
  by_cases hdangling : w.Dangling w.childrenOf
  · exact Or.inl hdangling
  -- against the dependencies, the cycle is one of parent links
  · refine Or.inr (Or.inr (Or.inr ⟨t, ?_⟩))
    have hparents : Relation.TransGen (Function.swap (w.Links w.parentsOf)) t t :=
      Relation.TransGen.mono (fun _ _ hknown => hknown.links hdangling) _ _ h
    exact hparents.swap

end Workflow

namespace Sample

/-- Two tasks that are each other's parents; one of the links is recorded on both sides. -/
def loop : Workflow Rat where
  tasks := [
    { label := .number 0, length := 1, parents := [1], children := [1] },
    { label := .number 1, length := 1, parents := [0] }]

/-- A task that has another one for its parent and for its child. The other knows of neither. -/
def crossed : Workflow Rat where
  tasks := [
    { label := .number 0, length := 1, parents := [1], children := [1] },
    { label := .number 1, length := 1 }]

end Sample

namespace Planning

variable {weights : Weights Rat} {w : Workflow Rat} {machines : List (Machine Rat)}
  {σ : Session Rat}

/-- A schedule honours the dependencies that the children know of, and there is none if they form
a cycle. -/
theorem plan_honours (hne : machines ≠ []) :
    (∀ s σ', (plan weights w machines).runIn σ = (.ok s, σ') →
      (∀ r ∈ σ.estimator.replies (w.questions machines), ∀ x, r.result = .ok x → 0 ≤ x) →
      ∀ parent child, w.Known parent child → s.Honours parent child) ∧
    ((∃ t, Relation.TransGen w.Known t t) ∨ w.Circular w.childrenOf →
      (∀ s, ((plan weights w machines).runIn σ).1 ≠ .ok s) ∧
      ((∀ r ∈ σ.estimator.replies (w.questions machines), ∃ x, r.result = .ok x) →
        ∃ f : Fault Rat, ((plan weights w machines).runIn σ).1 = .error f ∧
          f.kind = .malformedGraph)) := by
  refine ⟨fun s σ' h hestimates parent child hknown => ?_, fun hcycle => ?_⟩
  · obtain ⟨-, hplanned, hc, -⟩ := plan_exact h hestimates
    have hwell := not_malformed hplanned.ranks_ok hplanned.order_ok
    obtain ⟨hchild, hparent⟩ := hknown.links (mt Or.inl hwell)
    obtain ⟨f, hf, rfl⟩ := hplanned.exists_event (Workflow.mem_of_perm hplanned.order_perm hchild)
    have hget := hplanned.get?_task hf
    rw [← hplanned.workflow_eq] at hparent
    obtain ⟨e, he, hhere, helsewhere⟩ := (hplanned.valid hc hne).arrived _ f hget _ hparent
    refine ⟨e, f, he, hget, ?_⟩
    by_cases hsame : e.machine = f.machine
    · exact hhere hsame
    · have harrival := helsewhere hsame
      have hpaid := hc.transferCost_nonneg parent f.task
      linarith
  · have hmalformed : w.Malformed :=
      hcycle.elim (fun ⟨_, h⟩ => Workflow.malformed_of_known h) fun h => Or.inr (Or.inr (Or.inl h))
    have hfails (s : Schedule Rat) : ((plan weights w machines).runIn σ).1 ≠ .ok s :=
      fun h => (wellFormed_of_plan h).1 hmalformed
    exact ⟨hfails, fun hestimates => exists_fault hne hestimates weights hmalformed⟩

/-- In the fork both children start behind their parent; a loop of two tasks, one link of which is
recorded with the child alone, is not planned. -/
theorem plan_honours_samples :
    (∃ s σ', (plan Sample.evenly Sample.fork [Sample.slow, Sample.fast]).runIn {} = (.ok s, σ') ∧
      s.Honours 0 1 ∧ s.Honours 0 2) ∧
    ∃ f : Fault Rat, ((plan Sample.evenly Sample.loop [Sample.slow]).runIn {}).1 = .error f ∧
      f.kind = .malformedGraph := by
  constructor
  · obtain ⟨s, σ', hrun, -⟩ := exists_runIn_of_map Sample.makespan_fork
    have hhonours := (plan_honours (List.cons_ne_nil _ _)).1 s σ' hrun
      (static_nonneg (by decide +kernel) (by decide +kernel))
    refine ⟨s, σ', hrun, hhonours 0 1 ?_, hhonours 0 2 ?_⟩
    · exact ⟨Or.inl (by decide), by decide⟩
    · exact ⟨Or.inl (by decide), by decide⟩
  · have hcycle : Relation.TransGen Sample.loop.Known 0 0 :=
      .head (b := 1) ⟨Or.inl (by decide), by decide⟩
        (.single ⟨Or.inr ⟨by decide, by decide⟩, by decide⟩)
    have hspeed : ∀ machine ∈ [Sample.slow], Quantity.isZero machine.speed = false := by
      decide +kernel
    exact ((plan_honours (List.cons_ne_nil _ _)).2 (Or.inl ⟨0, hcycle⟩)).2 (static_answers hspeed)

/-- The crossed links form a cycle, but the plan places both tasks, and it starts the child before
its parent has finished. -/
theorem not_honours_crossed :
    ∃ s σ', (plan Sample.evenly Sample.crossed [Sample.slow]).runIn {} = (.ok s, σ') ∧
      Relation.TransGen Sample.crossed.Depends 0 0 ∧ (0, 1) ∈ Sample.crossed.edges ∧
      s.order = [1, 0] ∧ ¬ s.Honours 0 1 := by
  obtain ⟨s, σ', hrun, hvalues⟩ := exists_runIn_of_map
    (show ((plan Sample.evenly Sample.crossed [Sample.slow]).runIn {}).1.toOption.map
      (fun s => (s.order, s.events.get? 0, s.events.get? 1)) =
        some ([1, 0], some ⟨0, 1, 2, 0⟩, some ⟨1, 0, 1, 0⟩) by decide +kernel)
  simp only [Prod.mk.injEq] at hvalues
  obtain ⟨horder, hparent, hchild⟩ := hvalues
  have hcycle : Relation.TransGen Sample.crossed.Depends 0 0 :=
    .head (b := 1) (Or.inl (by decide)) (.single (Or.inr ⟨by decide, by decide⟩))
  refine ⟨s, σ', hrun, hcycle, by decide, horder, ?_⟩
  rintro ⟨e, f, he, hf, hle⟩
  obtain rfl := Option.some.inj (he.symm.trans hparent)
  obtain rfl := Option.some.inj (hf.symm.trans hchild)
  revert hle
  decide +kernel

end Planning

end EarliestFinish
