import EarliestFinish.Proofs.History

/-!
# The greedy choice

In exact quantities, and with estimates that are not negative, every task of a plan is where the
greedy rule puts it, whatever was placed before: on the candidate of the least score, the first of
several, at the earliest time at which its parents have arrived and it fits into the lane.

Too small a machine is taken only where all are too small, and the journal warns of exactly these
tasks, once when their costs are asked for and once when they are placed: `plan_greedy`.
-/

namespace EarliestFinish

theorem fits_eq_of_candidate {w : Workflow Rat} {machines : List (Machine Rat)} {t : Int} {m : Nat}
    {task : Task Rat} {machine : Machine Rat} (h : w.Candidate machines t m)
    (ht : w.task? t = some task) (hm : machines[m]? = some machine) :
    machine.fits task = !fitsNowhere machines task := by
  obtain ⟨task', machine', ht', hm', hfits⟩ := h
  obtain rfl := Option.some.inj (ht'.symm.trans ht)
  obtain rfl := Option.some.inj (hm'.symm.trans hm)
  rcases hfits with hfits | hnowhere
  · rw [hfits, fitsNowhere_eq_false (List.mem_of_getElem? hm) hfits]
    rfl
  · have := List.all_eq_true.1 hnowhere machine' (List.mem_of_getElem? hm)
    rw [hnowhere]
    simpa using this

namespace Schedule.Planned

variable {weights : Weights Rat} {w : Workflow Rat} {machines : List (Machine Rat)}
  {s : Schedule Rat} {t : Int} {e : Event Rat}

/-- A task runs on a machine with the cores for it, unless it fits nowhere. -/
theorem fits_eq (h : s.Planned weights w machines) (hc : s.costs.Describes (0 ≤ ·) w machines)
    (hne : machines ≠ []) (ht : t ∈ s.order) (he : s.events.get? t = some e) :
    ∃ (m : Nat) (task : Task Rat) (machine : Machine Rat), e.machine = m ∧
      w.task? t = some task ∧ machines[m]? = some machine ∧
      machine.fits task = !fitsNowhere machines task := by
  obtain ⟨before, after, hsplit⟩ := List.append_of_mem ht
  obtain ⟨m, x, hcandidate, -, hevent, -⟩ := h.choice hc hne hsplit
  obtain rfl := Option.some.inj (he.symm.trans hevent)
  obtain ⟨task, machine, htask, hm, -⟩ := id hcandidate
  exact ⟨m, task, machine, rfl, htask, hm, fits_eq_of_candidate hcandidate htask hm⟩

theorem feasible_eq (h : s.Planned weights w machines)
    (hc : s.costs.Describes (0 ≤ ·) w machines) (hne : machines ≠ [])
    (he : e ∈ s.allocation.events) :
    s.costs.feasible e.task e.machine.toNat = !w.isMisfit machines e.task := by
  have ht : e.task ∈ s.order := by
    rw [← h.tasks_eq]
    exact List.mem_map_of_mem he
  obtain ⟨m, task, machine, hmachine, htask, hm, hfits⟩ :=
    h.fits_eq hc hne ht (h.get?_task he)
  rw [hmachine, Int.toNat_natCast, hc.feasible_eq htask hm, Workflow.isMisfit, htask, hfits]
  rfl

/-- The warnings of a schedule. -/
theorem misfits (h : s.Planned weights w machines) (hc : s.costs.Describes (0 ≤ ·) w machines)
    (hne : machines ≠ []) :
    s.entries.filter Entry.isMisfit =
      (s.allocation.events.filter fun e => w.isMisfit machines e.task).map fun e =>
        .placedTooSmall (w.labelOf e.task) (s.machineLabel e.machine) := by
  have hentries (ps : List (Placement Rat)) (hps : ∀ p ∈ ps,
      s.costs.feasible p.event.task p.event.machine.toNat =
        !w.isMisfit machines p.event.task) :
      (ps.flatMap s.placementEntries).filter Entry.isMisfit =
        ((ps.map Placement.event).filter fun e => w.isMisfit machines e.task).map fun e =>
          .placedTooSmall (w.labelOf e.task) (s.machineLabel e.machine) := by
    induction ps with
    | nil => rfl
    | cons p ps ih =>
      obtain ⟨hp, hrest⟩ := List.forall_mem_cons.1 hps
      rw [List.flatMap_cons, List.filter_append, ih hrest, List.map_cons, List.filter_cons,
        placementEntries, hp, h.workflow_eq]
      cases w.isMisfit machines p.event.task <;> rfl
  rw [entries, List.filter_append, hentries _ fun p hp => ?_]
  · exact List.append_nil _
  · exact h.feasible_eq hc hne (List.mem_map_of_mem hp)

end Schedule.Planned

namespace Planning

variable {weights : Weights Rat} {w : Workflow Rat} {machines : List (Machine Rat)}
  {σ σ' : Session Rat} {s : Schedule Rat}

/-- Every placement of a plan is the greedy one, and the journal warns of the tasks that fit on no
machine. -/
theorem plan_greedy (h : (plan weights w machines).runIn σ = (.ok s, σ'))
    (hestimates : ∀ r ∈ σ.estimator.replies (w.questions machines),
      ∀ x, r.result = .ok x → 0 ≤ x) :
    (∀ before t after, s.order = before ++ t :: after →
      ∃ m x, w.Candidate machines t m ∧ IsLeast {y | s.Open before t m y} x ∧
        s.events.get? t = some ⟨t, x, x + s.costs.duration t m, m⟩ ∧
        ∀ k, w.Candidate machines t k → ∃ y, IsLeast {z | s.Open before t k z} y ∧
          s.scoreOf weights before t m x ≤ s.scoreOf weights before t k y ∧
          (k < m → s.scoreOf weights before t m x < s.scoreOf weights before t k y)) ∧
      (∀ t, w.Holds t → ∃ (e : Event Rat) (m : Nat) (task : Task Rat) (machine : Machine Rat),
        s.events.get? t = some e ∧ e.machine = m ∧ w.task? t = some task ∧
        machines[m]? = some machine ∧
        (machine.fits task = false ↔ fitsNowhere machines task = true)) ∧
      σ'.misfits = σ.misfits ++
        (w.tasks.filter (fitsNowhere machines)).map (fun t => .fitsNowhere t.label t.cores) ++
        (s.allocation.events.filter fun e => w.isMisfit machines e.task).map fun e =>
          .placedTooSmall (w.labelOf e.task) (s.machineLabel e.machine) := by
  obtain ⟨hne, hplanned, hc, hmisfits⟩ := plan_exact h hestimates
  refine ⟨fun before t after hsplit => hplanned.choice hc hne hsplit, fun t ht => ?_, ?_⟩
  · have hmem : t ∈ s.order := Workflow.mem_of_perm hplanned.order_perm ht
    obtain ⟨before, after, hsplit⟩ := List.append_of_mem hmem
    obtain ⟨m, x, -, -, hevent, -⟩ := hplanned.choice hc hne hsplit
    obtain ⟨k, task, machine, hk, htask, hmachine, hfits⟩ :=
      hplanned.fits_eq hc hne hmem hevent
    refine ⟨_, k, task, machine, hevent, hk, htask, hmachine, ?_⟩
    rw [hfits]
    simp
  · rw [hmisfits, hplanned.misfits hc hne]

/-- The plan of the fork on the slow machine alone, which has too few cores for one of the tasks. -/
theorem plan_greedy_fork :
    ∃ s σ', (plan Sample.evenly Sample.fork [Sample.slow]).runIn {} = (.ok s, σ') ∧
      s.order = [0, 2, 1] ∧ IsLeast {y | s.Open [0] 2 0 y} 4 ∧ σ'.misfits.length = 2 := by
  obtain ⟨s, σ', hrun, hvalues⟩ := exists_runIn_of_map
    (show ((plan Sample.evenly Sample.fork [Sample.slow]).runIn {}).1.toOption.map
      (fun s => (s.order, s.events.get? 2,
        (s.allocation.events.filter fun e => Sample.fork.isMisfit [Sample.slow] e.task).length)) =
      some ([0, 2, 1], some ⟨2, 4, 154, 0⟩, 1) by decide +kernel)
  obtain ⟨horder, hevent, hlength⟩ : s.order = [0, 2, 1] ∧ s.events.get? 2 = some ⟨2, 4, 154, 0⟩ ∧
      (s.allocation.events.filter fun e =>
        Sample.fork.isMisfit [Sample.slow] e.task).length = 1 := by
    simpa only [Prod.mk.injEq] using hvalues
  obtain ⟨hchoice, -, hmisfits⟩ :=
    plan_greedy hrun (static_nonneg (by decide +kernel) (by decide +kernel))
  obtain ⟨m, x, -, hleast, hplaced, -⟩ := hchoice [0] 2 [1] horder
  have heq := Option.some.inj (hevent.symm.trans hplaced)
  obtain rfl : (4 : Rat) = x := congrArg Event.start heq
  obtain rfl : 0 = m := Int.ofNat.inj (congrArg Event.machine heq)
  refine ⟨s, σ', hrun, horder, hleast, ?_⟩
  rw [hmisfits, List.length_append, List.length_map, hlength]
  decide +kernel

end Planning

end EarliestFinish
