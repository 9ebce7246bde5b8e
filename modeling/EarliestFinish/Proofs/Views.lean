import EarliestFinish.Metrics
import EarliestFinish.Proofs.Aligned
import EarliestFinish.Proofs.Comparison

/-!
# The views of a schedule agree

A schedule can be read by task, by machine, in the order in which the tasks were placed and by
labels, and it tells its makespan from the tasks and from the machines. `Schedule.ViewsAgree` says
that all of these show the same events, one for each task: `Planning.plan_viewsAgree`.

Nothing is assumed of the numbers, so costs, ranks and scores may be infinite or NaN. Only the two
makespans need events that end at comparable times.
-/

namespace EarliestFinish

variable {α : Type} [Quantity α]

/-- If no key comes twice, an element is the only one with its key. -/
theorem filter_key_eq {β γ : Type} [DecidableEq γ] {key : β → γ} {x : β} {xs : List β}
    (h : (xs.map key).Nodup) (hx : x ∈ xs) : (xs.filter fun y => key y = key x) = [x] := by
  induction xs with
  | nil => cases hx
  | cons y ys ih =>
    rw [List.map_cons, List.nodup_cons] at h
    have hout (z : β) (hz : z ∈ ys) : key z ≠ key y := fun he => h.1 (he ▸ List.mem_map_of_mem hz)
    rcases List.mem_cons.1 hx with rfl | hx
    · rw [List.filter_cons_of_pos (by simp), List.filter_eq_nil_iff.2 (by simpa using hout)]
    · rw [List.filter_cons_of_neg (by simpa using (hout x hx).symm), ih h.2 hx]

namespace Schedule

/-- An assignment of a task, by the labels of the task and of the machine of its event. -/
def Assigns (s : Schedule α) (t : Int) (a : Assignment α) : Prop :=
  ∃ task e, ∃ m : Nat, ∃ machine, s.workflow.task? t = some task ∧ s.events.get? t = some e ∧
    e.machine = m ∧ s.machines[m]? = some machine ∧
    a = ⟨task.label, machine.label, e.start, e.finish⟩

/-- What the views of a schedule show is the same. -/
structure ViewsAgree (s : Schedule α) : Prop where
  /-- Every task has one place in the order. -/
  order : s.order.Perm s.workflow.positions
  /-- No task comes before one of its parents. -/
  parents : LinkOrdered s.workflow.parentsOf s.order
  tasks : s.events.keys.Perm s.workflow.positions
  machines : s.roster.keys = (List.range s.machines.length).map Int.ofNat
  /-- The machines together have the events of the tasks and no others. -/
  events : s.roster.events.Perm s.events.values
  /-- Every task has one event, in the lane of its machine and in no other. -/
  once : ∀ t, s.workflow.Holds t → ∃ e, ∃ m < s.machines.length, ∃ lane,
    s.events.get? t = some e ∧ e.task = t ∧ e.machine = m ∧ s.roster.get? m = some lane ∧
      (lane.filter fun f => f.task = t) = [e] ∧ (s.roster.events.filter fun f => f.task = t) = [e]
  /-- The assignments stand in the order of the workflow. -/
  assignments : ∃ as, s.assignments? = some as ∧ List.Forall₂ s.Assigns s.workflow.positions as
  /-- The makespan is the one that the machines show. -/
  makespan : ∀ [Quantity.Ordered α], (∀ e ∈ s.events.values, e.finish ≤ e.finish) →
    s.makespan ≤ s.roster.idle.makespan ∧ s.roster.idle.makespan ≤ s.makespan

namespace Planned

open Allocation

variable {weights : Weights α} {w : Workflow α} {machines : List (Machine α)} {s : Schedule α}
  {t : Int}

theorem once (h : s.Planned weights w machines) (hne : machines ≠ []) (ht : w.Holds t) :
    ∃ e, ∃ m < machines.length, ∃ lane,
      s.events.get? t = some e ∧ e.task = t ∧ e.machine = m ∧ s.roster.get? m = some lane ∧
      (lane.filter fun f => f.task = t) = [e] ∧
      (s.roster.events.filter fun f => f.task = t) = [e] := by
  have haligned := h.aligned hne
  obtain ⟨e, he, rfl⟩ := h.exists_event (Workflow.mem_of_perm h.order_perm ht)
  obtain ⟨m, hm, hmachine⟩ := haligned.onMachine e he
  have hnodup : (s.allocation.events.map Event.task).Nodup := by
    rw [← Allocation.tasks, h.tasks_eq]
    exact h.order_nodup
  have honly : (s.allocation.events.filter fun f => f.task = e.task) = [e] :=
    filter_key_eq hnodup he
  refine ⟨e, m, hm, _, h.get?_task he, rfl, hmachine, haligned.get?_roster hm, ?_, ?_⟩
  · -- the lane has the events of its machine, and of these one is of the task
    refine List.perm_singleton.1 (((haligned.lanes m hm).filter _).trans (.of_eq ?_))
    rw [List.filter_comm, honly]
    simpa using hmachine
  · exact List.perm_singleton.1 ((haligned.roster_perm.filter _).trans (.of_eq honly))

theorem exists_assignment (h : s.Planned weights w machines) (hne : machines ≠ [])
    (ht : w.Holds t) : ∃ a, s.assignment? t = some a ∧ s.Assigns t a := by
  obtain ⟨e, m, hm, -, he, -, hmachine, -⟩ := h.once hne ht
  obtain ⟨task, -, htask⟩ := Workflow.exists_task ht
  rw [← h.workflow_eq] at htask
  rw [← h.machines_eq] at hm
  have hmember := List.getElem?_eq_getElem hm
  refine ⟨_, ?_, task, e, m, _, htask, he, hmachine, hmember, rfl⟩
  simp [assignment?, htask, he, hmachine, position?_natCast hm, hmember]

theorem viewsAgree (h : s.Planned weights w machines) (hne : machines ≠ []) : s.ViewsAgree := by
  have haligned := h.aligned hne
  have hevents : s.roster.events.Perm s.events.values := by
    rw [values_events]
    exact haligned.roster_perm
  have hfinishes := hevents.map Event.finish
  have hw : s.workflow = w := h.workflow_eq
  have hmachines : s.machines = machines := h.machines_eq
  constructor
  case order => exact hw ▸ h.order_perm
  case parents => exact hw ▸ h.order_links
  case tasks =>
    rw [h.keys_events, hw]
    exact h.order_perm
  case machines =>
    rw [hmachines]
    exact haligned.keys_roster
  case events => exact hevents
  case once =>
    rw [hw, hmachines]
    exact fun t => h.once hne
  case assignments =>
    refine exists_mapM_some fun t ht => h.exists_assignment hne ?_
    rw [hw] at ht
    exact Workflow.mem_positions.1 ht
  case makespan =>
    intro _ hcomparable
    have hall : ∀ x ∈ s.events.values.map Event.finish, x ≤ x := by simpa using hcomparable
    refine ⟨Quantity.largestOr_le_of_perm hfinishes.symm hall, ?_⟩
    exact Quantity.largestOr_le_of_perm hfinishes fun x hx => hall x (hfinishes.mem_iff.1 hx)

end Planned

end Schedule

namespace Sample

/-- Finish time and workload count the same. -/
def balanced : Weights Float :=
  ⟨0.5, 0.5, by decide +kernel, by decide +kernel, by decide +kernel, by decide +kernel,
    by decide +kernel⟩

/-- A task that never ends and feeds two others. -/
def flood : Workflow Float where
  tasks := [
    { label := .text "clean", length := 6, parents := [1] },
    { label := .text "load", length := 1.0 / 0.0, children := [0, 2] },
    { label := .text "train", length := 8, parents := [1] }]

def twins : List (Machine Float) := [⟨.text "left", 1, 1, 1⟩, ⟨.text "right", 1, 1, 1⟩]

end Sample

namespace Planning

variable {weights : Weights α} {w : Workflow α} {machines : List (Machine α)}
  {σ σ' : Session α} {s : Schedule α}

/-- The views of every schedule that comes out of a plan agree. -/
theorem plan_viewsAgree (h : (plan weights w machines).runIn σ = (.ok s, σ')) :
    s.workflow = w ∧ s.machines = machines ∧ s.ViewsAgree := by
  obtain ⟨hne, hplanned, -⟩ := plan_ok h
  exact ⟨hplanned.workflow_eq, hplanned.machines_eq, hplanned.viewsAgree hne⟩

/-- The plan of the flood, in which no score is below the top. -/
theorem plan_viewsAgree_flood :
    ∃ s σ', (plan Sample.balanced Sample.flood Sample.twins).runIn {} = (.ok s, σ') ∧
      s.order = [1, 2, 0] ∧ s.events.values.map Event.finish = List.replicate 3 (1.0 / 0.0) ∧
      s.ViewsAgree ∧ s.makespan ≤ s.roster.idle.makespan ∧
      s.roster.idle.makespan ≤ s.makespan := by
  obtain ⟨s, σ', hrun, hvalues⟩ := exists_runIn_of_map
    (show ((plan Sample.balanced Sample.flood Sample.twins).runIn {}).1.toOption.map
      (fun s => (s.order, s.events.values.map Event.finish)) =
        some ([1, 2, 0], List.replicate 3 (1.0 / 0.0)) by decide +kernel)
  obtain ⟨horder, hfinishes⟩ := Prod.mk.inj hvalues
  obtain ⟨-, -, hagree⟩ := plan_viewsAgree hrun
  have hcomparable : ∀ x ∈ s.events.values.map Event.finish, x ≤ x := by
    rw [hfinishes]
    decide +kernel
  exact ⟨s, σ', hrun, horder, hfinishes, hagree,
    hagree.makespan fun e he => hcomparable _ (List.mem_map_of_mem he)⟩

end Planning

end EarliestFinish
