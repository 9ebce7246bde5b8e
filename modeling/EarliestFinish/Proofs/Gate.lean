import EarliestFinish.Priority
import EarliestFinish.Proofs.Fallible
import EarliestFinish.Proofs.LinkOrder

/-!
# The gate

A task is out only behind all its parents, and every task that is held waits for a parent that is
not out. So if tasks are held when all have come in, they wait for one another, and their parent
links form a cycle.

* `Gate.Sound` is this invariant, and `passGate_ok` what it is at the end of a run;
* `priorityOrder_sound` and `priorityOrder_refused`: the order has every listed task behind its
  parents, unless parent links lead from a listed task out of the workflow, to a task that is not
  listed or into a cycle (`Workflow.Withholds`);
* `priorityOrder_ok` and `priorityOrder_error` say this for a list of all tasks.

Nothing is assumed of the numbers.
-/

namespace EarliestFinish

variable {α : Type} {w : Workflow α} {seen ts : List Int} {g g' : Gate} {t : Int}

namespace Gate

variable {parents : Int → List Int}

/-- What holds of a gate that has let in some tasks. -/
structure Sound (parents : Int → List Int) (seen : List Int) (g : Gate) : Prop where
  tasks : (g.out ++ g.held).Perm seen
  order : LinkOrdered parents g.out
  blocked : ∀ t ∈ g.held, ∃ p ∈ parents t, p ∉ g.out

theorem sound_empty (parents : Int → List Int) : Sound parents [] {} where
  tasks := .refl _
  order := .nil _
  blocked := by simp

theorem clears_iff {out : List Int} : clears parents out t = true ↔ ∀ p ∈ parents t, p ∈ out := by
  simp [clears]

theorem sound_release (htasks : (g.out ++ g.held).Perm seen) (horder : LinkOrdered parents g.out) :
    Sound parents seen (g.release parents) := by
  fun_induction release parents g with
  | case1 g t hfind ih =>
    have ht := List.mem_of_find?_eq_some hfind
    apply ih
    · refine .trans ?_ htasks
      rw [List.append_assoc]
      exact (List.perm_cons_erase ht).symm.append_left _
    · exact horder.concat (clears_iff.1 (List.find?_some hfind))
  | case2 g hfind =>
    refine ⟨htasks, horder, fun t ht => ?_⟩
    have := List.find?_eq_none.1 hfind t ht
    rw [clears_iff] at this
    simpa using this

theorem sound_receive (h : Sound parents seen g) (t : Int) :
    Sound parents (seen ++ [t]) (g.receive parents t) := by
  refine sound_release ?_ h.order
  rw [← List.append_assoc]
  exact h.tasks.append_right _

end Gate

namespace Workflow

/-- The parent links of some tasks do not let all of them out: they leave the workflow, or they lead
from one of the tasks to a task that is not among them or into a cycle. -/
def Withholds (w : Workflow α) (ts : List Int) : Prop :=
  (∃ t ∈ ts, ∃ p ∈ w.parentsOf t, ¬ w.Holds p) ∨
    ∃ t ∈ ts, ∃ u, Relation.ReflTransGen (w.Links w.parentsOf) t u ∧
      (u ∉ ts ∨ Relation.TransGen (w.Links w.parentsOf) u u)

/-- Tasks that can be put behind their parents are not withheld. -/
theorem not_withholds (h : LinkOrdered w.parentsOf ts) (hold : ∀ t ∈ ts, w.Holds t) :
    ¬ w.Withholds ts := by
  rintro (⟨t, ht, p, hp, hout⟩ | ⟨t, ht, u, hu, hnot | hcycle⟩)
  · exact hout (hold p (h.mem ht hp))
  · exact hnot (h.mem_of_reaches ht hu)
  · exact h.not_cycle (h.mem_of_reaches ht hu) hcycle

theorem withholds_congr (h : ∀ t, t ∈ ts ↔ t ∈ seen) : w.Withholds ts ↔ w.Withholds seen := by
  simp only [Withholds, h]

/-- If all tasks are listed, they are withheld by links out of the workflow and by cycles only. -/
theorem Withholds.of_all (h : w.Withholds ts) (hp : ts.Perm w.positions) :
    w.Dangling w.parentsOf ∨ w.Circular w.parentsOf := by
  rcases h with ⟨t, ht, p, hparent, hout⟩ | ⟨t, ht, u, hu, hnot | hcycle⟩
  · exact Or.inl ⟨t, p, ⟨holds_of_perm hp ht, hparent⟩, hout⟩
  · rcases Relation.ReflTransGen.cases_tail hu with rfl | ⟨v, -, hlink⟩
    · exact absurd ht hnot
    · exact Or.inl ⟨v, u, hlink, fun hold => hnot (mem_of_perm hp hold)⟩
  · exact Or.inr ⟨u, hcycle⟩

end Workflow

theorem checkParents_error {f : Fault α} (ht : w.Holds t) (h : checkParents w t = .error f) :
    f.kind = .malformedGraph ∧ ∃ p ∈ w.parentsOf t, ¬ w.Holds p := by
  obtain ⟨task, -, htask⟩ := Workflow.exists_task ht
  obtain ⟨task', htask', h⟩ :=
    (bind_error_iff.1 h).resolve_left (by simp [Workflow.task_of_task? htask])
  obtain rfl := Except.ok.inj ((Workflow.task_of_task? htask).symm.trans htask')
  split at h
  · next p hp =>
    cases h
    have hmem : p ∈ w.parentsOf t := by
      simp only [Workflow.parentsOf, htask]
      exact List.mem_of_find?_eq_some hp
    have hout := List.find?_some hp
    rw [decide_eq_true_eq] at hout
    exact ⟨rfl, p, hmem, hout⟩
  · cases h

theorem passGate_ok (h : g.Sound w.parentsOf seen) (hr : passGate w g ts = .ok g') :
    g'.Sound w.parentsOf (seen ++ ts) := by
  induction ts generalizing g seen with
  | nil =>
    cases hr
    simpa using h
  | cons t ts ih =>
    obtain ⟨_, -, hr⟩ := bind_ok_iff.1 hr
    simpa using ih (Gate.sound_receive h t) hr

theorem passGate_error {f : Fault α} (hts : ∀ t ∈ ts, w.Holds t)
    (hr : passGate w g ts = .error f) :
    f.kind = .malformedGraph ∧ ∃ t ∈ ts, ∃ p ∈ w.parentsOf t, ¬ w.Holds p := by
  induction ts generalizing g with
  | nil => cases hr
  | cons t ts ih =>
    obtain ⟨ht, hts⟩ := List.forall_mem_cons.1 hts
    rcases bind_error_iff.1 hr with hc | ⟨_, -, hr⟩
    · obtain ⟨hkind, hout⟩ := checkParents_error ht hc
      exact ⟨hkind, t, List.mem_cons_self, hout⟩
    · obtain ⟨hkind, u, hu, hout⟩ := ih hts hr
      exact ⟨hkind, u, List.mem_cons_of_mem _ hu, hout⟩

/-- A run through a gate in which no parent link is refused. -/
theorem passGate_eq (h : passGate w g ts = .ok g') :
    g' = ts.foldl (Gate.receive w.parentsOf) g := by
  induction ts generalizing g with
  | nil => exact (Except.ok.inj h).symm
  | cons t ts ih =>
    obtain ⟨_, -, h⟩ := bind_ok_iff.1 h
    exact ih h

variable [Quantity α] {ranks : Table Int α}

/-- The order is what comes out of the gate. -/
theorem priorityOrder_eq {order : List Int} (h : priorityOrder w ranks = .ok order) :
    order = ((rankOrder ranks).foldl (Gate.receive w.parentsOf) {}).out := by
  obtain ⟨g, hg, h⟩ := bind_ok_iff.1 h
  split at h
  · cases h
    rw [passGate_eq hg]
  · cases h

theorem rankOrder_perm (ranks : Table Int α) : (rankOrder ranks).Perm ranks.keys :=
  ((sortByDescending_perm _ _).trans (sortBy_perm _ _)).map _

/-- The order has every listed task once, behind all its parents. -/
theorem priorityOrder_sound {order : List Int} (h : priorityOrder w ranks = .ok order) :
    order.Perm ranks.keys ∧ LinkOrdered w.parentsOf order := by
  obtain ⟨g, hg, h⟩ := bind_ok_iff.1 h
  have hs := passGate_ok (Gate.sound_empty _) hg
  split at h
  · next hempty =>
    cases h
    have := hs.tasks
    rw [List.isEmpty_iff.1 hempty, List.append_nil, List.nil_append] at this
    exact ⟨this.trans (rankOrder_perm ranks), hs.order⟩
  · cases h

/-- An order is refused only to tasks that their parent links withhold. -/
theorem priorityOrder_refused (hold : ∀ t ∈ ranks.keys, w.Holds t) {f : Fault α}
    (h : priorityOrder w ranks = .error f) :
    f.kind = .malformedGraph ∧ w.Withholds ranks.keys := by
  have hperm := rankOrder_perm ranks
  have hold' : ∀ t ∈ rankOrder ranks, w.Holds t := fun t ht => hold t (hperm.mem_iff.1 ht)
  rcases bind_error_iff.1 h with hg | ⟨g, hg, h⟩
  · obtain ⟨hkind, t, ht, hout⟩ := passGate_error hold' hg
    exact ⟨hkind, Or.inl ⟨t, hperm.mem_iff.1 ht, hout⟩⟩
  have hs := passGate_ok (Gate.sound_empty _) hg
  have htasks : (g.out ++ g.held).Perm ranks.keys := hs.tasks.trans hperm
  split at h
  · cases h
  · next hheld =>
    cases h
    refine ⟨rfl, Or.inr ?_⟩
    by_contra hfree
    push Not at hfree
    have hne : g.held ≠ [] := by simpa using hheld
    -- a parent that is not out is listed, so it is held as well
    have hblocked : ∀ t ∈ g.held, w.Holds t ∧ ∃ p ∈ w.parentsOf t, p ∈ g.held := by
      intro t ht
      have hkey : t ∈ ranks.keys := htasks.mem_iff.1 (List.mem_append_right _ ht)
      obtain ⟨p, hp, hout⟩ := hs.blocked t ht
      have hlisted : p ∈ ranks.keys := (hfree t hkey p (.single ⟨hold t hkey, hp⟩)).1
      exact ⟨hold t hkey, p, hp,
        (List.mem_append.1 (htasks.mem_iff.2 hlisted)).resolve_left hout⟩
    obtain ⟨t, ht, hcycle⟩ := Workflow.exists_cycle_of_blocked hne hblocked
    exact (hfree t (htasks.mem_iff.1 (List.mem_append_right _ ht)) t .refl).2 hcycle

theorem exists_priorityOrder (hold : ∀ t ∈ ranks.keys, w.Holds t)
    (h : ¬ w.Withholds ranks.keys) : ∃ order, priorityOrder w ranks = .ok order := by
  cases horder : priorityOrder w ranks with
  | ok order => exact ⟨order, rfl⟩
  | error f => exact absurd (priorityOrder_refused hold horder).2 h

/-- The order of all tasks has every task once, behind all its parents. -/
theorem priorityOrder_ok (hk : ranks.keys.Perm w.positions) {order : List Int}
    (h : priorityOrder w ranks = .ok order) :
    order.Perm w.positions ∧ LinkOrdered w.parentsOf order := by
  obtain ⟨hperm, horder⟩ := priorityOrder_sound h
  exact ⟨hperm.trans hk, horder⟩

/-- An order of all tasks is refused only to a workflow whose parent links leave it or form a
cycle. -/
theorem priorityOrder_error (hk : ranks.keys.Perm w.positions) {f : Fault α}
    (h : priorityOrder w ranks = .error f) :
    f.kind = .malformedGraph ∧ (w.Dangling w.parentsOf ∨ w.Circular w.parentsOf) := by
  obtain ⟨hkind, hwithheld⟩ :=
    priorityOrder_refused (fun t ht => Workflow.holds_of_perm hk ht) h
  exact ⟨hkind, hwithheld.of_all hk⟩

end EarliestFinish
