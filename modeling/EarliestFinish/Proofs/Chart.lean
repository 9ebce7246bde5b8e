import EarliestFinish.Gantt
import EarliestFinish.Proofs.MakespanBound

/-!
# Charts show the plan

A chart is drawn lane by lane from the roster of a schedule, and looks up the labels of the tasks by
position. What is drawn of a task is its `Gantt.Mark`. In exact quantities every task of a plan has
one mark, which shows when and on which machine it runs, and the marks of a lane lie side by side
between zero and the makespan. So the labels cannot crowd a lane: each stands on a bar that is
longer than a fiftieth of the makespan, and fewer than fifty of these find room
(`Mark.length_lt_fifty`).

`Planning.plan_drawn` states all this of every schedule that comes out of a plan.
-/

namespace EarliestFinish

theorem Workflow.labelOf_of_task? {α : Type} {w : Workflow α} {i : Int} {task : Task α}
    (h : w.task? i = some task) : w.labelOf i = task.label := by
  rw [labelOf, h]

namespace Bar

/-- Where a bar ends. -/
def right (b : Bar Rat) : Rat := b.left + b.width

/-- Bars that lie side by side between two times have no more room than there is between them. -/
theorem sum_width_le {lo hi : Rat} {bars : List (Bar Rat)} (hle : lo ≤ hi)
    (hin : ∀ b ∈ bars, lo ≤ b.left ∧ b.right ≤ hi)
    (hapart : bars.Pairwise fun b c => b.right ≤ c.left) :
    (bars.map Bar.width).sum ≤ hi - lo := by
  induction bars generalizing lo with
  | nil => exact sub_nonneg.2 hle
  | cons b bars ih =>
    obtain ⟨⟨hleft, hright⟩, hrest⟩ := List.forall_mem_cons.1 hin
    obtain ⟨hbehind, hapart⟩ := List.pairwise_cons.1 hapart
    have := ih hright (fun c hc => ⟨hbehind c hc, (hrest c hc).2⟩) hapart
    rw [List.map_cons, List.sum_cons]
    unfold right at this
    linarith

end Bar

namespace Gantt

/-- What is drawn of a task. -/
structure Mark where
  task : Int
  bar : Bar Rat
  label? : Option (BarLabel Rat)

/-- A mark shows when and on which machine a task runs, and names the task if there is room. -/
structure Mark.Shows (s : Schedule Rat) (k : Mark) : Prop where
  lane_lt : k.bar.lane < s.machines.length
  runs : ∃ e, s.events.get? k.task = some e ∧ e.machine = k.bar.lane ∧ e.start = k.bar.left ∧
    e.finish = k.bar.right
  inTime : 0 ≤ k.bar.left ∧ k.bar.left ≤ k.bar.right ∧ k.bar.right ≤ s.makespan
  labelled_iff : k.label?.isSome ↔ s.makespan / 50 < k.bar.width
  label : ∀ l ∈ k.label?, l.lane = k.bar.lane ∧ k.bar.left < l.x ∧ l.x < k.bar.right ∧
    ∃ task, s.workflow.task? k.task = some task ∧ l.text = task.label.plain

/-- A chart shows a schedule as it is. -/
structure Faithful (g : Gantt Rat) (s : Schedule Rat) : Prop where
  /-- There is a lane for every machine, with its label. -/
  lanes : g.lanes = List.range s.machines.length
  laneNames : g.laneNames = s.machines.map fun m => m.label.plain
  /-- Every task has one mark. -/
  marks : ∃ marks : List Mark, (marks.map Mark.task).Perm s.workflow.positions ∧
    g.bars = marks.map Mark.bar ∧ g.labels = marks.filterMap Mark.label? ∧
    ∀ k ∈ marks, k.Shows s
  /-- In a lane, one bar is over before the next one starts. -/
  apart : g.bars.Pairwise fun b c => b.lane = c.lane → b.right ≤ c.left
  few : ∀ m, (g.labels.filter fun l => l.lane = m).length < 50
  blank : s.makespan = 0 → g.labels = []

/-! ## Room for labels -/

namespace Mark

variable {s : Schedule Rat} {marks : List Mark}

/-- There is no room in a lane for fifty bars with labels. -/
theorem length_lt_fifty (hshows : ∀ k ∈ marks, k.Shows s)
    (hlabelled : ∀ k ∈ marks, k.label?.isSome)
    (hapart : (marks.map Mark.bar).Pairwise fun b c => b.right ≤ c.left) : marks.length < 50 := by
  by_cases hne : marks = []
  · subst hne
    exact Nat.zero_lt_succ _
  obtain ⟨k, hk⟩ := List.exists_mem_of_ne_nil marks hne
  have hmakespan : 0 ≤ s.makespan := by
    obtain ⟨h1, h2, h3⟩ := (hshows k hk).inTime
    exact h1.trans (h2.trans h3)
  have hroom : ((marks.map Mark.bar).map Bar.width).sum ≤ s.makespan - 0 := by
    refine Bar.sum_width_le hmakespan (List.forall_mem_map.2 fun k hk => ?_) hapart
    exact ⟨(hshows k hk).inTime.1, (hshows k hk).inTime.2.2⟩
  have hwide : (marks.map fun _ => s.makespan / 50).sum <
      (marks.map fun k => k.bar.width).sum :=
    List.sum_lt_sum_of_ne_nil hne _ _ fun k hk => (hshows k hk).labelled_iff.1 (hlabelled k hk)
  rw [List.map_const', List.sum_replicate, nsmul_eq_mul] at hwide
  rw [List.map_map, sub_zero] at hroom
  have hlt : (marks.length : Rat) * (s.makespan / 50) < s.makespan := hwide.trans_le hroom
  by_contra hmany
  have hfifty : (50 : Rat) ≤ marks.length := by exact_mod_cast not_lt.1 hmany
  have := mul_le_mul_of_nonneg_right hfifty (div_nonneg hmakespan (by norm_num : (0 : Rat) ≤ 50))
  linarith

/-- The labels of a lane are those of its marks. -/
theorem length_labels (hshows : ∀ k ∈ marks, k.Shows s) (m : Nat) :
    ((marks.filterMap Mark.label?).filter fun l => l.lane = m).length =
      (marks.filter fun k => k.bar.lane = m ∧ k.label?.isSome).length := by
  rw [List.filter_filterMap, List.length_filterMap_eq_countP, ← List.countP_eq_length_filter]
  refine List.countP_congr fun k hk => ?_
  cases hlabel : k.label? with
  | none => simp
  | some l =>
    have := ((hshows k hk).label l hlabel).1
    simp [this]

theorem few (hshows : ∀ k ∈ marks, k.Shows s)
    (hapart : (marks.map Mark.bar).Pairwise fun b c => b.lane = c.lane → b.right ≤ c.left)
    (m : Nat) : ((marks.filterMap Mark.label?).filter fun l => l.lane = m).length < 50 := by
  rw [length_labels hshows]
  have hmem {k : Mark} (hk : k ∈ marks.filter fun k => k.bar.lane = m ∧ k.label?.isSome) :
      k ∈ marks ∧ k.bar.lane = m ∧ k.label?.isSome := by simpa using hk
  refine length_lt_fifty (fun k hk => hshows k (hmem hk).1) (fun k hk => (hmem hk).2.2) ?_
  rw [List.pairwise_map] at hapart ⊢
  refine (hapart.sublist List.filter_sublist).imp_of_mem fun {k l} hk hl h => h ?_
  rw [(hmem hk).2.1, (hmem hl).2.1]

/-- When all is over at once, nothing is labelled. -/
theorem blank (hshows : ∀ k ∈ marks, k.Shows s) (hzero : s.makespan = 0) :
    marks.filterMap Mark.label? = [] := by
  refine List.filterMap_eq_nil_iff.2 fun k hk => ?_
  obtain ⟨hleft, -, hright⟩ := (hshows k hk).inTime
  have hwidth : ¬ s.makespan / 50 < k.bar.width := by
    rw [hzero, Bar.right] at *
    linarith
  rw [← (hshows k hk).labelled_iff] at hwidth
  simpa using hwidth

end Mark

/-! ## The marks of a schedule -/

variable {s : Schedule Rat} {e : Event Rat} {m : Nat}

/-- What is drawn of an event in a lane. -/
def markOf (s : Schedule Rat) (m : Nat) (e : Event Rat) : Mark :=
  ⟨e.task, barOf m e, labelOf? s m e⟩

/-- What is drawn of a schedule, lane by lane. -/
def marksOf (s : Schedule Rat) : List Mark :=
  (List.range s.machines.length).flatMap fun m => (s.laneOf m).map (markOf s m)

theorem bars_ofSchedule (s : Schedule Rat) (title : Option String) :
    (ofSchedule s title).bars = (marksOf s).map Mark.bar := by
  simp only [ofSchedule, ofRoster, marksOf, List.map_flatMap, List.map_map]
  rfl

theorem labels_ofSchedule (s : Schedule Rat) (title : Option String) :
    (ofSchedule s title).labels = (marksOf s).filterMap Mark.label? := by
  simp only [ofSchedule, ofRoster, marksOf, List.filterMap_flatMap, List.filterMap_map]
  rfl

theorem mem_marksOf {k : Mark} :
    k ∈ marksOf s ↔ ∃ m < s.machines.length, ∃ e ∈ s.laneOf m, markOf s m e = k := by
  simp [marksOf]

theorem right_barOf (m : Nat) (e : Event Rat) : (barOf m e).right = e.finish :=
  add_sub_cancel e.start e.finish

theorem horizon_of_ne {makespan : Rat} (h : makespan ≠ 0) : horizon makespan = makespan := by
  have hzero : ¬ (makespan ≤ 0 ∧ 0 ≤ makespan) := fun hle => h (le_antisymm hle.1 hle.2)
  rw [horizon, if_neg]
  simpa [Quantity.isZero] using hzero

/-- A bar is wide enough for a label if it is longer than a fiftieth of the makespan, also when all
is over at once. -/
theorem threshold_lt_iff {makespan x : Rat} (h : x ≤ makespan) :
    0.02 * horizon makespan < x ↔ makespan / 50 < x := by
  by_cases hzero : makespan = 0
  · subst hzero
    have hpos : (0 : Rat) < 0.02 * horizon 0 := by decide +kernel
    refine iff_of_false (h.trans hpos.le).not_gt ?_
    rw [zero_div]
    exact h.not_gt
  · have hfiftieth : (0.02 : Rat) = 1 / 50 := by norm_num
    rw [horizon_of_ne hzero, hfiftieth, one_div_mul_eq_div]

theorem labelOf?_isSome_iff (h : e.length ≤ s.makespan) :
    (labelOf? s m e).isSome ↔ s.makespan / 50 < e.length := by
  rw [← threshold_lt_iff h, labelOf?]
  split_ifs with hwide <;> simp [hwide]

/-- A label stands in the middle of its bar. -/
theorem eq_of_labelOf? {l : BarLabel Rat} (h : labelOf? s m e = some l) :
    l = ⟨e.start + e.length / 2, m, (s.workflow.labelOf e.task).plain⟩ := by
  have htwo : (2.0 : Rat) = 2 := by norm_num
  rw [labelOf?, htwo] at h
  split_ifs at h
  exact (Option.some.inj h).symm

end Gantt

namespace Schedule.Planned

open Gantt

variable {weights : Weights Rat} {w : Workflow Rat} {machines : List (Machine Rat)}
  {s : Schedule Rat} {m : Nat} {e : Event Rat}

theorem shows_markOf (h : s.Planned weights w machines)
    (hc : s.costs.Describes (0 ≤ ·) w machines) (hne : machines ≠ []) (hm : m < machines.length)
    (he : e ∈ s.laneOf m) : (markOf s m e).Shows s := by
  have hcons := h.consistent hc hne
  rw [h.laneOf_eq hne hm, hcons.aligned.mem_lane hm] at he
  obtain ⟨hmem, hmachine⟩ := he
  have hstart : 0 ≤ e.start := by
    obtain ⟨_, -, -, hstart, -⟩ := hcons.placed e hmem
    exact hstart
  have hlength : 0 ≤ e.length := h.length_nonneg hc hne hmem
  have hfinish : e.finish ≤ s.makespan := by
    refine Quantity.le_largestOr 0 (List.mem_map_of_mem ?_)
    rwa [values_events]
  have hwidth : e.length ≤ s.makespan := by
    unfold Event.length
    linarith
  constructor
  case lane_lt => rwa [h.machines_eq]
  case runs => exact ⟨e, h.get?_task hmem, hmachine, rfl, (right_barOf m e).symm⟩
  case inTime =>
    rw [markOf, right_barOf]
    exact ⟨hstart, sub_nonneg.1 hlength, hfinish⟩
  case labelled_iff => exact labelOf?_isSome_iff hwidth
  case label =>
    intro l hl
    have hpos : 0 < e.length := by
      have hwide := (labelOf?_isSome_iff hwidth).1 (Option.isSome_of_mem hl)
      exact (div_nonneg (hlength.trans hwidth) (by norm_num)).trans_lt hwide
    have ht : w.Holds e.task := h.holds (h.mem_order_of_get? (h.get?_task hmem))
    obtain ⟨task, -, htask⟩ := Workflow.exists_task ht
    rw [← h.workflow_eq] at htask
    rw [eq_of_labelOf? hl, markOf, right_barOf]
    refine ⟨rfl, lt_add_of_pos_right _ (half_pos hpos), ?_, task, htask, ?_⟩
    · show e.start + e.length / 2 < e.finish
      unfold Event.length at hpos ⊢
      linarith
    · rw [Workflow.labelOf_of_task? htask]

/-- Every task has one mark. -/
theorem marks_perm (h : s.Planned weights w machines) (hne : machines ≠ []) :
    ((marksOf s).map Mark.task).Perm w.positions := by
  have hevents : (List.range machines.length).flatMap s.laneOf = s.roster.events := by
    rw [roster, (h.aligned hne).events_roster]
    refine List.flatMap_congr fun m hm => ?_
    exact h.laneOf_eq hne (List.mem_range.1 hm)
  have htasks : (marksOf s).map Mark.task = s.roster.events.map Event.task := by
    rw [← hevents, marksOf, h.machines_eq, List.map_flatMap, List.map_flatMap]
    simp [markOf, Function.comp_def]
  rw [htasks]
  have hperm := (h.aligned hne).roster_perm.map Event.task
  rw [← Allocation.tasks, h.tasks_eq] at hperm
  exact hperm.trans h.order_perm

/-- Bars of one lane are in the order of time. -/
theorem bars_apart (h : s.Planned weights w machines)
    (hc : s.costs.Describes (0 ≤ ·) w machines) (hne : machines ≠ []) :
    ((marksOf s).map Mark.bar).Pairwise fun b c => b.lane = c.lane → b.right ≤ c.left := by
  rw [marksOf, h.machines_eq, List.map_flatMap, List.pairwise_flatMap]
  constructor
  · intro m hm
    have hlt := List.mem_range.1 hm
    have horder := ((h.consistent hc hne).inOrder m hlt).pairwise
    rw [← h.laneOf_eq hne hlt] at horder
    rw [List.map_map, List.pairwise_map]
    refine horder.imp fun {e f} hle _ => ?_
    exact (right_barOf m e).trans_le hle
  · refine List.nodup_range.imp fun {m n} hmn b hb c hc hlane => ?_
    -- bars of two lanes are not in one lane
    obtain ⟨e, -, rfl⟩ := List.mem_map.1 (List.map_map ▸ hb)
    obtain ⟨f, -, rfl⟩ := List.mem_map.1 (List.map_map ▸ hc)
    exact absurd hlane hmn

theorem faithful (h : s.Planned weights w machines)
    (hc : s.costs.Describes (0 ≤ ·) w machines) (hne : machines ≠ []) (title : Option String) :
    (ofSchedule s title).Faithful s := by
  have hshows : ∀ k ∈ marksOf s, k.Shows s := by
    intro k hk
    obtain ⟨m, hm, e, he, rfl⟩ := mem_marksOf.1 hk
    rw [h.machines_eq] at hm
    exact h.shows_markOf hc hne hm he
  constructor
  case lanes => rfl
  case laneNames => rfl
  case marks =>
    refine ⟨marksOf s, ?_, bars_ofSchedule s title, labels_ofSchedule s title, hshows⟩
    rw [h.workflow_eq]
    exact h.marks_perm hne
  case apart =>
    rw [bars_ofSchedule]
    exact h.bars_apart hc hne
  case few =>
    intro m
    rw [labels_ofSchedule]
    exact Mark.few hshows (h.bars_apart hc hne) m
  case blank =>
    rw [labels_ofSchedule]
    exact Mark.blank hshows

end Schedule.Planned

namespace Sample

/-- A long task and a short one after it. -/
def brief : Workflow Rat where
  tasks := [
    { label := .text "load", length := 99, children := [1] },
    { label := .text "ping", length := 1, parents := [0] }]

end Sample

namespace Planning

variable {weights : Weights Rat} {w : Workflow Rat} {machines : List (Machine Rat)}
  {σ σ' : Session Rat} {s : Schedule Rat}

/-- The chart of a plan shows every task once, when and on which machine it runs. -/
theorem plan_drawn (h : (plan weights w machines).runIn σ = (.ok s, σ'))
    (hestimates : ∀ r ∈ σ.estimator.replies (w.questions machines),
      ∀ x, r.result = .ok x → 0 ≤ x) (title : Option String) :
    s.workflow = w ∧ s.machines = machines ∧ (Gantt.ofSchedule s title).Faithful s := by
  obtain ⟨hne, hplanned, hc, -⟩ := plan_exact h hestimates
  exact ⟨hplanned.workflow_eq, hplanned.machines_eq, hplanned.faithful hc hne title⟩

/-- The short task is on the machine of the long one and too short for a label, and the other
machine has nothing to do. -/
theorem plan_drawn_brief :
    ∃ s σ', (plan Sample.earliest Sample.brief [Sample.slow, Sample.wide]).runIn {} =
        (.ok s, σ') ∧ s.makespan = 100 ∧ (Gantt.ofSchedule s none).Faithful s ∧
      (Gantt.ofSchedule s none).laneNames = ["slow", "wide"] ∧
      (Gantt.ofSchedule s none).bars.map (fun b => (b.lane, b.left, b.right)) =
        [(0, 0, 99), (0, 99, 100)] ∧
      (Gantt.ofSchedule s none).labels.map BarLabel.text = ["load"] := by
  obtain ⟨s, σ', hrun, hvalues⟩ := exists_runIn_of_map
    (show ((plan Sample.earliest Sample.brief [Sample.slow, Sample.wide]).runIn {}).1.toOption.map
      (fun s => (s.makespan,
        (Gantt.ofSchedule s none).bars.map (fun b => (b.lane, b.left, b.right)),
        (Gantt.ofSchedule s none).labels.map BarLabel.text)) =
      some (100, [(0, 0, 99), (0, 99, 100)], ["load"]) by decide +kernel)
  simp only [Prod.mk.injEq] at hvalues
  obtain ⟨hmakespan, hbars, hlabels⟩ := hvalues
  obtain ⟨-, hmachines, hfaithful⟩ :=
    plan_drawn hrun (static_nonneg (by decide +kernel) (by decide +kernel)) none
  refine ⟨s, σ', hrun, hmakespan, hfaithful, ?_, hbars, hlabels⟩
  rw [hfaithful.laneNames, hmachines]
  rfl

end Planning

end EarliestFinish
