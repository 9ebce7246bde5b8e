import EarliestFinish.CostTable
import EarliestFinish.Proofs.Ensures

/-!
# The estimates of a plan

The estimator is asked once for every machine with enough cores for a task, task by task and
machine by machine. `Workflow.questions` lists these questions and `Estimator.replies` the replies
to them, each from the estimator that the one before has left.

`Planning.estimateAll_ensures` tells what comes of the estimates: a row for each task with an entry
for each machine, none where the machine is too small. What the replies have in common, the
estimates have in common. A warning is noted of every task that fits on no machine, and of no
other. `Planning.estimateAll_invariant` is for what the session keeps from one question to the next.

The static estimator shows that such replies exist: it answers unless a machine has speed zero
(`static_answers`), and not with negative numbers if no length and no speed is one
(`static_nonneg`).
-/

namespace EarliestFinish

variable {α : Type}

/-- The questions about a task: one for each machine with enough cores. -/
def questionsOf (machines : List (Machine α)) (task : Task α) : List (Features α) :=
  (machines.filter fun m => m.fits task).map (Features.ofPair task)

/-- The questions about all tasks, task by task. -/
def Workflow.questions (w : Workflow α) (machines : List (Machine α)) : List (Features α) :=
  w.tasks.flatMap (questionsOf machines)

/-- The cells of a task in which the machine has the cores for it. -/
def cellsOf (machines : List (Machine α)) (task : Task α) : List (Task α × Machine α) :=
  (machines.filter fun m => m.fits task).map (task, ·)

/-- The cells of a workflow in which the machine has the cores for the task, row by row. -/
def Workflow.cells (w : Workflow α) (machines : List (Machine α)) : List (Task α × Machine α) :=
  w.tasks.flatMap (cellsOf machines)

/-- The features of a task on a machine, which are a cell of the cost table. -/
def featuresOf (cell : Task α × Machine α) : Features α := .ofPair cell.1 cell.2

/-- Whether no machine has enough cores for a task. -/
def fitsNowhere (machines : List (Machine α)) (task : Task α) : Bool :=
  machines.all fun m => !m.fits task

/-- Whether there is a task at a position for which no machine has enough cores. -/
def Workflow.isMisfit (w : Workflow α) (machines : List (Machine α)) (t : Int) : Bool :=
  (w.task? t).any (fitsNowhere machines)

/-- A task may go to a machine with the cores for it, and to any machine if none has them. -/
def Workflow.Candidate (w : Workflow α) (machines : List (Machine α)) (t : Int) (m : Nat) : Prop :=
  ∃ task machine, w.task? t = some task ∧ machines[m]? = some machine ∧
    (machine.fits task = true ∨ fitsNowhere machines task = true)

/-- Whether an entry warns of a task and a machine, or all machines, with too few cores for it. -/
def Entry.isMisfit : Entry α → Bool
  | fitsNowhere .. | placedTooSmall .. => true
  | _ => false

/-- The warnings of tasks that need more cores than they can have. -/
def Session.misfits (s : Session α) : List (Entry α) := s.journal.toList.filter Entry.isMisfit

/-- What an estimate can be: none on a machine that is too small, and else a number that passes a
test. -/
inductive IsEstimate (P : α → Prop) (task : Task α) (machine : Machine α) : Option α → Prop
  | value {x : α} : machine.fits task = true → P x → IsEstimate P task machine (some x)
  | tooSmall : machine.fits task = false → IsEstimate P task machine none

theorem IsEstimate.isSome_iff {P : α → Prop} {task : Task α} {machine : Machine α} {x : Option α}
    (h : IsEstimate P task machine x) : x.isSome = machine.fits task := by
  cases h with
  | value hfit => rw [hfit]; rfl
  | tooSmall hfit => rw [hfit]; rfl

theorem fitsNowhere_eq_false {machines : List (Machine α)} {task : Task α} {machine : Machine α}
    (hm : machine ∈ machines) (hfits : machine.fits task = true) :
    fitsNowhere machines task = false := by
  rw [fitsNowhere, List.all_eq_false]
  exact ⟨machine, hm, by simp [hfits]⟩

theorem all_isNone_of_isEstimate {P : α → Prop} {task : Task α} {machines : List (Machine α)}
    {row : List (Option α)} (h : List.Forall₂ (IsEstimate P task) machines row) :
    row.all Option.isNone = fitsNowhere machines task := by
  induction h with
  | nil => rfl
  | cons hx _ ih =>
    simp only [fitsNowhere, List.all_cons] at ih ⊢
    rw [ih, ← hx.isSome_iff, Option.not_isSome]

theorem map_featuresOf_cells (w : Workflow α) (machines : List (Machine α)) :
    (w.cells machines).map featuresOf = w.questions machines := by
  rw [Workflow.cells, Workflow.questions, List.map_flatMap]
  exact List.flatMap_congr fun task _ => List.map_map

theorem cellsOf_cons (machine : Machine α) (machines : List (Machine α)) (task : Task α) :
    cellsOf (machine :: machines) task =
      (if machine.fits task then [(task, machine)] else []) ++ cellsOf machines task := by
  unfold cellsOf
  cases hfit : machine.fits task <;> simp [hfit]

theorem Workflow.questions_nil (w : Workflow α) : w.questions [] = [] :=
  List.flatMap_eq_nil_iff.2 fun _ _ => rfl

theorem exists_of_mem_questions {w : Workflow α} {machines : List (Machine α)} {f : Features α}
    (h : f ∈ w.questions machines) :
    ∃ task ∈ w.tasks, ∃ machine ∈ machines, f = .ofPair task machine := by
  obtain ⟨task, htask, hf⟩ := List.mem_flatMap.1 h
  obtain ⟨machine, hmachine, rfl⟩ := List.mem_map.1 hf
  exact ⟨task, htask, machine, List.mem_of_mem_filter hmachine, rfl⟩

theorem filter_isMisfit_entries (r : Reply α) (task machine : Label) :
    (r.entries task machine).filter Entry.isMisfit = [] := by
  rw [List.filter_eq_nil_iff]
  intro e he
  obtain ⟨a, -, ha⟩ := List.mem_filterMap.1 he
  cases a <;> cases ha <;> simp [Entry.isMisfit]

variable [Quantity α]

/-- The replies of an estimator to some questions, asked one after the other. -/
def Estimator.replies : Estimator α → List (Features α) → List (Reply α)
  | _, [] => []
  | e, f :: fs => e.estimate f :: replies (e.estimate f).next fs

/-- Every number among some replies passes one test, and every obstacle another. -/
def Estimator.AllReplies (P : α → Prop) (E : Obstacle α → Prop) (e : Estimator α)
    (questions : List (Features α)) : Prop :=
  ∀ r ∈ e.replies questions, (∀ x, r.result = .ok x → P x) ∧ ∀ o, r.result = .error o → E o

/-! ## The static estimator -/

theorem replies_static (questions : List (Features α)) :
    Estimator.static.replies questions =
      questions.map fun f => ⟨[], ended (Estimator.staticEstimate f), .static⟩ := by
  induction questions with
  | nil => rfl
  | cons f fs ih =>
    rw [List.map_cons, ← ih]
    rfl

/-- The static estimator answers all questions if no machine has speed zero. -/
theorem static_answers {w : Workflow α} {machines : List (Machine α)}
    (h : ∀ machine ∈ machines, Quantity.isZero machine.speed = false) :
    ∀ r ∈ Estimator.static.replies (w.questions machines), ∃ x, r.result = .ok x := by
  intro r hr
  rw [replies_static] at hr
  obtain ⟨f, hf, rfl⟩ := List.mem_map.1 hr
  obtain ⟨task, -, machine, hmachine, rfl⟩ := exists_of_mem_questions hf
  refine ⟨task.length / machine.speed, ended_eq_ok_iff.2 ?_⟩
  rw [Estimator.staticEstimate, Features.ofPair, Quantity.quotient?, h machine hmachine]
  rfl

/-- The static estimates, if there are any. -/
theorem staticEstimate_eq {fs : List (Features α)}
    (h : ∀ r ∈ Estimator.static.replies fs, ∃ x, r.result = .ok x) :
    ∀ f ∈ fs, Estimator.staticEstimate f = .ok (f.length / f.speed) := by
  intro f hf
  rw [replies_static] at h
  obtain ⟨x, hx⟩ := h _ (List.mem_map_of_mem hf)
  replace hx := ended_eq_ok_iff.1 hx
  simp only [Estimator.staticEstimate, Quantity.quotient?] at hx ⊢
  split at hx
  · next y hy =>
    obtain ⟨-, hquotient⟩ := Option.ite_none_left_eq_some.1 hy
    rw [Option.some.inj hquotient]
  · cases hx

/-- The static estimates are not negative if no length and no speed is. -/
theorem static_nonneg {w : Workflow Rat} {machines : List (Machine Rat)}
    (hlength : ∀ task ∈ w.tasks, 0 ≤ task.length)
    (hspeed : ∀ machine ∈ machines, 0 ≤ machine.speed) :
    ∀ r ∈ Estimator.static.replies (w.questions machines), ∀ x, r.result = .ok x → 0 ≤ x := by
  intro r hr x hx
  rw [replies_static] at hr
  obtain ⟨f, hf, rfl⟩ := List.mem_map.1 hr
  obtain ⟨task, htask, machine, hmachine, rfl⟩ := exists_of_mem_questions hf
  replace hx := ended_eq_ok_iff.1 hx
  simp only [Estimator.staticEstimate, Features.ofPair, Quantity.quotient?] at hx
  split at hx
  · next y hy =>
    cases hx
    obtain ⟨-, hquotient⟩ := Option.ite_none_left_eq_some.1 hy
    cases hquotient
    exact div_nonneg (hlength task htask) (hspeed machine hmachine)
  · cases hx

namespace Planning

variable {P : α → Prop} {E : Obstacle α → Prop} {s : Session α} {later : List (Features α)}

theorem ask_ensures {task : Task α} {machine : Machine α}
    (h : s.estimator.AllReplies P E (.ofPair task machine :: later)) :
    (ask task machine).Ensures s E fun x s' =>
      P x ∧ s'.estimator.AllReplies P E later ∧ s'.misfits = s.misfits := by
  have hnow := h _ List.mem_cons_self
  have hlater : (s.estimator.estimate (.ofPair task machine)).next.AllReplies P E later :=
    fun r hr => h r (List.mem_cons_of_mem _ hr)
  refine ensures_outcome (fun x hx => ⟨hnow.1 x hx, hlater, ?_⟩) hnow.2
  simp [Session.misfits, filter_isMisfit_entries]

theorem estimateCell_ensures {task : Task α} {machine : Machine α} {machines : List (Machine α)}
    (h : s.estimator.AllReplies P E (questionsOf (machine :: machines) task ++ later)) :
    (estimateCell task machine).Ensures s E fun x s' => IsEstimate P task machine x ∧
      s'.estimator.AllReplies P E (questionsOf machines task ++ later) ∧
      s'.misfits = s.misfits := by
  unfold estimateCell
  cases hfit : machine.fits task with
  | true =>
    simp only [questionsOf, List.filter_cons, hfit, if_true, List.map_cons, List.cons_append] at h
    rw [if_pos rfl]
    refine ensures_bind ((ask_ensures h).mono (fun _ hf => hf) fun x s' hx => ?_)
    exact ensures_pure ⟨.value hfit hx.1, hx.2⟩
  | false =>
    simp only [questionsOf, List.filter_cons, hfit] at h
    exact ensures_pure ⟨.tooSmall hfit, h, rfl⟩

theorem estimateRow_ensures {task : Task α} {machines : List (Machine α)}
    (h : s.estimator.AllReplies P E (questionsOf machines task ++ later)) :
    (estimateRow machines task).Ensures s E fun row s' =>
      List.Forall₂ (IsEstimate P task) machines row ∧
      s'.estimator.AllReplies P E later ∧
      s'.misfits = s.misfits ++
        if fitsNowhere machines task then [.fitsNowhere task.label task.cores] else [] := by
  unfold estimateRow
  have hcells := ensures_mapM (R := IsEstimate P task)
    (I := fun ms s' => s'.estimator.AllReplies P E (questionsOf ms task ++ later) ∧
      s'.misfits = s.misfits)
    (fun m ms s' hs' => (estimateCell_ensures hs'.1).mono (fun _ hf => hf)
      fun x s'' hx => ⟨hx.1, hx.2.1, hx.2.2.trans hs'.2⟩) machines s ⟨h, rfl⟩
  refine ensures_bind (hcells.mono (fun _ hf => hf) fun row s' hrow => ?_)
  obtain ⟨hrow, hlater, hmisfits⟩ := hrow
  rw [all_isNone_of_isEstimate hrow]
  split
  · refine ensures_bind (ensures_note (ensures_pure ⟨hrow, hlater, ?_⟩))
    simp only [Session.misfits] at hmisfits ⊢
    simp [hmisfits, Entry.isMisfit]
  · exact ensures_bind (ensures_pure (ensures_pure ⟨hrow, hlater, by simp [hmisfits]⟩))

/-- The estimates of all tasks and the warnings that go with them. -/
theorem estimateAll_ensures {w : Workflow α} {machines : List (Machine α)} (hm : machines ≠ [])
    (h : s.estimator.AllReplies P E (w.questions machines)) :
    (estimateAll w machines).Ensures s E fun estimates s' =>
      List.Forall₂ (fun task => List.Forall₂ (IsEstimate P task) machines) w.tasks estimates ∧
      s'.misfits = s.misfits ++
        (w.tasks.filter (fitsNowhere machines)).map fun t => .fitsNowhere t.label t.cores := by
  unfold estimateAll
  rw [if_neg (by simpa using hm)]
  have hrows := ensures_mapM (E := E) (f := estimateRow machines)
    (R := fun task => List.Forall₂ (IsEstimate P task) machines)
    (I := fun ts s' => s'.estimator.AllReplies P E (ts.flatMap (questionsOf machines)) ∧
      s'.misfits ++ (ts.filter (fitsNowhere machines)).map (fun t => .fitsNowhere t.label t.cores)
        = s.misfits ++
          (w.tasks.filter (fitsNowhere machines)).map fun t => .fitsNowhere t.label t.cores)
    (fun t ts s' hs' => ?_) w.tasks s ⟨h, rfl⟩
  -- at every point, the warnings so far and those of the tasks still to come make up all of them
  · refine ensures_bind (ensures_pure (hrows.mono (fun _ hf => hf) fun rows s' hr => ?_))
    exact ⟨hr.1, by simpa using hr.2.2⟩
  · refine (estimateRow_ensures hs'.1).mono (fun _ hf => hf) fun row s'' hrow => ?_
    refine ⟨hrow.1, hrow.2.1, ?_⟩
    rw [← hs'.2, hrow.2.2, List.filter_cons]
    split <;> simp

/-! ## Invariants of the session -/

section Invariant

-- `I` speaks of the cells that are still to come; a question takes the first of them
variable {I : List (Task α × Machine α) → Session α → Prop}
  (hask : ∀ task machine later s, I ((task, machine) :: later) s →
    (ask task machine).Ensures s E fun _ s' => I later s')
  (hnote : ∀ (task : Task α) later s, I later s →
    I later { s with journal := s.journal.push (.fitsNowhere task.label task.cores) })
  {w : Workflow α} {machines : List (Machine α)} {machine : Machine α} {task : Task α}
  {later : List (Task α × Machine α)}

include hask

theorem estimateCell_invariant (h : I (cellsOf (machine :: machines) task ++ later) s) :
    (estimateCell task machine).Ensures s E fun _ s' => I (cellsOf machines task ++ later) s' := by
  rw [cellsOf_cons] at h
  unfold estimateCell
  split
  · next hfit =>
    rw [if_pos hfit] at h
    exact ensures_bind ((hask _ _ _ _ h).mono (fun _ ho => ho) fun _ _ hs => ensures_pure hs)
  · next hfit =>
    rw [if_neg hfit] at h
    exact ensures_pure h

include hnote

theorem estimateRow_invariant (h : I (cellsOf machines task ++ later) s) :
    (estimateRow machines task).Ensures s E fun _ s' => I later s' := by
  unfold estimateRow
  have hcells := ensures_mapM (R := fun _ _ => True)
    (I := fun ms s' => I (cellsOf ms task ++ later) s')
    (fun m ms s' hs' => (estimateCell_invariant hask hs').mono (fun _ ho => ho)
      fun _ _ hs => ⟨trivial, hs⟩) machines s h
  refine ensures_bind (hcells.mono (fun _ ho => ho) fun row s' hrow => ?_)
  have hlater : I later s' := hrow.2
  split
  · exact ensures_bind (ensures_note (ensures_pure (hnote task later s' hlater)))
  · refine ensures_bind (ensures_pure (ensures_pure ?_))
    exact hlater

/-- An invariant that every question and every warning keeps holds after all of them. -/
theorem estimateAll_invariant (hm : machines = [] → E (.fault .noMachines))
    (h : I (w.cells machines) s) :
    (estimateAll w machines).Ensures s E fun _ s' => I [] s' := by
  unfold estimateAll
  have hrows := ensures_mapM (f := estimateRow machines) (R := fun _ _ => True)
    (I := fun ts s' => I (ts.flatMap (cellsOf machines)) s')
    (fun t ts s' hs' => (estimateRow_invariant hask hnote hs').mono (fun _ ho => ho)
      fun _ _ hs => ⟨trivial, hs⟩) w.tasks s h
  split
  · next hempty => exact ensures_bind (hm (List.isEmpty_iff.1 hempty))
  · exact ensures_bind (ensures_pure (hrows.mono (fun _ ho => ho) fun _ _ hs => hs.2))

end Invariant

end Planning

end EarliestFinish
