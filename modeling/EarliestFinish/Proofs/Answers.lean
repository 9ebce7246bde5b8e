import EarliestFinish.Proofs.Estimates

/-!
# Questions and answers

`e.Answers fs xs e'` says that the estimator `e`, asked the questions `fs` one after the other,
answers them with the numbers `xs` and is left as `e'`. The estimates of a workflow are the answers
to its questions, put row by row where the machines have the cores for the tasks
(`Planning.estimateAll_answers`). So two estimators with the same answers give the same estimates
(`estimates_ext`), whatever else they do.

`e.Stalls fs` says that `e` answers some of these questions and then never answers the next one.
Then the estimates do not end either (`Planning.estimateAll_stalls`).
-/

namespace EarliestFinish

variable {α : Type}

/-- Where there are estimates. -/
def shapeOf (rows : Estimates α) : List (List Bool) := rows.map fun row => row.map Option.isSome

/-- The numbers among some estimates, row by row. -/
def numbersOf (rows : Estimates α) : List α := rows.flatMap fun row => row.flatMap Option.toList

/-- Which machines have the cores for which tasks. -/
def Workflow.fitting (w : Workflow α) (machines : List (Machine α)) : List (List Bool) :=
  w.tasks.map fun task => machines.map fun m => m.fits task

/-- The question about a task on a machine, if the machine has the cores for it. -/
def questionOf (task : Task α) (machine : Machine α) : List (Features α) :=
  if machine.fits task then [.ofPair task machine] else []

theorem questionsOf_eq_flatMap (machines : List (Machine α)) (task : Task α) :
    questionsOf machines task = machines.flatMap (questionOf task) := by
  induction machines with
  | nil => rfl
  | cons m ms ih =>
    rw [List.flatMap_cons, ← ih]
    unfold questionOf questionsOf
    cases hfit : m.fits task <;> simp [hfit]

theorem row_ext {xs ys : List (Option α)} (hshape : xs.map Option.isSome = ys.map Option.isSome)
    (hnumbers : xs.flatMap Option.toList = ys.flatMap Option.toList) : xs = ys := by
  induction xs generalizing ys with
  | nil => exact (List.map_eq_nil_iff.1 hshape.symm).symm
  | cons x xs ih =>
    obtain ⟨y, ys, rfl⟩ : ∃ y zs, ys = y :: zs :=
      List.exists_cons_of_ne_nil fun h => by simp [h] at hshape
    obtain ⟨hxy, hrest⟩ := List.cons.inj hshape
    rw [List.flatMap_cons, List.flatMap_cons] at hnumbers
    cases x with
    | none =>
      obtain rfl : y = none := by simpa using hxy.symm
      rw [ih hrest hnumbers]
    | some x =>
      obtain ⟨z, rfl⟩ := Option.isSome_iff_exists.1 hxy.symm
      obtain ⟨rfl, htail⟩ := List.cons.inj hnumbers
      rw [ih hrest htail]

/-- Estimates in the same places and with the same numbers are the same. -/
theorem estimates_ext {rows rows' : Estimates α} (hshape : shapeOf rows = shapeOf rows')
    (hnumbers : numbersOf rows = numbersOf rows') : rows = rows' := by
  refine List.eq_iff_flatten_eq.2 ⟨row_ext ?_ ?_, ?_⟩
  · simpa [shapeOf, List.map_flatten] using congrArg List.flatten hshape
  · rw [List.flatten_eq_flatMap, List.flatten_eq_flatMap, List.flatMap_assoc, List.flatMap_assoc]
    exact hnumbers
  · simpa [shapeOf, Function.comp_def] using congrArg (List.map List.length) hshape

theorem map_isSome_of_isEstimate {P : α → Prop} {task : Task α}
    {machines : List (Machine α)} {row : List (Option α)}
    (h : List.Forall₂ (IsEstimate P task) machines row) :
    row.map Option.isSome = machines.map fun m => m.fits task := by
  induction h with
  | nil => rfl
  | cons hx _ ih => rw [List.map_cons, List.map_cons, hx.isSome_iff, ih]

theorem shapeOf_of_isEstimate {P : α → Prop} {machines : List (Machine α)}
    {rows : Estimates α} {tasks : List (Task α)}
    (h : List.Forall₂ (fun task => List.Forall₂ (IsEstimate P task) machines) tasks rows) :
    shapeOf rows = tasks.map fun task => machines.map fun m => m.fits task := by
  induction h with
  | nil => rfl
  | cons hr _ ih =>
    rw [List.map_cons, ← ih, ← map_isSome_of_isEstimate hr]
    rfl

variable [Quantity α]

namespace Estimator

/-- Asked some questions one after the other, an estimator gives some answers and is left as
another estimator. -/
inductive Answers : Estimator α → List (Features α) → List α → Estimator α → Prop
  | nil (e : Estimator α) : Answers e [] [] e
  | cons {e e' : Estimator α} {f : Features α} {fs : List (Features α)} {x : α} {xs : List α}
      (hx : (e.estimate f).result = .ok x) (hxs : Answers (e.estimate f).next fs xs e') :
      Answers e (f :: fs) (x :: xs) e'

/-- Asked some questions one after the other, an estimator never answers one of them. -/
inductive Stalls : Estimator α → List (Features α) → Prop
  | now {e : Estimator α} {f : Features α} {fs : List (Features α)}
      (h : (e.estimate f).result = .error .endless) : Stalls e (f :: fs)
  | later {e : Estimator α} {f : Features α} {fs : List (Features α)} {x : α}
      (hx : (e.estimate f).result = .ok x) (hrest : Stalls (e.estimate f).next fs) :
      Stalls e (f :: fs)

variable {e e' : Estimator α} {fs gs : List (Features α)} {xs : List α}

theorem not_stalls_nil : ¬ e.Stalls [] := nofun

theorem answers_append_iff :
    e.Answers (fs ++ gs) xs e' ↔
      ∃ ys zs e₁, xs = ys ++ zs ∧ e.Answers fs ys e₁ ∧ e₁.Answers gs zs e' := by
  induction fs generalizing e xs with
  | nil =>
    constructor
    · exact fun h => ⟨[], xs, e, rfl, .nil e, h⟩
    · rintro ⟨ys, zs, e₁, rfl, h, hz⟩
      cases h
      exact hz
  | cons f fs ih =>
    constructor
    · intro h
      cases h with
      | cons hx hxs =>
        obtain ⟨ys, zs, e₁, rfl, hy, hz⟩ := ih.1 hxs
        exact ⟨_ :: ys, zs, e₁, rfl, .cons hx hy, hz⟩
    · rintro ⟨ys, zs, e₁, rfl, h, hz⟩
      cases h with
      | cons hx hxs => exact .cons hx (ih.2 ⟨_, zs, e₁, rfl, hxs, hz⟩)

/-- The answers are the results of the replies. -/
theorem Answers.results (h : e.Answers fs xs e') :
    (e.replies fs).map Reply.result = xs.map .ok := by
  induction h with
  | nil => rfl
  | cons hx _ ih => rw [replies, List.map_cons, List.map_cons, hx, ih]

/-- An estimator that replies to all questions with numbers answers them. -/
theorem exists_answers (h : ∀ r ∈ e.replies fs, ∃ x, r.result = .ok x) :
    ∃ xs e', e.Answers fs xs e' := by
  induction fs generalizing e with
  | nil => exact ⟨[], e, .nil e⟩
  | cons f fs ih =>
    obtain ⟨⟨x, hx⟩, hrest⟩ := List.forall_mem_cons.1 h
    obtain ⟨xs, e', hxs⟩ := ih hrest
    exact ⟨x :: xs, e', .cons hx hxs⟩

theorem Answers.static {numbers : Features α → α}
    (h : ∀ f ∈ fs, staticEstimate f = .ok (numbers f)) :
    Estimator.static.Answers fs (fs.map numbers) .static := by
  induction fs with
  | nil => exact .nil _
  | cons f fs ih =>
    obtain ⟨hf, hfs⟩ := List.forall_mem_cons.1 h
    exact .cons (ended_eq_ok_iff.2 hf) (ih hfs)

end Estimator

namespace Planning

open Estimator

variable {β γ : Type} {σ : Session α} {e : Estimator α} {xs : List α} {w : Workflow α}
  {machines : List (Machine α)}

/-- Going through a list: the questions of all elements have the numbers of all results for
answers. -/
theorem mapM_answers {f : β → Planning α γ} {asks : β → List (Features α)} {numbers : γ → List α}
    (hstep : ∀ b σ xs e, σ.estimator.Answers (asks b) xs e →
      (f b).Ensures σ (fun _ => False) fun c σ' => numbers c = xs ∧ σ'.estimator = e)
    (bs : List β) (h : σ.estimator.Answers (bs.flatMap asks) xs e) :
    (bs.mapM f).Ensures σ (fun _ => False) fun cs σ' =>
      cs.flatMap numbers = xs ∧ σ'.estimator = e := by
  induction bs generalizing σ xs with
  | nil =>
    cases h
    exact ⟨rfl, rfl⟩
  | cons b bs ih =>
    rw [List.flatMap_cons, answers_append_iff] at h
    obtain ⟨ys, zs, e₁, rfl, hy, hz⟩ := h
    rw [List.mapM_cons]
    refine ensures_bind ((hstep b σ ys e₁ hy).mono (fun _ hf => hf) ?_)
    rintro c σ₁ ⟨rfl, rfl⟩
    refine ensures_bind ((ih hz).mono (fun _ hf => hf) ?_)
    rintro cs σ₂ ⟨rfl, rfl⟩
    exact ensures_pure ⟨rfl, rfl⟩

theorem estimateCell_answers {task : Task α} (machine : Machine α) (σ : Session α) (xs : List α)
    (e : Estimator α) (h : σ.estimator.Answers (questionOf task machine) xs e) :
    (estimateCell task machine).Ensures σ (fun _ => False) fun x σ' =>
      x.toList = xs ∧ σ'.estimator = e := by
  unfold questionOf at h
  unfold estimateCell
  split at h
  · next hfit =>
    rw [if_pos hfit]
    cases h with
    | cons hx hxs =>
      cases hxs
      refine ensures_bind (ensures_outcome (fun y hy => ?_) fun o ho => ?_)
      · obtain rfl := Except.ok.inj (hx.symm.trans hy)
        exact ensures_pure ⟨rfl, rfl⟩
      · cases hx.symm.trans ho
  · next hfit =>
    rw [if_neg hfit]
    cases h
    exact ensures_pure ⟨rfl, rfl⟩

theorem estimateRow_answers (task : Task α) (σ : Session α) (xs : List α) (e : Estimator α)
    (h : σ.estimator.Answers (questionsOf machines task) xs e) :
    (estimateRow machines task).Ensures σ (fun _ => False) fun row σ' =>
      row.flatMap Option.toList = xs ∧ σ'.estimator = e := by
  rw [questionsOf_eq_flatMap] at h
  unfold estimateRow
  refine ensures_bind ((mapM_answers estimateCell_answers machines h).mono (fun _ hf => hf) ?_)
  rintro row σ₁ ⟨hrow, hσ₁⟩
  split
  · exact ensures_bind (ensures_note (ensures_pure ⟨hrow, hσ₁⟩))
  · exact ensures_bind (ensures_pure (ensures_pure ⟨hrow, hσ₁⟩))

/-- If the estimator answers the questions of a workflow, then the estimates are its answers. -/
theorem estimateAll_answers (hm : machines ≠ [])
    (h : σ.estimator.Answers (w.questions machines) xs e) :
    ∃ rows σ', (estimateAll w machines).runIn σ = (.ok rows, σ') ∧
      shapeOf rows = w.fitting machines ∧ numbersOf rows = xs ∧ σ'.estimator = e := by
  have hrun : (estimateAll w machines).Ensures σ (fun _ => False) fun rows σ' =>
      numbersOf rows = xs ∧ σ'.estimator = e := by
    unfold estimateAll
    rw [if_neg (by simpa using hm)]
    exact ensures_bind (ensures_pure (mapM_answers estimateRow_answers w.tasks h))
  have hshape := estimateAll_ensures (P := fun _ => True) (E := fun _ => True) (s := σ) (w := w) hm
    fun r _ => ⟨fun _ _ => trivial, fun _ _ => trivial⟩
  rcases hx : (estimateAll w machines).runIn σ with ⟨f | rows, σ'⟩
  · exact (hrun.error hx).elim
  · obtain ⟨hnumbers, hσ'⟩ := hrun.ok hx
    exact ⟨rows, σ', rfl, shapeOf_of_isEstimate (hshape.ok hx).1, hnumbers, hσ'⟩

/-! ## Questions without an end -/

theorem ask_stalls (task : Task α) (machine : Machine α) (later : List (Features α))
    (h : σ.estimator.Stalls (.ofPair task machine :: later)) :
    (ask task machine).Ensures σ (· = .endless) fun _ σ' => σ'.estimator.Stalls later := by
  refine ensures_outcome (fun x hx => ?_) fun o ho => ?_
  · cases h with
    | now h => cases hx.symm.trans h
    | later _ hrest => exact hrest
  · cases h with
    | now h => exact Except.error.inj (ho.symm.trans h)
    | later hx => cases hx.symm.trans ho

/-- If the estimator never answers a question of a workflow, then the estimates do not end. -/
theorem estimateAll_stalls (h : σ.estimator.Stalls (w.questions machines)) :
    ∃ σ', (estimateAll w machines).runIn σ = (.error .endless, σ') := by
  have hm : machines ≠ [] := by
    rintro rfl
    exact not_stalls_nil (w.questions_nil ▸ h)
  rw [← map_featuresOf_cells] at h
  have hrun := estimateAll_invariant (E := (· = .endless))
    (I := fun cells s => s.estimator.Stalls (cells.map featuresOf))
    (fun task machine later s hs => ask_stalls task machine (later.map featuresOf) hs)
    (fun _ _ _ hs => hs) (fun hempty => absurd hempty hm) h
  rcases hx : (estimateAll w machines).runIn σ with ⟨o | rows, σ'⟩
  · obtain rfl := hrun.error hx
    exact ⟨σ', rfl⟩
  · exact (not_stalls_nil (hrun.ok hx)).elim

end Planning

end EarliestFinish
