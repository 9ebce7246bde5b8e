import EarliestFinish.Proofs.Outcome
import EarliestFinish.Proofs.Visits

/-!
# What a predictor is used for

A fresh estimator with a predictor asks it for one feasible cell after the other, in the order of
the rows. The answers that are *taken* are the usable ones before the first silence. All other cells
get the length of the task over the speed of the machine, as from the static estimator, and are
counted.

`estimate_learned` says what one call comes to, and `answers_learned` and `notes_learned` what the
calls for a whole list of cells do, by induction over the cells: as long as there was no silence the
level counts on, and from then on every cell is passed down. Without a time limit the first silence
has no end (`stalls_learned`).

`Planning.estimates_predicted` puts this together for the estimates of a workflow. If no answer is
taken, a plan is the one of the static estimator.

The predictor is called in vain if its time limit cannot be waited out: `Planning.not_taken_patient`
is a case in which a usable answer is lost.
-/

namespace EarliestFinish

variable {α : Type}

variable [Quantity α]

namespace Answer

/-- The number of the first silence among some answers, or else the number of answers. -/
def firstSilence (answers : List (Answer α)) : Nat := answers.findIdx isSilence

/-- The answers that are taken for estimates: the usable ones before the first silence. -/
def taken (answers : List (Answer α)) : List (Option α) :=
  answers.mapIdx fun j a => if j < firstSilence answers then a.usable? else none

end Answer

/-- What would come of calling a predictor for some questions in turn. -/
def Predictor.outcomes (p : Predictor α) (timeout : Option α) (fs : List (Features α)) :
    List (Answer α) :=
  fs.mapIdx (p.outcome timeout)

/-- Whether a predictor keeps silent on one of some questions and there is no limit to waiting. -/
def Predictor.Stalls (p : Predictor α) (timeout : Option α) (fs : List (Features α)) : Prop :=
  timeout = none ∧ .silence ∈ p.outcomes timeout fs

/-- What would come of calling the predictor of a level for some questions in turn. -/
def Level.outcomes (l : Level α) (p : Predictor α) (fs : List (Features α)) : List (Answer α) :=
  fs.mapIdx fun j f => p.outcome l.timeout (l.calls + j) f

/-- A level after some questions that end, given what would come of all calls. -/
def Level.afterAll (l : Level α) (answers : List (Answer α)) : Level α :=
  { l with
    calls := l.calls + min (Answer.firstSilence answers + 1) answers.length
    fallbacks := l.fallbacks + (Answer.taken answers).countP Option.isNone
    hung := answers.any Answer.isSilence }

/-! ## One call -/

namespace Answer

variable {a : Answer α} {answers : List (Answer α)}

/-- After a silence nothing is taken. -/
theorem taken_cons_of_isSilence (h : a.isSilence = true) :
    taken (a :: answers) = none :: List.replicate answers.length none := by
  simp [taken, firstSilence, List.findIdx_cons, h, List.mapIdx_eq_zipIdx_map]

theorem taken_cons (h : a.isSilence = false) :
    taken (a :: answers) = a.usable? :: taken answers := by
  simp [taken, firstSilence, List.findIdx_cons, h, List.mapIdx_cons]

end Answer

open Estimator

variable {l : Level α} {p : Predictor α} {f : Features α} {x : α} {fs : List (Features α)}
  {answers : List (Answer α)} {a : Answer α}

theorem static_estimate (hx : staticEstimate f = .ok x) :
    static.estimate f = ⟨[], .ok x, static⟩ := by
  rw [estimate, hx]
  rfl

/-- The reply of a fresh or used estimator with a predictor that was never silent, if it ends. -/
theorem estimate_learned (hp : l.predictor = some p) (hl : l.hung = false)
    (hx : staticEstimate f = .ok x)
    (hends : (p.outcome l.timeout l.calls f).ends l.timeout = true) :
    (learned l static).estimate f =
      ⟨[(p.outcome l.timeout l.calls f).attempt l.timeout],
        .ok ((p.outcome l.timeout l.calls f).usable?.getD x),
        learned (l.after (p.outcome l.timeout l.calls f)) static⟩ := by
  unfold estimate
  rw [Level.attempt_eq hp hl, static_estimate hx]
  generalize p.outcome l.timeout l.calls f = a at hends ⊢
  cases a with
  | value y => cases hy : Level.usable y <;> simp [hy, Answer.attempt, Answer.usable?]
  | failure => rfl
  | silence =>
    obtain ⟨limit, hlimit⟩ := Option.isSome_iff_exists.1 (Answer.timeout_isSome rfl hends)
    rw [hlimit]
    rfl

/-- Without a time limit a silence has no end. -/
theorem estimate_endless (hp : l.predictor = some p) (hl : l.hung = false)
    (hends : (p.outcome l.timeout l.calls f).ends l.timeout = false) :
    ((learned l static).estimate f).result = .error .endless := by
  obtain ⟨htimeout, hsilence⟩ := Answer.ends_eq_false_iff.1 hends
  rw [estimate, Level.attempt_eq hp hl, hsilence, htimeout]
  rfl

/-- The reply of an estimator whose predictor was silent once. -/
theorem estimate_hung (hl : l.hung = true) (hx : staticEstimate f = .ok x) :
    (learned l static).estimate f = ⟨[.unavailable], .ok x, learned l.passDown static⟩ := by
  have hnot : l.available = false := by rw [Level.available, hl, Bool.not_true, Bool.and_false]
  rw [estimate, Level.attempt_of_unavailable hnot, static_estimate hx]

/-! ## The calls for a list of cells -/

omit [Quantity α] in
/-- If nothing is taken, all estimates are static. -/
theorem zipWith_getD_none (numbers : Features α → α) (fs : List (Features α)) :
    List.zipWith (fun f x => x.getD (numbers f)) fs (List.replicate fs.length none) =
      fs.map numbers := by
  rw [← List.map_const', List.zipWith_map_right, List.zipWith_self]
  rfl

theorem Level.length_outcomes (l : Level α) (p : Predictor α) (fs : List (Features α)) :
    (l.outcomes p fs).length = fs.length :=
  List.length_mapIdx

theorem Level.outcomes_cons :
    l.outcomes p (f :: fs) = p.outcome l.timeout l.calls f ::
      (l.after (p.outcome l.timeout l.calls f)).outcomes p fs := by
  have hnext : (fun j f => p.outcome l.timeout (l.calls + (j + 1)) f) =
      fun j f => p.outcome l.timeout (l.calls + 1 + j) f := by
    funext j f
    rw [add_comm j 1, add_assoc]
  rw [Level.outcomes, List.mapIdx_cons, hnext]
  rfl

theorem Level.afterAll_cons_of_isSilence (h : a.isSilence = true)
    (hends : a.ends l.timeout = true) :
    l.afterAll (a :: answers) =
      { l.after a with fallbacks := (l.after a).fallbacks + answers.length } := by
  simp [Level.afterAll, Level.after, Answer.taken_cons_of_isSilence h, Answer.firstSilence,
    List.findIdx_cons, List.countP_replicate, h, Answer.usable?_of_isSilence h, hends,
    Answer.timeout_isSome h hends]
  omega

theorem Level.afterAll_cons (h : a.isSilence = false) :
    l.afterAll (a :: answers) = (l.after a).afterAll answers := by
  simp [Level.afterAll, Level.after, Answer.taken_cons h, Answer.firstSilence, List.findIdx_cons, h,
    List.countP_cons, Answer.ends_of_not_isSilence h]
  omega

/-- The entries that an estimator makes of the questions about some cells. -/
def Estimator.notes : Estimator α → List (Task α × Machine α) → List (Entry α)
  | _, [] => []
  | e, cell :: cells =>
    (e.estimate (featuresOf cell)).entries cell.1.label cell.2.label ++
      notes (e.estimate (featuresOf cell)).next cells

variable {cells : List (Task α × Machine α)} {numbers : Features α → α}

theorem answers_hung (hl : l.hung = true) (hstatic : ∀ f ∈ fs, staticEstimate f = .ok (numbers f)) :
    (learned l static).Answers fs (fs.map numbers)
      (learned { l with fallbacks := l.fallbacks + fs.length } static) := by
  induction fs generalizing l with
  | nil => exact .nil _
  | cons f fs ih =>
    obtain ⟨hf, hfs⟩ := List.forall_mem_cons.1 hstatic
    have hreply := estimate_hung hl hf
    have hrest := ih (l := l.passDown) hl hfs
    rw [List.length_cons, add_comm fs.length 1, ← add_assoc]
    refine .cons (by rw [hreply]) ?_
    rw [hreply]
    exact hrest

theorem notes_hung (hl : l.hung = true)
    (hstatic : ∀ c ∈ cells, ∃ x, staticEstimate (featuresOf c) = .ok x) :
    (learned l static).notes cells = [] := by
  induction cells generalizing l with
  | nil => rfl
  | cons c cells ih =>
    obtain ⟨⟨x, hc⟩, hcells⟩ := List.forall_mem_cons.1 hstatic
    rw [notes, estimate_hung hl hc, ih (l := l.passDown) hl hcells]
    rfl

/-- The answers for a list of questions: what is taken, and the static estimates elsewhere. -/
theorem answers_learned (hp : l.predictor = some p) (hl : l.hung = false)
    (hstatic : ∀ f ∈ fs, staticEstimate f = .ok (numbers f))
    (hends : ∀ a ∈ l.outcomes p fs, a.ends l.timeout = true) :
    (learned l static).Answers fs
      (List.zipWith (fun f x => x.getD (numbers f)) fs (Answer.taken (l.outcomes p fs)))
      (learned (l.afterAll (l.outcomes p fs)) static) := by
  induction fs generalizing l with
  | nil =>
    have hsame : l.afterAll [] = l := by simp [Level.afterAll, Answer.taken, ← hl]
    exact hsame.symm ▸ .nil _
  | cons f fs ih =>
    obtain ⟨hf, hfs⟩ := List.forall_mem_cons.1 hstatic
    rw [Level.outcomes_cons] at hends ⊢
    obtain ⟨hend, hends⟩ := List.forall_mem_cons.1 hends
    have hreply := estimate_learned hp hl hf hend
    cases hsilence : (p.outcome l.timeout l.calls f).isSilence with
    | false =>
      rw [Answer.taken_cons hsilence, Level.afterAll_cons hsilence, List.zipWith_cons_cons]
      refine .cons (by rw [hreply]) ?_
      rw [hreply]
      exact ih hp (Level.hung_after hsilence) hfs hends
    | true =>
      rw [Answer.taken_cons_of_isSilence hsilence, Level.afterAll_cons_of_isSilence hsilence hend,
        List.zipWith_cons_cons, Level.length_outcomes, zipWith_getD_none]
      refine .cons ?_ ?_
      · rw [hreply, Answer.usable?_of_isSilence hsilence]
      · rw [hreply]
        exact answers_hung (Level.hung_after_of_isSilence hsilence hend) hfs

/-- A predictor that keeps silent without a time limit is asked in the end. -/
theorem stalls_learned (hp : l.predictor = some p) (hl : l.hung = false)
    (hstatic : ∀ f ∈ fs, staticEstimate f = .ok (numbers f))
    (htimeout : l.timeout = none) (hsilence : .silence ∈ l.outcomes p fs) :
    (learned l static).Stalls fs := by
  induction fs generalizing l with
  | nil => cases hsilence
  | cons f fs ih =>
    obtain ⟨hf, hfs⟩ := List.forall_mem_cons.1 hstatic
    rw [Level.outcomes_cons] at hsilence
    cases hnow : (p.outcome l.timeout l.calls f).isSilence with
    | true => exact .now (estimate_endless hp hl (by rw [Answer.ends, hnow, htimeout]; rfl))
    | false =>
      have hlater : .silence ∈ (l.after (p.outcome l.timeout l.calls f)).outcomes p fs :=
        (List.mem_cons.1 hsilence).resolve_left fun h => by cases h ▸ hnow
      have hreply := estimate_learned hp hl hf (Answer.ends_of_not_isSilence hnow)
      refine .later (congrArg Reply.result hreply) ?_
      rw [hreply]
      exact ih hp (Level.hung_after hnow) hfs htimeout hlater

/-- The entries for a list of cells: one for each call, up to the first silence. -/
theorem notes_learned (hp : l.predictor = some p) (hl : l.hung = false)
    (hstatic : ∀ c ∈ cells, ∃ x, staticEstimate (featuresOf c) = .ok x)
    (hends : ∀ a ∈ l.outcomes p (cells.map featuresOf), a.ends l.timeout = true) :
    ((learned l static).notes cells).map some =
      List.zipWith (Answer.entry? l.timeout)
        (cells.take (Answer.firstSilence (l.outcomes p (cells.map featuresOf)) + 1))
        (l.outcomes p (cells.map featuresOf)) := by
  induction cells generalizing l with
  | nil => rfl
  | cons c cells ih =>
    obtain ⟨⟨x, hc⟩, hcells⟩ := List.forall_mem_cons.1 hstatic
    rw [List.map_cons, Level.outcomes_cons] at hends ⊢
    obtain ⟨hend, hends⟩ := List.forall_mem_cons.1 hends
    rw [notes, estimate_learned hp hl hc hend]
    generalize p.outcome l.timeout l.calls (featuresOf c) = a at hend hends ⊢
    obtain ⟨entry, hentry⟩ := Answer.exists_entry c hend
    have hnoted : [a.attempt l.timeout].filterMap (Attempt.entry? c.1.label c.2.label) = [entry] :=
      List.filterMap_cons_some ((Answer.noted_attempt ..).trans hentry)
    rw [Reply.entries, hnoted, Answer.firstSilence, List.findIdx_cons, List.singleton_append,
      List.map_cons, ← hentry]
    cases hsilence : a.isSilence with
    | false =>
      rw [ih (l := l.after a) hp (Level.hung_after hsilence) hcells hends]
      rfl
    | true =>
      rw [notes_hung (Level.hung_after_of_isSilence hsilence hend) hcells]
      rfl

/-! ## The estimates of a workflow -/

/-- Whether an entry tells of a call of a predictor. -/
def Entry.isPrediction {α : Type} : Entry α → Bool
  | predicted .. | predictionUnused .. => true
  | _ => false

/-- The entries that tell of calls of predictors. -/
def Session.predictions {α : Type} (s : Session α) : List (Entry α) :=
  s.journal.toList.filter Entry.isPrediction

theorem filter_isPrediction_entries {α : Type} (r : Reply α) (task machine : Label) :
    (r.entries task machine).filter Entry.isPrediction = r.entries task machine := by
  rw [List.filter_eq_self]
  intro e he
  obtain ⟨a, -, ha⟩ := List.mem_filterMap.1 he
  cases a <;> cases ha <;> rfl

namespace Sample

/-- Answers of all kinds, of which the last comes after a silence. -/
def moody : Predictor Rat :=
  .scripted [.value 3, .failure ⟨.runtime, "no data"⟩, .value (-1), .silence, .value 5]

/-- A single task. -/
def single : Workflow Float where
  tasks := [{ label := .text "load", length := 10 }]

def twice : Machine Float := ⟨.text "m", 2, 1, 1⟩

/-- A session with the moody predictor. -/
def asking : Session Rat where
  estimator := .learned { predictor := some moody, timeout := some 5 } .static

/-- A session with a predictor that answers and a time limit of some centuries. -/
def patient : Session Float where
  estimator := .learned { predictor := some (.scripted [.value 3]), timeout := some 1e10 } .static

end Sample

namespace Planning

variable {s : Session α} {w : Workflow α} {machines : List (Machine α)}
  {later : List (Task α × Machine α)}

theorem ask_notes {task : Task α} {machine : Machine α} (later : List (Task α × Machine α)) :
    (ask task machine).Ensures s (fun _ => True) fun _ s' =>
      s'.predictions ++ s'.estimator.notes later =
        s.predictions ++ s.estimator.notes ((task, machine) :: later) := by
  refine ensures_outcome (fun x _ => ?_) fun _ _ => trivial
  simp [Session.predictions, notes, filter_isPrediction_entries, featuresOf]

/-- The calls that are noted with the estimates of a workflow. -/
theorem estimateAll_notes :
    (estimateAll w machines).Ensures s (fun _ => True) fun _ s' =>
      s'.predictions = s.predictions ++ s.estimator.notes (w.cells machines) := by
  have hnotes := estimateAll_invariant (E := fun _ => True)
    (I := fun cells s' => s'.predictions ++ s'.estimator.notes cells =
      s.predictions ++ s.estimator.notes (w.cells machines))
    (fun _ _ later s' hs' => (ask_notes later).mono (fun _ ho => ho) fun _ _ hs => hs.trans hs')
    (fun _ _ s' hs' => by simpa [Session.predictions, Entry.isPrediction] using hs')
    (fun _ => trivial) (s := s) rfl
  exact hnotes.mono (fun _ ho => ho) fun _ _ hs => (List.append_nil _).symm.trans hs

/-- What the estimates of a workflow are if a predictor is asked, and what it is asked. -/
structure Predicted (p : Predictor α) (timeout : Option α) (w : Workflow α)
    (machines : List (Machine α)) (s s' : Session α) (rows : Estimates α) : Prop where
  shape : shapeOf rows = w.fitting machines
  /-- A cell has the answer that is taken for it, or else the length over the speed. -/
  numbers : numbersOf rows =
    List.zipWith (fun f x => x.getD (f.length / f.speed)) (w.questions machines)
      (Answer.taken (p.outcomes timeout (w.questions machines)))
  /-- The cells up to the first silence are asked about, one after the other. -/
  calls : ∃ entries, s'.predictions = s.predictions ++ entries ∧
    entries.map some = List.zipWith (Answer.entry? timeout)
      ((w.cells machines).take
        (Answer.firstSilence (p.outcomes timeout (w.questions machines)) + 1))
      (p.outcomes timeout (w.questions machines))
  level : ∃ l, s'.estimator = .learned l .static ∧
    l.calls = min (Answer.firstSilence (p.outcomes timeout (w.questions machines)) + 1)
      (w.questions machines).length ∧
    l.fallbacks = (Answer.taken (p.outcomes timeout (w.questions machines))).countP Option.isNone ∧
    (l.available = true ↔
      ∀ a ∈ p.outcomes timeout (w.questions machines), a.isSilence = false)

theorem withPredictor_ok {p : Predictor α} {timeout : Option α} {e : Estimator α}
    {noted : List (Entry α)}
    (h : withPredictor (some p) timeout .static = .ok (e, noted)) :
    e = .learned { predictor := some p, timeout } .static := by
  unfold withPredictor at h
  cases timeout with
  | none => exact (Prod.mk.inj (Except.ok.inj h)).1.symm
  | some limit =>
    dsimp only at h
    split at h
    · cases h
    · exact (Prod.mk.inj (Except.ok.inj h)).1.symm

theorem outcomes_fresh (p : Predictor α) (timeout : Option α) (fs : List (Features α)) :
    ({ predictor := some p, timeout } : Level α).outcomes p fs = p.outcomes timeout fs := by
  simp [Level.outcomes, Predictor.outcomes]

variable {σ : Session α} {p : Predictor α} {timeout : Option α}

theorem outcomes_of_waitFailure {e : Failure} (h : timeout.bind Level.waitFailure? = some e)
    (fs : List (Features α)) : p.outcomes timeout fs = fs.map fun _ => .failure e := by
  have hfailure : p.outcome timeout = fun _ _ => .failure e := by
    funext j f
    rw [Predictor.outcome, h]
  rw [Predictor.outcomes, hfailure]
  exact List.ext_getElem (by simp) (by simp)

theorem outcomes_of_waits (h : timeout.bind Level.waitFailure? = none) (fs : List (Features α)) :
    p.outcomes timeout fs = fs.mapIdx p.answer := by
  have hanswer : p.outcome timeout = p.answer := by
    funext j f
    rw [Predictor.outcome, h]
  rw [Predictor.outcomes, hanswer]

theorem ends_of_not_stalls {fs : List (Features α)} (h : ¬ p.Stalls timeout fs) :
    ∀ a ∈ ({ predictor := some p, timeout } : Level α).outcomes p fs, a.ends timeout = true := by
  intro a ha
  rw [outcomes_fresh] at ha
  by_contra hend
  obtain ⟨htimeout, rfl⟩ := Answer.ends_eq_false_iff.1 (Bool.eq_false_of_not_eq_true hend)
  exact h ⟨htimeout, ha⟩

/-- The estimates with a fresh predictor. -/
theorem exists_predicted (hm : machines ≠ [])
    (hσ : σ.estimator = .learned { predictor := some p, timeout } .static)
    (hstatic : ∀ f ∈ w.questions machines, staticEstimate f = .ok (f.length / f.speed))
    (hstalls : ¬ p.Stalls timeout (w.questions machines)) :
    ∃ rows σ', (estimateAll w machines).runIn σ = (.ok rows, σ') ∧
      Predicted p timeout w machines σ σ' rows := by
  have hends := ends_of_not_stalls hstalls
  have hanswers := answers_learned rfl rfl hstatic hends
  have hcells : ∀ c ∈ w.cells machines, ∃ x, staticEstimate (featuresOf c) = .ok x := fun c hc =>
    ⟨_, hstatic _ (map_featuresOf_cells w machines ▸ List.mem_map_of_mem hc)⟩
  rw [← map_featuresOf_cells] at hends
  have hnotes := notes_learned rfl rfl hcells hends
  rw [map_featuresOf_cells] at hnotes
  rw [outcomes_fresh, ← hσ] at hanswers hnotes
  obtain ⟨rows, σ', hrun, hshape, hnumbers, hσ'⟩ := estimateAll_answers hm hanswers
  have hcalls := estimateAll_notes.ok hrun
  refine ⟨rows, σ', hrun, hshape, hnumbers, ⟨_, hcalls, hnotes⟩, _, hσ', ?_, ?_, ?_⟩
  · simp [Level.afterAll, Predictor.outcomes]
  · simp [Level.afterAll]
  · simp [Level.afterAll, Level.available]

/-- A plan whose estimates do not end does not end. -/
theorem plan_endless (weights : Weights α) {σ' : Session α} (hm : machines ≠ [])
    (h : (estimateAll w machines).runIn σ = (.error .endless, σ')) :
    (plan weights w machines).runIn σ = (.error .endless, σ') := by
  have hcosts : (costTable w machines).runIn σ = (.error .endless, σ') := by
    unfold costTable
    rw [runIn_bind, h]
  rw [plan_eq weights w hm, runIn_bind, hcosts]

/-- A plan for which no prediction is taken is the plan of the static estimator. -/
theorem plan_of_none_taken (weights : Weights α)
    (hσ : σ.estimator = .learned { predictor := some p, timeout } .static)
    (hstatic : ∀ f ∈ w.questions machines, staticEstimate f = .ok (f.length / f.speed))
    (hstalls : ¬ p.Stalls timeout (w.questions machines))
    (hnone : ∀ x ∈ Answer.taken (p.outcomes timeout (w.questions machines)), x = none) :
    ((plan weights w machines).runIn σ).1 =
        ((plan weights w machines).runIn { σ with estimator := .static }).1 ∧
      ∃ l, ((plan weights w machines).runIn σ).2.estimator = .learned l .static ∧
        l.fallbacks = (w.questions machines).length := by
  by_cases hm : machines = []
  · subst hm
    exact ⟨rfl, _, hσ, by rw [w.questions_nil]; rfl⟩
  have htaken : Answer.taken (p.outcomes timeout (w.questions machines)) =
      List.replicate (w.questions machines).length none :=
    List.eq_replicate_iff.2 ⟨by simp [Answer.taken, Predictor.outcomes], hnone⟩
  have hanswers := answers_learned rfl rfl hstatic (ends_of_not_stalls hstalls)
  rw [outcomes_fresh, htaken, zipWith_getD_none, ← hσ] at hanswers
  have hstaticAnswers : ({ σ with estimator := .static } : Session α).estimator.Answers
      (w.questions machines) _ .static := Answers.static hstatic
  obtain ⟨rows, hplan, hplan'⟩ := plan_same_answers weights weights hm hanswers hstaticAnswers
  obtain ⟨_, σ', -, -, hrun, hσ'⟩ := plan_answers weights hm hanswers
  refine ⟨hplan.trans hplan'.symm, _, by rw [hrun, hσ'], ?_⟩
  simp [Level.afterAll, htaken, List.countP_replicate]

/-- A fresh predictor is asked for the feasible cells in turn, up to its first silence, and matters
for its usable answers before that only. If there are none, a plan is that of the static estimator.
A silence without a time limit has no end, and neither have the estimates and the plans. -/
theorem estimates_predicted {e : Estimator α} {noted : List (Entry α)}
    (hsetup : withPredictor (some p) timeout .static = .ok (e, noted)) (hσ : σ.estimator = e)
    (hstatic : ∀ r ∈ Estimator.static.replies (w.questions machines), ∃ x, r.result = .ok x) :
    (timeout.bind Level.waitFailure? = none →
      p.outcomes timeout (w.questions machines) = (w.questions machines).mapIdx p.answer) ∧
    (∀ failure, timeout.bind Level.waitFailure? = some failure →
      p.outcomes timeout (w.questions machines) =
        (w.questions machines).map fun _ => .failure failure) ∧
    (machines = [] → (estimateAll w machines).runIn σ = (.error (.fault .noMachines), σ)) ∧
    (machines ≠ [] → ¬ p.Stalls timeout (w.questions machines) →
      ∃ rows σ', (estimateAll w machines).runIn σ = (.ok rows, σ') ∧
        Predicted p timeout w machines σ σ' rows) ∧
    (¬ p.Stalls timeout (w.questions machines) →
      (∀ x ∈ Answer.taken (p.outcomes timeout (w.questions machines)), x = none) →
      ∀ weights : Weights α,
        ((plan weights w machines).runIn σ).1 =
            ((plan weights w machines).runIn { σ with estimator := .static }).1 ∧
          ∃ l, ((plan weights w machines).runIn σ).2.estimator = .learned l .static ∧
            l.fallbacks = (w.questions machines).length) ∧
    (p.Stalls timeout (w.questions machines) →
      ∃ σ', (estimateAll w machines).runIn σ = (.error .endless, σ') ∧
        ∀ weights : Weights α, (plan weights w machines).runIn σ = (.error .endless, σ')) := by
  rw [withPredictor_ok hsetup] at hσ
  have hstatic := staticEstimate_eq hstatic
  refine ⟨fun h => outcomes_of_waits h _, fun _ h => outcomes_of_waitFailure h _, ?_,
    fun hm hstalls => exists_predicted hm hσ hstatic hstalls,
    fun hstalls hnone weights => plan_of_none_taken weights hσ hstatic hstalls hnone,
    fun ⟨htimeout, hsilence⟩ => ?_⟩
  · rintro rfl
    rfl
  · rw [← outcomes_fresh] at hsilence
    have hquestions := stalls_learned rfl rfl hstatic htimeout hsilence
    rw [← hσ] at hquestions
    obtain ⟨σ', hrun⟩ := estimateAll_stalls hquestions
    refine ⟨σ', hrun, fun weights => plan_endless weights ?_ hrun⟩
    rintro rfl
    cases hrun

/-- The estimates of the fork with the moody predictor, of which one answer is taken. -/
theorem estimates_predicted_fork :
    ∃ rows σ' l,
      (estimateAll Sample.fork [Sample.slow, Sample.fast]).runIn Sample.asking = (.ok rows, σ') ∧
      numbersOf rows = [3, 2, 6, 3, 4] ∧ σ'.predictions.length = 4 ∧
      σ'.estimator = .learned l .static ∧ l.calls = 4 ∧ l.fallbacks = 4 ∧ l.available = false := by
  have hsetup : withPredictor (some Sample.moody) (some 5) .static =
      .ok (Sample.asking.estimator, []) := by
    rw [withPredictor, if_neg (by norm_num)]
    rfl
  have hpredicted : ∃ rows σ',
      (estimateAll Sample.fork [Sample.slow, Sample.fast]).runIn Sample.asking = (.ok rows, σ') ∧
        Predicted Sample.moody (some 5) Sample.fork [Sample.slow, Sample.fast] Sample.asking σ'
          rows :=
    (estimates_predicted hsetup rfl (static_answers (by decide +kernel))).2.2.2.1 (by simp)
      (by rintro ⟨h, -⟩; cases h)
  obtain ⟨rows, σ', hrun, h⟩ := hpredicted
  obtain ⟨l, hl, hcalls, hfallbacks, havailable⟩ := h.level
  refine ⟨rows, σ', l, hrun, ?_, ?_, hl, ?_, ?_, ?_⟩
  · rw [h.numbers]
    decide +kernel
  · obtain ⟨entries, hentries, hnoted⟩ := h.calls
    have hlength := congrArg List.length hnoted
    rw [List.length_map] at hlength
    rw [hentries, List.length_append, hlength]
    decide +kernel
  · rw [hcalls]
    decide +kernel
  · rw [hfallbacks]
    decide +kernel
  · rw [← Bool.not_eq_true, havailable]
    decide +kernel

/-- An answer that is usable is lost if the time limit is too large, though no call was silent. -/
theorem not_taken_patient :
    ((estimateAll Sample.single [Sample.twice]).runIn Sample.patient).1.toOption =
        some [[some 5]] ∧
      ((estimateAll Sample.single [Sample.twice]).runIn Sample.patient).2.estimator.levels.map
        (fun l => (l.calls, l.fallbacks, l.available)) = [(1, 1, true)] ∧
      ∀ f, ((Predictor.scripted [.value (3 : Float)]).answer 0 f).usable? = some 3 := by
  refine ⟨by decide +kernel, by decide +kernel, fun f => ?_⟩
  have husable : Level.usable (3 : Float) = true := by decide +kernel
  change (if Level.usable (3 : Float) then some (3 : Float) else none) = some 3
  rw [if_pos husable]

end Planning

end EarliestFinish
