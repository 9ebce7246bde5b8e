import EarliestFinish.Proofs.Choice
import EarliestFinish.Proofs.Costs

/-!
# Placing the tasks of an order

What a run of placements does to an allocation. Every task gets its event. If the tasks come behind
their parents, then no task is asked about before its parents have their places
(`exists_readyTime_of_tasks`) and no placement fails (`exists_placeAll`).

Nothing is assumed of the numbers.
-/

namespace EarliestFinish
namespace Allocation

/-- The events of an allocation, in the order in which they were placed. -/
def events {α : Type} (a : Allocation α) : List (Event α) := a.placements.map Placement.event

/-- The tasks that have a place, in the order in which they were placed. -/
def tasks {α : Type} (a : Allocation α) : List Int := a.events.map Event.task

theorem keys_scheduleOf {α : Type} (a : Allocation α) :
    (scheduleOf a.placements).keys = a.tasks := by
  simp [scheduleOf, Table.keys, tasks, events, Function.comp_def]

variable {α : Type} [Quantity α] {w : Workflow α} {c : CostTable α} {weights : Weights α}
  {a b : Allocation α} {t : Int} {ts us : List Int} {m k : Nat} {ready duration : α}
  {score : Option α}

theorem events_commit (a : Allocation α) (t : Int) (m : Nat) (ready duration : α)
    (score : Option α) :
    (a.commit t m ready duration score).events = a.events ++ [(a.lane m).offer t ready duration] :=
  List.map_append

theorem lane_commit_self (hm : m < a.lanes.length) :
    (a.commit t m ready duration score).lane m = (a.lane m).commit t ready duration := by
  simp [lane, commit, List.getElem?_eq_getElem hm]

theorem lane_commit_of_ne (hk : m ≠ k) :
    (a.commit t m ready duration score).lane k = a.lane k := by
  simp [lane, commit, List.getElem?_modify_ne, hk]

theorem load_commit_self (hm : m < a.workload.length) :
    (a.commit t m ready duration score).load m = a.load m + duration := by
  simp [load, commit, List.getElem?_eq_getElem hm]

theorem load_commit_of_ne (hk : m ≠ k) :
    (a.commit t m ready duration score).load k = a.load k := by
  simp [load, commit, List.getElem?_modify_ne, hk]

omit [Quantity α] in
theorem mem_candidates :
    k ∈ a.candidates c t ↔
      k < a.lanes.length ∧ (c.fitsSomewhere t = true → c.feasible t k = true) := by
  simp only [candidates, List.mem_filter, List.mem_range, Bool.or_eq_true, Bool.not_eq_true',
    ← Bool.not_eq_true, imp_iff_not_or]

/-- There is a machine to go to. -/
theorem candidates_ne_nil {P : α → Prop} {machines : List (Machine α)} (hm : machines ≠ [])
    (hc : c.Describes P w machines) (ha : a.lanes.length = machines.length) (t : Int) :
    a.candidates c t ≠ [] := by
  have hpos := List.length_pos_of_ne_nil hm
  by_cases hfits : c.fitsSomewhere t = true
  · obtain ⟨x, hx, hsome⟩ := List.any_eq_true.1 hfits
    obtain ⟨k, hk⟩ := List.mem_iff_getElem?.1 hx
    have hfeasible : c.feasible t k = true := by
      rw [CostTable.feasible, hk]
      exact hsome
    cases ht : w.task? t with
    | none =>
      rw [hc.rowOf_eq_nil ht] at hx
      cases hx
    | some task =>
      have hlt := hc.lt_of_feasible ht hfeasible
      exact List.ne_nil_of_mem (mem_candidates.2 ⟨ha ▸ hlt, fun _ => hfeasible⟩)
  · exact List.ne_nil_of_mem (mem_candidates.2 ⟨ha ▸ hpos, fun h => absurd h hfits⟩)

theorem placeAll_append_ok :
    a.placeAll w c weights (ts ++ us) = .ok b ↔
      ∃ a', a.placeAll w c weights ts = .ok a' ∧ a'.placeAll w c weights us = .ok b := by
  induction ts generalizing a with
  | nil => simp [placeAll]
  | cons t ts ih =>
    rw [List.cons_append]
    constructor
    · intro h
      obtain ⟨a₁, h₁, h⟩ := bind_ok_iff.1 h
      obtain ⟨a₂, h₂, h⟩ := ih.1 h
      exact ⟨a₂, bind_ok_iff.2 ⟨a₁, h₁, h₂⟩, h⟩
    · rintro ⟨a₂, h₂, h⟩
      obtain ⟨a₁, h₁, h₂⟩ := bind_ok_iff.1 h₂
      exact bind_ok_iff.2 ⟨a₁, h₁, ih.2 ⟨a₂, h₂, h⟩⟩

/-- What a placement keeps, a run of placements keeps. -/
theorem placeAll_induction {I : List Int → Allocation α → Prop} (done : List Int)
    (hstep : ∀ done t a b, t ∈ ts → I done a → a.place w c weights t = .ok b → I (done ++ [t]) b)
    (ha : I done a) (h : a.placeAll w c weights ts = .ok b) : I (done ++ ts) b := by
  induction ts generalizing done a with
  | nil =>
    cases h
    rwa [List.append_nil]
  | cons t ts ih =>
    obtain ⟨a', ha', h⟩ := bind_ok_iff.1 h
    have := ih _ (fun done u a b hu => hstep done u a b (List.mem_cons_of_mem _ hu))
      (hstep done t a a' List.mem_cons_self ha ha') h
    simpa using this

/-- A change of allocations that every placement goes along with, a run of placements goes along
with. -/
theorem placeAll_map {w' : Workflow α} {c' : CostTable α} {weights' : Weights α}
    {φ : Allocation α → Allocation α} {I : Allocation α → Prop}
    (hplace : ∀ t ∈ ts, ∀ a, I a → (φ a).place w' c' weights' t = φ <$> a.place w c weights t)
    (hkeep : ∀ t a b, I a → a.place w c weights t = .ok b → I b) (ha : I a) :
    (φ a).placeAll w' c' weights' ts = φ <$> a.placeAll w c weights ts := by
  induction ts generalizing a with
  | nil => rfl
  | cons t ts ih =>
    obtain ⟨ht, hts⟩ := List.forall_mem_cons.1 hplace
    rw [placeAll, placeAll, ht a ha]
    cases hb : a.place w c weights t with
    | error f => rfl
    | ok b => exact ih hts (hkeep t a b ha hb)

/-- What is placed stays, and what comes after it are the tasks of the run. -/
theorem placements_placeAll (h : a.placeAll w c weights ts = .ok b) :
    ∃ later, b.placements = a.placements ++ later ∧
      later.map (fun p => p.event.task) = ts := by
  refine placeAll_induction (I := fun done b =>
    ∃ later, b.placements = a.placements ++ later ∧
      later.map (fun p => p.event.task) = done) [] ?_ ⟨[], by simp⟩ h
  rintro done t a' b - ⟨later, ha', rfl⟩ hb
  obtain ⟨m, ready, score, rfl⟩ := place_ok hb
  refine ⟨later ++ [⟨(a'.lane m).offer t ready (c.duration t m), score⟩], ?_, ?_⟩
  · rw [← List.append_assoc, ← ha']
    rfl
  · rw [List.map_append]
    rfl

theorem tasks_placeAll (h : a.placeAll w c weights ts = .ok b) : b.tasks = a.tasks ++ ts := by
  obtain ⟨later, hb, rfl⟩ := placements_placeAll h
  simp [tasks, events, hb, Function.comp_def]

/-- The event of a task does not change. -/
theorem get?_placeAll (h : a.placeAll w c weights ts = .ok b) (ht : t ∈ a.tasks) :
    (scheduleOf b.placements).get? t = (scheduleOf a.placements).get? t := by
  obtain ⟨later, hb, -⟩ := placements_placeAll h
  obtain ⟨e, he⟩ : ∃ e, (scheduleOf a.placements).get? t = some e :=
    Table.exists_get? (by rwa [keys_scheduleOf])
  rw [he, scheduleOf, Table.get?, hb, List.map_append, Table.lookup_append]
  unfold scheduleOf Table.get? at he
  rw [he]
  rfl

theorem filter_insertIdx {β : Type} {q : β → Bool} {x : β} (hx : q x = false) (xs : List β)
    (i : Nat) : (xs.insertIdx i x).filter q = xs.filter q := by
  induction xs generalizing i with
  | nil => cases i <;> simp [hx]
  | cons y ys ih =>
    cases i with
    | zero => simp [hx]
    | succ i => simp [List.insertIdx_succ_cons, List.filter_cons, ih]

theorem filter_lane_commit {q : Event α → Bool}
    (hq : q ((a.lane m).offer t ready duration) = false) (k : Nat) :
    ((a.commit t m ready duration score).lane k).events.filter q = (a.lane k).events.filter q := by
  by_cases hkm : m = k
  · subst hkm
    by_cases hm : m < a.lanes.length
    · rw [lane_commit_self hm]
      exact filter_insertIdx hq ..
    · have : a.lanes.modify m (fun lane => lane.commit t ready duration) = a.lanes :=
        List.modify_eq_self (not_lt.1 hm)
      rw [lane, commit, this]
      rfl
  · rw [lane_commit_of_ne hkm]

/-- The events of the tasks that had a place before keep their order in every lane. -/
theorem filter_lane_placeAll {before : List Int} (hts : ∀ t ∈ ts, t ∉ before)
    (h : a.placeAll w c weights ts = .ok b) (k : Nat) :
    (b.lane k).events.filter (fun e => e.task ∈ before) =
      (a.lane k).events.filter fun e => e.task ∈ before := by
  refine placeAll_induction (I := fun _ b =>
    (b.lane k).events.filter (fun e => e.task ∈ before) =
      (a.lane k).events.filter fun e => e.task ∈ before) [] ?_ rfl h
  rintro done t a' b ht ha' hb
  obtain ⟨m, ready, score, rfl⟩ := place_ok hb
  rw [filter_lane_commit (decide_eq_false (hts t ht)), ha']

/-- A task whose parents have places is ready at some time on every machine. -/
theorem exists_readyTime_of_tasks (ht : w.Holds t)
    (h : ∀ p ∈ w.parentsOf t, w.Holds p ∧ p ∈ a.tasks) (machine : Int) :
    ∃ x, readyTime w c (scheduleOf a.placements) t machine = .ok x := by
  refine exists_readyTime ht fun p hp => ⟨(h p hp).1, ?_⟩
  refine Table.exists_get? ?_
  rw [keys_scheduleOf]
  exact (h p hp).2

/-- Tasks that come behind their parents can all be placed. -/
theorem exists_placeAll (horder : LinkOrdered w.parentsOf (a.tasks ++ ts))
    (hold : ∀ t ∈ a.tasks ++ ts, w.Holds t) : ∃ b, a.placeAll w c weights ts = .ok b := by
  induction ts generalizing a with
  | nil => exact ⟨a, rfl⟩
  | cons t ts ih =>
    have hparents : ∀ p ∈ w.parentsOf t, w.Holds p ∧ p ∈ a.tasks := fun p hp =>
      have hmem := horder a.tasks t ts rfl p hp
      ⟨hold p (List.mem_append_left _ hmem), hmem⟩
    obtain ⟨b, hb⟩ : ∃ b, a.place w c weights t = .ok b :=
      exists_place fun m => exists_readyTime_of_tasks (hold t (by simp)) hparents m
    have hsingle : a.placeAll w c weights [t] = .ok b := bind_ok_iff.2 ⟨b, hb, rfl⟩
    have htasks : b.tasks = a.tasks ++ [t] := tasks_placeAll hsingle
    -- what has its place and what is still to come make up the same list
    obtain ⟨b', hb'⟩ := ih (a := b) (by simpa [htasks] using horder) (by simpa [htasks] using hold)
    exact ⟨b', bind_ok_iff.2 ⟨b, hb, hb'⟩⟩

end Allocation
end EarliestFinish
