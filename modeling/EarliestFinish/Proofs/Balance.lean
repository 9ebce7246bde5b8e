import EarliestFinish.Proofs.History

/-!
# Pure load balancing

If the finish time has no weight and every task fits on every machine, then a task goes to a machine
that has worked least so far. The workloads of any two machines therefore never differ by more than
the longest of the durations that were chosen: the machine that gets a task was behind all others
before, and is ahead of them by this task at most afterwards.

`Allocation.Balanced` is this bound with what it takes to keep it, `Balanced.place` keeps it in one
placement, and `Planning.plan_even` states it of every point of a plan.
-/

namespace EarliestFinish

namespace Quantity

variable {b : Rat} {xs : List Rat}

/-- A bound on all differences is a bound on the difference of the highest and the lowest. -/
theorem highest_sub_lowest_le (hb : 0 ≤ b) (h : ∀ x ∈ xs, ∀ y ∈ xs, x - y ≤ b) :
    highest xs - lowest xs ≤ b := by
  by_cases hne : xs = []
  · subst hne
    exact (sub_self (0 : Rat)).trans_le hb
  · exact h _ (highest_mem hne) _ (lowest_mem hne)

end Quantity

namespace Allocation

open Quantity

variable {w : Workflow Rat} {machines : List (Machine Rat)} {weights : Weights Rat}
  {c : CostTable Rat} {a b : Allocation Rat} {t : Int} {ts : List Int} {m : Nat}

/-- The durations of the placements that were made. -/
def chosen (c : CostTable Rat) (a : Allocation Rat) : List Rat :=
  a.events.map fun e => c.duration e.task e.machine.toNat

/-- No workload is ahead of another by more than the longest duration that was chosen. -/
def Even (c : CostTable Rat) (a : Allocation Rat) : Prop :=
  highest a.workload - lowest a.workload ≤ largestOr 0 (a.chosen c)

/-- A consistent allocation in which no machine is further ahead of another than the longest
duration that was chosen. -/
structure Balanced (c : CostTable Rat) (n : Nat) (a : Allocation Rat) : Prop where
  consistent : a.Consistent c n
  chosen_nonneg : 0 ≤ largestOr 0 (a.chosen c)
  ahead : ∀ j < n, ∀ k < n, a.load j - a.load k ≤ largestOr 0 (a.chosen c)

theorem balanced_empty (c : CostTable Rat) (n : Nat) : (empty n).Balanced c n where
  consistent := consistent_empty c n
  chosen_nonneg := le_refl (0 : Rat)
  ahead j hj k hk := by simp [empty, load, hj, hk, chosen, events, largestOr, largest?]

theorem Balanced.even {n : Nat} (h : a.Balanced c n) : a.Even c := by
  refine highest_sub_lowest_le h.chosen_nonneg fun x hx y hy => ?_
  obtain ⟨j, hj, rfl⟩ := List.mem_iff_getElem.1 hx
  obtain ⟨k, hk, rfl⟩ := List.mem_iff_getElem.1 hy
  have := h.ahead j (h.consistent.loads ▸ hj) k (h.consistent.loads ▸ hk)
  rwa [load, load, List.getElem?_eq_getElem hj, List.getElem?_eq_getElem hk] at this

/-- If only the workload counts, a task goes to the candidate that has worked least. -/
theorem place_leastLoad (halpha : weights.alpha = 0) (hne : a.candidates c t ≠ [])
    (hb : a.place w c weights t = .ok b) :
    ∃ m ∈ a.candidates c t, ∃ ready score, b = a.commit t m ready (c.duration t m) score ∧
      ∀ k ∈ a.candidates c t, a.load m ≤ a.load k := by
  obtain ⟨m, hm, o, ho, rfl, hbest⟩ := place_choice hne hb
  refine ⟨m, hm, o.ready, some o.score, rfl, fun k hk => ?_⟩
  obtain ⟨o', ho', hle, -⟩ := hbest k hk
  obtain ⟨ready, -, rfl⟩ := offer_ok ho
  obtain ⟨ready', -, rfl⟩ := offer_ok ho'
  have hbeta : 0 < weights.beta := by
    have := not_le.1 weights.sum_pos
    rwa [halpha, zero_add] at this
  simp only [Weights.score, halpha, zero_mul, zero_add] at hle
  exact le_of_mul_le_mul_left hle hbeta

theorem chosen_commit {n : Nat} (h : a.Consistent c n) (hm : m < n) (ready duration : Rat)
    (score : Option Rat) :
    (a.commit t m ready duration score).chosen c = a.chosen c ++ [c.duration t m] := by
  have hmachine : ((a.lane m).offer t ready duration).machine.toNat = m := by
    rw [Lane.offer, Lane.eventAt, h.aligned.machine_lane hm]
    rfl
  rw [chosen, events_commit, List.map_append, List.map_singleton, hmachine]
  rfl

theorem Balanced.place (hne : machines ≠ []) (hc : c.Describes (0 ≤ ·) w machines)
    (halpha : weights.alpha = 0)
    (hfits : ∀ task ∈ w.tasks, ∀ machine ∈ machines, machine.fits task = true)
    (h : a.Balanced c machines.length) (ht : w.Holds t) (hb : a.place w c weights t = .ok b) :
    b.Balanced c machines.length := by
  have hlanes := h.consistent.aligned.lanes_length
  have hcandidate : ∀ k < machines.length, k ∈ a.candidates c t := fun k hk =>
    mem_candidates.2 ⟨hlanes ▸ hk, fun _ => hc.feasible_of_fits hfits ht hk⟩
  have hconsistent := h.consistent.place hne hc ht hb
  obtain ⟨m, hm, ready, score, rfl, hleast⟩ :=
    place_leastLoad halpha (candidates_ne_nil hne hc hlanes t) hb
  have hlt : m < machines.length := hlanes ▸ (mem_candidates.1 hm).1
  have hload : m < a.workload.length := h.consistent.loads ▸ hlt
  have hchosen := chosen_commit (t := t) h.consistent hlt ready (c.duration t m) score
  -- the longest duration is not shorter than before, nor than the new one
  have hnew : c.duration t m ≤ largestOr 0 (a.chosen c ++ [c.duration t m]) :=
    le_largestOr 0 (by simp)
  have hnonneg : 0 ≤ largestOr 0 (a.chosen c ++ [c.duration t m]) :=
    (hc.duration_nonneg t m).trans hnew
  have hold : largestOr 0 (a.chosen c) ≤ largestOr 0 (a.chosen c ++ [c.duration t m]) :=
    largestOr_le hnonneg fun x hx => le_largestOr 0 (List.mem_append_left _ hx)
  refine ⟨hconsistent, by rwa [hchosen], fun j hj k hk => ?_⟩
  rw [hchosen]
  have hbefore := h.ahead j hj k hk
  by_cases hjm : m = j
  · by_cases hkm : m = k
    · rw [← hjm, ← hkm, sub_self]
      exact hnonneg
    · have := hleast k (hcandidate k hk)
      rw [← hjm, load_commit_self hload, load_commit_of_ne hkm]
      linarith
  · by_cases hkm : m = k
    · have := hc.duration_nonneg t m
      rw [← hkm] at hbefore ⊢
      rw [load_commit_of_ne hjm, load_commit_self hload]
      linarith
    · rw [load_commit_of_ne hjm, load_commit_of_ne hkm]
      exact hbefore.trans hold

/-- A run of placements. -/
theorem Balanced.placeAll (hne : machines ≠ []) (hc : c.Describes (0 ≤ ·) w machines)
    (halpha : weights.alpha = 0)
    (hfits : ∀ task ∈ w.tasks, ∀ machine ∈ machines, machine.fits task = true)
    (h : a.Balanced c machines.length) (hold : ∀ t ∈ ts, w.Holds t)
    (hb : a.placeAll w c weights ts = .ok b) : b.Balanced c machines.length :=
  placeAll_induction (I := fun _ b => b.Balanced c machines.length) []
    (fun _ t _ _ ht h hb => h.place hne hc halpha hfits (hold t ht) hb) h hb

end Allocation

namespace Planning

variable {weights : Weights Rat} {w : Workflow Rat} {machines : List (Machine Rat)}
  {σ σ' : Session Rat} {s : Schedule Rat}

/-- If the finish time has no weight and every task fits on every machine, then the allocation is
even at every point of a plan. -/
theorem plan_even (h : (plan weights w machines).runIn σ = (.ok s, σ'))
    (halpha : weights.alpha = 0)
    (hfits : ∀ task ∈ w.tasks, ∀ machine ∈ machines, machine.fits task = true)
    (hestimates : ∀ r ∈ σ.estimator.replies (w.questions machines),
      ∀ x, r.result = .ok x → 0 ≤ x) :
    (∀ before after, s.order = before ++ after →
      ∃ a, (Allocation.empty machines.length).placeAll w s.costs weights before = .ok a ∧
        a.placeAll w s.costs weights after = .ok s.allocation ∧ a.tasks = before ∧
        a.Even s.costs) ∧
      s.allocation.Even s.costs := by
  obtain ⟨hne, hplanned, hc, -⟩ := plan_exact h hestimates
  have heven {ts : List Int} {a : Allocation Rat} (hts : ∀ t ∈ ts, t ∈ s.order)
      (ha : (Allocation.empty machines.length).placeAll w s.costs weights ts = .ok a) :
      a.Even s.costs :=
    ((Allocation.balanced_empty _ _).placeAll hne hc halpha hfits
      (fun t ht => hplanned.holds (hts t ht)) ha).even
  refine ⟨fun before after hsplit => ?_, heven (fun _ ht => ht) hplanned.allocation_ok⟩
  have hall := hplanned.allocation_ok
  rw [hsplit] at hall
  obtain ⟨a, ha, hafter⟩ := Allocation.placeAll_append_ok.1 hall
  refine ⟨a, ha, hafter, Allocation.tasks_placeAll ha, heven (fun t ht => ?_) ha⟩
  rw [hsplit]
  exact List.mem_append_left _ ht

/-- The fork on two machines with two cores, one of them twice as fast as the other. -/
theorem plan_even_fork :
    ∃ s σ', (plan Sample.level Sample.fork [Sample.wide, Sample.fast]).runIn {} = (.ok s, σ') ∧
      s.allocation.workload = [10, 4] ∧ s.allocation.Even s.costs := by
  obtain ⟨s, σ', hrun, hworkload⟩ := exists_runIn_of_map
    (show ((plan Sample.level Sample.fork [Sample.wide, Sample.fast]).runIn {}).1.toOption.map
      (fun s => s.allocation.workload) = some [10, 4] by decide +kernel)
  exact ⟨s, σ', hrun, hworkload, (plan_even hrun rfl (by decide +kernel)
    (static_nonneg (by decide +kernel) (by decide +kernel))).2⟩

end Planning

end EarliestFinish
