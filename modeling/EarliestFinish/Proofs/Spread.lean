import EarliestFinish.Metrics
import EarliestFinish.Proofs.Slot
import Mathlib.Analysis.Real.Sqrt

/-!
# The spread of busy times

The figures of a load balance are three formulas with guards of their own, and they never
contradict one another. All of them come from two ways to read the sum of the squares of some
numbers:

* times their number, it is the square of their sum and what their variance adds to it
  (`length_mul_squares`), so the variance is zero exactly if the numbers are all the same;
* of numbers that are not negative, it is at most the square of their sum, and as much as that
  exactly if no two of them are positive (`squares_eq_sq_sum_iff`).

The deviation is a root, so the figures are taken in real numbers: `Roster.loadBalance_coherent`.
-/

namespace EarliestFinish

noncomputable instance : Quantity.Exact ℝ where
  decideLt := inferInstance
  decideLe := inferInstance
  belowTop _ := true
  belowTop_eq _ := rfl

noncomputable instance : SquareRoot ℝ := ⟨Real.sqrt⟩

namespace Quantity

variable {K : Type} [Exact K] {x : K} {xs : List K}

/-! ## Sums of squares -/

/-- The sum of the squares of some numbers. -/
def squares (xs : List K) : K := (xs.map fun x => x * x).sum

theorem squares_nonneg (xs : List K) : 0 ≤ squares xs :=
  List.sum_nonneg (List.forall_mem_map.2 fun x _ => mul_self_nonneg x)

theorem sum_eq_zero_iff (h : ∀ x ∈ xs, 0 ≤ x) : xs.sum = 0 ↔ ∀ x ∈ xs, x = 0 :=
  ⟨fun hsum _ hx => List.all_zero_of_le_zero_le_of_sum_eq_zero h hsum hx, List.sum_eq_zero⟩

theorem sum_pos_iff (h : ∀ x ∈ xs, 0 ≤ x) : 0 < xs.sum ↔ ∃ x ∈ xs, x ≠ 0 := by
  rw [(List.sum_nonneg h).lt_iff_ne', ne_eq, sum_eq_zero_iff h]
  push Not
  rfl

theorem squares_eq_zero_iff : squares xs = 0 ↔ ∀ x ∈ xs, x = 0 := by
  rw [squares, sum_eq_zero_iff (List.forall_mem_map.2 fun x _ => mul_self_nonneg x),
    List.forall_mem_map]
  simp only [mul_self_eq_zero]

theorem squares_pos_iff : 0 < squares xs ↔ ∃ x ∈ xs, x ≠ 0 := by
  rw [(squares_nonneg xs).lt_iff_ne', ne_eq, squares_eq_zero_iff]
  push Not
  rfl

theorem mean_pos_iff (h : ∀ x ∈ xs, 0 ≤ x) : 0 < mean xs ↔ ∃ x ∈ xs, x ≠ 0 := by
  by_cases hne : xs = []
  · subst hne
    simp [mean_eq]
  · rw [mean_eq, div_pos_iff_of_pos_right (length_pos hne), sum_pos_iff h]

/-! ## The variance -/

theorem variance_eq (xs : List K) :
    variance xs = (xs.map fun x => (x - mean xs) * (x - mean xs)).sum / xs.length := by
  rw [variance, mean_eq, List.length_map]

theorem variance_nonneg (xs : List K) : 0 ≤ variance xs :=
  mean_nonneg (List.forall_mem_map.2 fun _ _ => mul_self_nonneg _)

theorem sum_mul_self_sub (m : K) (xs : List K) : (xs.map fun x => (x - m) * (x - m)).sum =
    squares xs - 2 * m * xs.sum + xs.length * (m * m) := by
  induction xs with
  | nil => simp [squares]
  | cons x xs ih =>
    simp only [squares, List.map_cons, List.sum_cons, List.length_cons, Nat.cast_succ] at ih ⊢
    rw [ih]
    ring

/-- The sum of the squares, times the number of summands, is the square of the sum and what the
variance adds to it. -/
theorem length_mul_squares (h : xs ≠ []) :
    xs.length * squares xs = xs.sum ^ 2 + xs.length ^ 2 * variance xs := by
  have hlength := (length_pos h).ne'
  rw [variance_eq, sum_mul_self_sub, mean_eq]
  field_simp
  ring

theorem variance_eq_zero_iff : variance xs = 0 ↔ ∀ x ∈ xs, ∀ y ∈ xs, x = y := by
  by_cases hne : xs = []
  · subst hne
    simp [variance_eq]
  have hlength := (length_pos (K := K) hne).ne'
  have hmean : variance xs = 0 ↔ ∀ x ∈ xs, x = mean xs := by
    rw [variance_eq, div_eq_zero_iff, or_iff_left hlength,
      sum_eq_zero_iff (List.forall_mem_map.2 fun _ _ => mul_self_nonneg _), List.forall_mem_map]
    simp only [mul_self_eq_zero, sub_eq_zero]
  rw [hmean]
  constructor
  · intro h x hx y hy
    rw [h x hx, h y hy]
  · intro h x hx
    have hsum : xs.sum = xs.length * x := by
      rw [List.sum_eq_card_nsmul xs x fun y hy => h y hy x hx, nsmul_eq_mul]
    rw [mean_eq, hsum, mul_div_cancel_left₀ x hlength]

/-! ## Numbers that are not negative -/

theorem sq_add_sum (x : K) (xs : List K) :
    (x + xs.sum) ^ 2 = x * x + xs.sum ^ 2 + 2 * (x * xs.sum) := by
  ring

theorem squares_le_sq_sum (h : ∀ x ∈ xs, 0 ≤ x) : squares xs ≤ xs.sum ^ 2 := by
  induction xs with
  | nil => simp [squares]
  | cons x xs ih =>
    obtain ⟨hx, hxs⟩ := List.forall_mem_cons.1 h
    have hcross : 0 ≤ x * xs.sum := mul_nonneg hx (List.sum_nonneg hxs)
    calc squares (x :: xs) = x * x + squares xs := List.sum_cons
      _ ≤ x * x + xs.sum ^ 2 + 2 * (x * xs.sum) := by linarith [ih hxs]
      _ = (x :: xs).sum ^ 2 := by rw [List.sum_cons, sq_add_sum]

/-- Beside a positive number, the squares make up the square of the sum only if nothing is added to
that number. -/
theorem mul_self_add_squares_eq_iff (hpos : 0 < x) (h : ∀ y ∈ xs, 0 ≤ y) :
    x * x + squares xs = (x + xs.sum) ^ 2 ↔ xs.sum = 0 := by
  have hle := squares_le_sq_sum h
  have hcross : 0 ≤ x * xs.sum := mul_nonneg hpos.le (List.sum_nonneg h)
  rw [sq_add_sum]
  constructor
  · intro heq
    have : x * xs.sum = 0 := by linarith
    exact (mul_eq_zero.1 this).resolve_left hpos.ne'
  · intro hsum
    rw [squares_eq_zero_iff.2 ((sum_eq_zero_iff h).1 hsum), hsum]
    ring

/-- The square of a sum is more than the squares of the summands if two of them are positive. -/
theorem squares_eq_sq_sum_iff (h : ∀ x ∈ xs, 0 ≤ x) :
    squares xs = xs.sum ^ 2 ↔ xs.countP (· ≠ 0) ≤ 1 := by
  induction xs with
  | nil => simp [squares]
  | cons x xs ih =>
    obtain ⟨hx, hxs⟩ := List.forall_mem_cons.1 h
    have hsquares : squares (x :: xs) = x * x + squares xs := List.sum_cons
    rw [hsquares, List.sum_cons]
    by_cases hzero : x = 0
    · subst hzero
      simpa using ih hxs
    · -- all others must be zero
      have hcount : xs.countP (· ≠ 0) = 0 ↔ xs.sum = 0 := by
        rw [sum_eq_zero_iff hxs, List.countP_eq_zero]
        simp
      rw [List.countP_cons_of_pos (by simpa using hzero),
        mul_self_add_squares_eq_iff (hx.lt_of_ne' hzero) hxs, ← hcount]
      omega

end Quantity

/-! ## The figures -/

namespace LoadBalance

open Quantity

section Exact

variable {K : Type} [Exact K] {f v : K} {xs : List K}

theorem fairnessOf_eq (xs : List K) :
    fairnessOf xs = .ok (if 0 < xs.length * squares xs then
      xs.sum ^ 2 / (xs.length * squares xs) else 1) := by
  have hsum : total xs = xs.sum := total_eq_sum xs
  have hsquares : total (xs.map fun x => x * x) = squares xs := total_eq_sum _
  simp only [fairnessOf, hsum, hsquares, square?_eq, pow_two]
  split_ifs <;> rfl

/-- Some machine is busy and tells the fairness, or none is and the load counts as fair. -/
theorem fairness_cases (hf : fairnessOf xs = .ok f) :
    (∃ x ∈ xs, x ≠ 0) ∧ f = xs.sum ^ 2 / (xs.length * squares xs) ∨
      (∀ x ∈ xs, x = 0) ∧ f = 1 := by
  rw [fairnessOf_eq] at hf
  cases hf
  by_cases hbusy : ∃ x ∈ xs, x ≠ 0
  · obtain ⟨x, hx, -⟩ := id hbusy
    have hpos := mul_pos (length_pos (List.ne_nil_of_mem hx)) (squares_pos_iff.2 hbusy)
    exact Or.inl ⟨hbusy, if_pos hpos⟩
  · push Not at hbusy
    refine Or.inr ⟨hbusy, if_neg ?_⟩
    rw [squares_eq_zero_iff.2 hbusy, mul_zero]
    exact lt_irrefl 0

theorem one_div_le_fairness (hne : xs ≠ []) (h : ∀ x ∈ xs, 0 ≤ x) (hf : fairnessOf xs = .ok f) :
    1 / xs.length ≤ f := by
  have hlength := length_pos (K := K) hne
  obtain ⟨hbusy, rfl⟩ | ⟨-, rfl⟩ := fairness_cases hf
  · have hpos := mul_pos hlength (squares_pos_iff.2 hbusy)
    rw [div_le_div_iff₀ hlength hpos, one_mul, mul_comm (xs.sum ^ 2)]
    exact mul_le_mul_of_nonneg_left (squares_le_sq_sum h) hlength.le
  · rw [div_le_one hlength]
    exact_mod_cast List.length_pos_iff.2 hne

theorem fairness_le_one (hne : xs ≠ []) (hf : fairnessOf xs = .ok f) : f ≤ 1 := by
  obtain ⟨hbusy, rfl⟩ | ⟨-, rfl⟩ := fairness_cases hf
  · rw [div_le_one (mul_pos (length_pos hne) (squares_pos_iff.2 hbusy)), length_mul_squares hne]
    exact le_add_of_nonneg_right (mul_nonneg (sq_nonneg _) (variance_nonneg xs))
  · exact le_rfl

theorem fairness_eq_one_iff (hne : xs ≠ []) (hf : fairnessOf xs = .ok f) :
    f = 1 ↔ ∀ x ∈ xs, ∀ y ∈ xs, x = y := by
  have hlength := length_pos (K := K) hne
  obtain ⟨hbusy, rfl⟩ | ⟨hidle, rfl⟩ := fairness_cases hf
  · rw [div_eq_one_iff_eq (mul_pos hlength (squares_pos_iff.2 hbusy)).ne', length_mul_squares hne,
      left_eq_add, mul_eq_zero, or_iff_right (pow_ne_zero 2 hlength.ne'), variance_eq_zero_iff]
  · refine iff_of_true rfl fun x hx y hy => ?_
    rw [hidle x hx, hidle y hy]

/-- The load is least fair exactly if one machine has all of it. -/
theorem fairness_eq_one_div_iff (h : ∀ x ∈ xs, 0 ≤ x) (hbusy : ∃ x ∈ xs, x ≠ 0)
    (hf : fairnessOf xs = .ok f) : f = 1 / xs.length ↔ xs.countP (· ≠ 0) = 1 := by
  obtain ⟨x, hx, hxne⟩ := id hbusy
  have hlength := length_pos (K := K) (List.ne_nil_of_mem hx)
  have hpos := mul_pos hlength (squares_pos_iff.2 hbusy)
  have hcount : 0 < xs.countP (· ≠ 0) := List.countP_pos_iff.2 ⟨x, hx, by simpa using hxne⟩
  obtain ⟨-, rfl⟩ | ⟨hidle, -⟩ := fairness_cases hf
  · rw [div_eq_div_iff hpos.ne' hlength.ne', one_mul, mul_comm (xs.sum ^ 2),
      mul_right_inj' hlength.ne', eq_comm, squares_eq_sq_sum_iff h]
    omega
  · exact absurd (hidle x hx) hxne

theorem one_le_imbalance (hne : xs ≠ []) (hv : imbalanceOf xs = .ratio v) : 1 ≤ v := by
  unfold imbalanceOf at hv
  split_ifs at hv with hlowest
  · cases hv
    rw [one_le_div₀ hlowest]
    exact lowest_le (highest_mem hne)
  · cases hv
    exact le_rfl

theorem imbalanceOf_eq_unbounded_iff (hne : xs ≠ []) (h : ∀ x ∈ xs, 0 ≤ x) :
    imbalanceOf xs = .unbounded ↔ (∃ x ∈ xs, x = 0) ∧ ∃ x ∈ xs, x ≠ 0 := by
  have hlowest : ¬ 0 < lowest xs ↔ ∃ x ∈ xs, x = 0 := by
    rw [not_lt]
    constructor
    · exact fun hle => ⟨_, lowest_mem hne, hle.antisymm (h _ (lowest_mem hne))⟩
    · rintro ⟨x, hx, rfl⟩
      exact lowest_le hx
  have hhighest : 0 < highest xs ↔ ∃ x ∈ xs, x ≠ 0 := by
    constructor
    · exact fun hlt => ⟨_, highest_mem hne, hlt.ne'⟩
    · rintro ⟨x, hx, hxne⟩
      exact ((h x hx).lt_of_ne' hxne).trans_le (le_highest hx)
  rw [← hlowest, ← hhighest, imbalanceOf]
  split_ifs with hl hh
  · simp [hl]
  · simp [hl, hh]
  · simp [hh]

theorem highest_eq_lowest_iff (hne : xs ≠ []) :
    highest xs = lowest xs ↔ ∀ x ∈ xs, ∀ y ∈ xs, x = y := by
  refine ⟨fun heq x hx y hy => ?_, fun h => h _ (highest_mem hne) _ (lowest_mem hne)⟩
  have hle : highest xs ≤ lowest xs := heq.le
  exact ((le_highest hx).trans (hle.trans (lowest_le hy))).antisymm
    ((le_highest hy).trans (hle.trans (lowest_le hx)))

theorem imbalanceOf_eq_one_iff (hne : xs ≠ []) (h : ∀ x ∈ xs, 0 ≤ x) :
    imbalanceOf xs = .ratio 1 ↔ ∀ x ∈ xs, ∀ y ∈ xs, x = y := by
  have hbelow : lowest xs ≤ highest xs := lowest_le (highest_mem hne)
  rw [← highest_eq_lowest_iff hne, imbalanceOf]
  split_ifs with hlowest hhighest
  · rw [Imbalance.ratio.injEq, div_eq_one_iff_eq hlowest.ne']
  · refine iff_of_false nofun fun heq => hlowest ?_
    rwa [← heq]
  · refine iff_of_true rfl (le_antisymm ?_ hbelow)
    exact (not_lt.1 hhighest).trans (h _ (lowest_mem hne))

end Exact

section Real

variable {f : ℝ} {xs : List ℝ}

theorem variationOf_eq_zero_iff (h : ∀ x ∈ xs, 0 ≤ x) :
    variationOf xs = 0 ↔ ∀ x ∈ xs, ∀ y ∈ xs, x = y := by
  unfold variationOf
  split_ifs with hmean
  · rw [div_eq_zero_iff, or_iff_left hmean.ne', ← variance_eq_zero_iff]
    exact Real.sqrt_eq_zero (variance_nonneg xs)
  · rw [mean_pos_iff h] at hmean
    push Not at hmean
    refine iff_of_true rfl fun x hx y hy => ?_
    rw [hmean x hx, hmean y hy]

theorem variationOf_sq (h : ∀ x ∈ xs, 0 ≤ x) (hbusy : ∃ x ∈ xs, x ≠ 0) :
    variationOf xs ^ 2 = variance xs / mean xs ^ 2 := by
  have hroot : deviation xs ^ 2 = variance xs := Real.sq_sqrt (variance_nonneg xs)
  rw [variationOf, if_pos ((mean_pos_iff h).2 hbusy), div_pow, hroot]

/-- The variation and the fairness of a load tell each other. -/
theorem variation_mul_fairness (h : ∀ x ∈ xs, 0 ≤ x) (hbusy : ∃ x ∈ xs, x ≠ 0)
    (hf : fairnessOf xs = .ok f) : (1 + variationOf xs ^ 2) * f = 1 := by
  obtain ⟨x, hx, hxne⟩ := id hbusy
  have hne : xs ≠ [] := List.ne_nil_of_mem hx
  have hlength := (length_pos (K := ℝ) hne).ne'
  have hsum := ((sum_pos_iff h).2 hbusy).ne'
  obtain ⟨-, rfl⟩ | ⟨hidle, -⟩ := fairness_cases hf
  · have hsquares := (mul_pos (length_pos hne) (squares_pos_iff.2 hbusy)).ne'
    rw [length_mul_squares hne] at hsquares ⊢
    have hvariation : 1 + variationOf xs ^ 2 =
        (xs.sum ^ 2 + xs.length ^ 2 * variance xs) / xs.sum ^ 2 := by
      rw [variationOf_sq h hbusy, mean_eq]
      field_simp
    rw [hvariation, div_mul_div_cancel₀ (pow_ne_zero 2 hsum), div_self hsquares]
  · exact absurd (hidle x hx) hxne

end Real

/-! ## Load balances -/

/-- The busy times of the machines. -/
def times {α : Type} (load : LoadBalance α) : List α := load.busy.map Prod.snd

/-- The figures of a load balance stay within their bounds and tell the same of the busy times. -/
structure Coherent (load : LoadBalance ℝ) : Prop where
  one_div_le_fairness : 1 / load.times.length ≤ load.fairness
  fairness_le_one : load.fairness ≤ 1
  one_le_imbalance : ∀ x, load.imbalance = .ratio x → 1 ≤ x
  /-- There is no bound if some machine is never busy while another is. -/
  unbounded_iff : load.imbalance = .unbounded ↔
    (∃ x ∈ load.times, x = 0) ∧ ∃ x ∈ load.times, x ≠ 0
  /-- Each figure tells whether all machines are busy for the same time. -/
  even : List.TFAE [load.fairness = 1, load.imbalance = .ratio 1, load.variation = 0,
    ∀ x ∈ load.times, ∀ y ∈ load.times, x = y]
  /-- The load is least fair if one machine has all of it. -/
  lone_iff : (∃ x ∈ load.times, x ≠ 0) →
    (load.fairness = 1 / load.times.length ↔ load.times.countP (· ≠ 0) = 1)
  variation_mul_fairness : (∃ x ∈ load.times, x ≠ 0) →
    (1 + load.variation ^ 2) * load.fairness = 1

theorem coherent {load : LoadBalance ℝ} (hne : load.times ≠ []) (h : ∀ x ∈ load.times, 0 ≤ x)
    (hfairness : fairnessOf load.times = .ok load.fairness)
    (himbalance : load.imbalance = imbalanceOf load.times)
    (hvariation : load.variation = variationOf load.times) : load.Coherent where
  one_div_le_fairness := LoadBalance.one_div_le_fairness hne h hfairness
  fairness_le_one := LoadBalance.fairness_le_one hne hfairness
  one_le_imbalance x hx := LoadBalance.one_le_imbalance hne (himbalance ▸ hx)
  unbounded_iff := himbalance ▸ imbalanceOf_eq_unbounded_iff hne h
  even := by
    rw [himbalance, hvariation]
    tfae_have 1 ↔ 4 := fairness_eq_one_iff hne hfairness
    tfae_have 2 ↔ 4 := imbalanceOf_eq_one_iff hne h
    tfae_have 3 ↔ 4 := variationOf_eq_zero_iff h
    tfae_finish
  lone_iff hbusy := fairness_eq_one_div_iff h hbusy hfairness
  variation_mul_fairness hbusy := hvariation ▸ LoadBalance.variation_mul_fairness h hbusy hfairness

end LoadBalance

namespace Roster

open LoadBalance

theorem values_busy {α : Type} [Quantity α] (r : Roster α) :
    r.busy.map Prod.snd = r.values.map Lane.busyTime := by
  simp [busy, Table.values, Function.comp_def]

theorem loadBalance_ok {K : Type} [Quantity.Exact K] [SquareRoot K] {r : Roster K} {f : K}
    (hf : fairnessOf (r.busy.map Prod.snd) = .ok f) :
    r.loadBalance = .ok ⟨r.busy, variationOf (r.busy.map Prod.snd),
      imbalanceOf (r.busy.map Prod.snd), f⟩ := by
  rw [loadBalance, hf]
  rfl

/-- If no event ends before it starts, the figures of the load balance are within their bounds and
tell the same of the busy times. -/
theorem loadBalance_coherent (r : Roster ℝ) (hne : r.entries ≠ [])
    (hforward : ∀ e ∈ r.events, e.start ≤ e.finish) :
    ∃ load, r.loadBalance = .ok load ∧
      load.busy = r.entries.map (fun (m, events) => (m, (events.map Event.length).sum)) ∧
      load.Coherent := by
  have hf := fairnessOf_eq (r.busy.map Prod.snd)
  refine ⟨_, loadBalance_ok hf, ?_, coherent ?_ ?_ hf rfl rfl⟩
  · exact List.map_congr_left fun p _ => congrArg (Prod.mk p.1) (Lane.busyTime_eq_sum p.2)
  · simpa [times, busy] using hne
  · show ∀ x ∈ r.busy.map Prod.snd, 0 ≤ x
    rw [values_busy]
    refine List.forall_mem_map.2 fun events hevents => Lane.busyTime_nonneg fun e he => ?_
    exact hforward e (List.mem_flatten.2 ⟨events, hevents, he⟩)

end Roster

namespace Sample

/-- Three machines, one of which does all the work, while another has a task that takes no time. -/
noncomputable def lone : Roster ℝ :=
  ⟨[(3, [⟨0, 0, 2, 3⟩, ⟨1, 3, 6, 3⟩]), (1, [⟨2, 4, 4, 1⟩]), (2, [])]⟩

end Sample

namespace Roster

theorem loadBalance_coherent_lone :
    Sample.lone.entries ≠ [] ∧ (∀ e ∈ Sample.lone.events, e.start ≤ e.finish) ∧
      ∃ load, Sample.lone.loadBalance = .ok load ∧ load.Coherent ∧ load.times = [5, 0, 0] ∧
        load.imbalance = .unbounded ∧ load.fairness = 1 / 3 ∧ load.variation ^ 2 = 2 := by
  have hne : Sample.lone.entries ≠ [] := List.cons_ne_nil _ _
  have hforward : ∀ e ∈ Sample.lone.events, e.start ≤ e.finish := by
    simp [Sample.lone, events, Table.values]
    norm_num
  obtain ⟨load, hload, hbusy, hcoherent⟩ := loadBalance_coherent Sample.lone hne hforward
  have htimes : load.times = [5, 0, 0] := by
    simp [LoadBalance.times, hbusy, Sample.lone, Event.length]
    norm_num
  have hsome : ∃ x ∈ load.times, x ≠ 0 := by simp [htimes]
  have hfairness : load.fairness = 1 / 3 := by
    have := (hcoherent.lone_iff hsome).2 (by simp [htimes])
    simpa [htimes] using this
  have hvariation := hcoherent.variation_mul_fairness hsome
  rw [hfairness] at hvariation
  refine ⟨hne, hforward, load, hload, hcoherent, htimes, ?_, hfairness, by linarith⟩
  exact hcoherent.unbounded_iff.2 (by simp [htimes])

end Roster

end EarliestFinish
