import EarliestFinish.Quantity.Sum
import Mathlib.Tactic

/-!
# Exact quantities

A quantity type is *exact* if it is an ordered field. Over such a type the operations are what they
are called: `larger` is the maximum, both ways to add up a list give its sum, and no number of a
list is above its `highest` or its `largestOr`, or below its `lowest`.
-/

namespace EarliestFinish
namespace Quantity

/-- A quantity type that is an ordered field, without a top. -/
class Exact (K : Type) extends Field K, LinearOrder K, IsStrictOrderedRing K, Quantity K where
  belowTop_eq (x : K) : belowTop x = true

-- a field finds its own instances first, and these only where nothing else is known of the type
attribute [instance (low)] Exact.toField Exact.toLinearOrder Exact.toIsStrictOrderedRing
  Exact.toQuantity

instance : Exact Rat where
  decideLt := inferInstance
  decideLe := inferInstance
  belowTop _ := true
  belowTop_eq _ := rfl

variable {K : Type} [Exact K] {x y b : K} {xs : List K}

theorem isFinite_eq (x : K) : isFinite x = true := by
  unfold isFinite
  rw [Bool.and_eq_true]
  exact ⟨Exact.belowTop_eq x, Exact.belowTop_eq _⟩

/-- No square is too large. -/
theorem square?_eq (x : K) : square? x = some (x * x) := by
  simp [square?, isFinite_eq]

theorem larger_eq_max (x y : K) : larger x y = max x y := by
  unfold larger
  grind

theorem maximum_eq_max (x y : K) : maximum x y = max x y := by
  unfold maximum
  grind

theorem minimum_eq_min (x y : K) : minimum x y = min x y := by
  unfold minimum
  grind

theorem running_eq_sum (xs : List K) : running xs = xs.sum := List.sum_eq_foldl.symm

theorem Octet.deal_sum (r : Octet K) (xs : List K) :
    (r.deal xs).1.sum + (r.deal xs).2.sum = r.sum + xs.sum := by
  fun_induction Octet.deal r xs with
  | case1 r a b c d e f g h xs ih =>
    rw [ih]
    simp only [Octet.sum, List.sum_cons]
    ring
  | case2 => rfl

theorem stretchSum_eq_sum (xs : List K) : stretchSum xs = xs.sum := by
  unfold stretchSum
  split
  · next a b c d e f g h xs =>
    have hdeal := Octet.deal_sum ⟨a, b, c, d, e, f, g, h⟩ xs
    generalize Octet.deal ⟨a, b, c, d, e, f, g, h⟩ xs = dealt at hdeal ⊢
    obtain ⟨r, rest⟩ := dealt
    dsimp only at hdeal ⊢
    rw [List.foldl_eq_apply_foldr, ← List.sum_eq_foldr, hdeal]
    simp only [Octet.sum, List.sum_cons]
    ring
  · exact running_eq_sum _

theorem pairwise_eq_sum (xs : List K) : pairwise xs = xs.sum := by
  fun_induction pairwise xs with
  | case1 xs _ ih₁ ih₂ => rw [ih₁, ih₂, ← List.sum_append, List.take_append_drop]
  | case2 xs => exact stretchSum_eq_sum xs

theorem total_eq_sum (xs : List K) : total xs = xs.sum := by
  unfold total
  rw [pairwise_eq_sum]
  exact zero_add _

/-- A bound on the start and on the numbers of a list is a bound on the maximum of them all. -/
theorem foldl_max_le_iff : xs.foldl max x ≤ b ↔ x ≤ b ∧ ∀ y ∈ xs, y ≤ b := by
  induction xs generalizing x with
  | nil => simp
  | cons y ys ih => rw [List.foldl_cons, ih, max_le_iff, List.forall_mem_cons, and_assoc]

theorem le_foldl_max (h : y ∈ x :: xs) : y ≤ xs.foldl max x := by
  obtain ⟨hx, hxs⟩ := foldl_max_le_iff.1 (le_refl (xs.foldl max x))
  rcases List.mem_cons.1 h with rfl | hy
  · exact hx
  · exact hxs y hy

theorem highest_cons (x : K) (xs : List K) : highest (x :: xs) = xs.foldl max x := by
  have : (maximum : K → K → K) = max := funext fun a => funext (maximum_eq_max a)
  rw [highest, this]

theorem largestOr_cons (d x : K) (xs : List K) : largestOr d (x :: xs) = xs.foldl max x := by
  have : (larger : K → K → K) = max := funext fun a => funext (larger_eq_max a)
  rw [largestOr, largest?, Option.getD_some, this]

theorem le_highest (h : x ∈ xs) : x ≤ highest xs := by
  cases xs with
  | nil => cases h
  | cons z zs =>
    rw [highest_cons]
    exact le_foldl_max h

theorem highest_mem (h : xs ≠ []) : highest xs ∈ xs := by
  cases xs with
  | nil => exact absurd rfl h
  | cons x xs => exact List.max?_mem (by rw [highest_cons]; rfl)

theorem min?_eq_lowest (h : xs ≠ []) : xs.min? = some (lowest xs) := by
  have hmin : (minimum : K → K → K) = min := funext fun a => funext (minimum_eq_min a)
  cases xs with
  | nil => exact absurd rfl h
  | cons x xs => rw [lowest, hmin, List.min?_cons']

theorem lowest_mem (h : xs ≠ []) : lowest xs ∈ xs := List.min?_mem (min?_eq_lowest h)

theorem lowest_le (h : x ∈ xs) : lowest xs ≤ x :=
  (List.min?_eq_some_iff.1 (min?_eq_lowest (List.ne_nil_of_mem h))).2 x h

theorem le_largestOr (d : K) (h : x ∈ xs) : x ≤ largestOr d xs := by
  cases xs with
  | nil => cases h
  | cons z zs =>
    rw [largestOr_cons]
    exact le_foldl_max h

theorem largestOr_le {d : K} (hd : d ≤ b) (h : ∀ x ∈ xs, x ≤ b) : largestOr d xs ≤ b := by
  cases xs with
  | nil => exact hd
  | cons z zs =>
    rw [largestOr_cons, foldl_max_le_iff]
    exact List.forall_mem_cons.1 h

/-! ## Means -/

theorem length_pos (h : xs ≠ []) : 0 < (xs.length : K) := by
  exact_mod_cast List.length_pos_iff.2 h

theorem mean_eq (xs : List K) : mean xs = xs.sum / xs.length := by
  rw [mean, total_eq_sum]

theorem mean_nonneg (h : ∀ x ∈ xs, 0 ≤ x) : 0 ≤ mean xs := by
  rw [mean_eq]
  exact div_nonneg (List.sum_nonneg h) (Nat.cast_nonneg _)

theorem mean_le (hne : xs ≠ []) (h : ∀ x ∈ xs, x ≤ b) : mean xs ≤ b := by
  have hsum := List.sum_le_card_nsmul xs b h
  rw [nsmul_eq_mul, mul_comm] at hsum
  rw [mean_eq]
  exact (div_le_iff₀ (length_pos hne)).2 hsum

/-! ## Multiples -/

variable {k : K}

theorem larger_mul (hk : 0 ≤ k) (x y : K) : larger (k * x) (k * y) = k * larger x y := by
  rw [larger_eq_max, larger_eq_max, mul_max_of_nonneg x y hk]

theorem largestOr_mul (hk : 0 ≤ k) (xs : List K) :
    largestOr 0 (xs.map (k * ·)) = k * largestOr 0 xs := by
  cases xs with
  | nil => exact (mul_zero k).symm
  | cons x xs =>
    rw [List.map_cons, largestOr_cons, largestOr_cons]
    induction xs generalizing x with
    | nil => rfl
    | cons y ys ih =>
      rw [List.map_cons, List.foldl_cons, List.foldl_cons, ← mul_max_of_nonneg x y hk, ih]

theorem sum_mul (k : K) (xs : List K) : (xs.map (k * ·)).sum = k * xs.sum := by
  rw [List.sum_map_mul_left, List.map_id']

theorem mean_mul (k : K) (xs : List K) : mean (xs.map (k * ·)) = k * mean xs := by
  rw [mean_eq, mean_eq, sum_mul, List.length_map, mul_div_assoc]

end Quantity
end EarliestFinish
