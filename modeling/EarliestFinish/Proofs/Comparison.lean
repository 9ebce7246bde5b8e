import EarliestFinish.Quantity.Basic
import Mathlib.Data.Prod.Lex
import Mathlib.Tactic

/-!
# Comparing quantities

A number that is at most itself is *comparable*; a NaN is not. `Quantity.Ordered` says of a type of
quantities that its comparable numbers are in order, the lower ones first, and that nothing else
compares with anything. Two of them may still be at most each other without being the same, as the
two zeros of floating point are.

* Exact quantities and floats are ordered. For floats this comes from their sign, exponent and
  mantissa: `Quantity.rung` places every float but a NaN among triples of whole numbers.
* `Quantity.largestOr_le_of_perm`: the largest of some comparable numbers does not depend on the
  order in which they are listed.
-/

namespace EarliestFinish
namespace Quantity

/-- The comparable numbers of a type are in order, and no other number compares with any. -/
class Ordered (α : Type) [Quantity α] : Prop where
  lt_iff (x y : α) : x < y ↔ x ≤ y ∧ ¬ y ≤ x
  trans {x y z : α} : x ≤ y → y ≤ z → x ≤ z
  total {x y : α} : x ≤ x → y ≤ y → x ≤ y ∨ y ≤ x
  zero_le_zero : (0 : α) ≤ 0

instance : Ordered Rat where
  lt_iff _ _ := lt_iff_le_not_ge
  trans := le_trans
  total _ _ := le_total _ _
  zero_le_zero := le_rfl

/-! ## Floats -/

section Floats

open Float.Model UnpackedFloat

/-- The place of an unpacked float among the others; a NaN has none. -/
def rungOf : UnpackedFloat → Option (Int ×ₗ Int ×ₗ Int)
  | .notANumber => none
  | .infinity .negative => some (toLex (-2, toLex (0, 0)))
  | .finite .negative m e _ => some (toLex (-1, toLex (-e, -m)))
  | .zero _ => some (toLex (0, toLex (0, 0)))
  | .finite .positive m e _ => some (toLex (1, toLex (e, m)))
  | .infinity .positive => some (toLex (2, toLex (0, 0)))

/-- The place of a float among the others; a NaN has none. -/
def rung (x : Float) : Option (Int ×ₗ Int ×ₗ Int) := rungOf x.toModel.unpack

theorem compare_toLex {β γ : Type} [Ord β] [Ord γ] (a b : β) (x y : γ) :
    compare (toLex (a, x)) (toLex (b, y)) = (compare a b).then (compare x y) := rfl

theorem compare_neg (a b : Int) : compare (-a) (-b) = (compare a b).swap := by
  rcases lt_trichotomy a b with h | rfl | h
  · rw [compare_lt_iff_lt.2 h, compare_gt_iff_gt.2 (neg_lt_neg h), Ordering.swap_lt]
  · simp
  · rw [compare_gt_iff_gt.2 h, compare_lt_iff_lt.2 (neg_lt_neg h), Ordering.swap_gt]

theorem compare_natCast (m n : Nat) : compare (m : Int) n = compare m n := by
  rcases lt_trichotomy m n with h | rfl | h
  · rw [compare_lt_iff_lt.2 h, compare_lt_iff_lt.2 (Int.ofNat_lt.2 h)]
  · simp
  · rw [compare_gt_iff_gt.2 h, compare_gt_iff_gt.2 (Int.ofNat_lt.2 h)]

/-- Floats compare as their places do. -/
theorem compare_eq_rungOf (a b : UnpackedFloat) :
    a.compare b = (rungOf a).bind fun k => (rungOf b).map fun l => compare k l := by
  rcases a with (_ | _) | _ | _ | ⟨_ | _, m, e, -⟩ <;>
    rcases b with (_ | _) | _ | _ | ⟨_ | _, n, f, -⟩
  -- the sign tells all but two finite floats of the same sign apart
  case finite.negative.finite.negative =>
    dsimp only [UnpackedFloat.compare, rungOf, Option.bind_some, Option.map_some]
    rw [compare_toLex, compare_toLex, compare_neg e f, compare_neg m n, compare_natCast,
      Ordering.swap_then]
    rfl
  case finite.positive.finite.positive =>
    dsimp only [UnpackedFloat.compare, rungOf, Option.bind_some, Option.map_some]
    rw [compare_toLex, compare_toLex, compare_natCast]
    rfl
  all_goals rfl

theorem float_lt_iff (x y : Float) : x < y ↔ ∃ k ∈ rung x, ∃ l ∈ rung y, k < l := by
  have hcompare : x < y ↔ x.toModel.unpack.compare y.toModel.unpack = some .lt := by
    change decide (x.toModel.unpack.lt y.toModel.unpack = true) = true ↔ _
    simp [UnpackedFloat.lt]
  simp only [hcompare, compare_eq_rungOf, rung, Option.bind_eq_some_iff, Option.map_eq_some_iff,
    compare_lt_iff_lt, Option.mem_def]

theorem float_le_iff (x y : Float) : x ≤ y ↔ ∃ k ∈ rung x, ∃ l ∈ rung y, k ≤ l := by
  have hcompare : x ≤ y ↔
      ∃ o, x.toModel.unpack.compare y.toModel.unpack = some o ∧ o ≠ .gt := by
    change decide (x.toModel.unpack.le y.toModel.unpack = true) = true ↔ _
    simp [UnpackedFloat.le, Option.any_eq_true, Ordering.isLE_iff_ne_gt]
  simp only [hcompare, compare_eq_rungOf, rung, Option.bind_eq_some_iff, Option.map_eq_some_iff,
    Option.mem_def]
  constructor
  · rintro ⟨_, ⟨k, hk, l, hl, rfl⟩, h⟩
    exact ⟨k, hk, l, hl, compare_le_iff_le.1 h⟩
  · rintro ⟨k, hk, l, hl, h⟩
    exact ⟨_, ⟨k, hk, l, hl, rfl⟩, compare_le_iff_le.2 h⟩

instance : Ordered Float where
  lt_iff x y := by
    simp only [float_lt_iff, float_le_iff, not_exists, not_and]
    constructor
    · rintro ⟨k, hk, l, hl, h⟩
      refine ⟨⟨k, hk, l, hl, h.le⟩, fun l' hl' k' hk' => ?_⟩
      obtain rfl := Option.mem_unique hl hl'
      obtain rfl := Option.mem_unique hk hk'
      exact h.not_ge
    · rintro ⟨⟨k, hk, l, hl, -⟩, h⟩
      exact ⟨k, hk, l, hl, not_le.1 (h l hl k hk)⟩
  trans {x y z} hxy hyz := by
    rw [float_le_iff] at hxy hyz ⊢
    obtain ⟨k, hk, l, hl, hkl⟩ := hxy
    obtain ⟨l', hl', m, hm, hlm⟩ := hyz
    obtain rfl := Option.mem_unique hl hl'
    exact ⟨k, hk, m, hm, hkl.trans hlm⟩
  total {x y} hx hy := by
    obtain ⟨k, hk, -⟩ := (float_le_iff ..).1 hx
    obtain ⟨l, hl, -⟩ := (float_le_iff ..).1 hy
    rw [float_le_iff, float_le_iff]
    exact (le_total k l).imp (fun h => ⟨k, hk, l, hl, h⟩) fun h => ⟨l, hl, k, hk, h⟩
  zero_le_zero := by decide

end Floats

/-! ## The larger and the largest -/

variable {α : Type} [Quantity α] {x y : α} {xs ys : List α}

theorem foldl_larger_mem (x : α) (xs : List α) : xs.foldl larger x ∈ x :: xs := by
  induction xs generalizing x with
  | nil => exact List.mem_singleton_self x
  | cons y ys ih =>
    rw [List.foldl_cons]
    rcases List.mem_cons.1 (ih (larger x y)) with h | h
    · rw [h, larger]
      split <;> simp
    · exact List.mem_cons_of_mem _ (List.mem_cons_of_mem _ h)

/-- The largest of some numbers is one of them. -/
theorem largestOr_mem (d : α) (h : xs ≠ []) : largestOr d xs ∈ xs := by
  cases xs with
  | nil => exact absurd rfl h
  | cons x xs => exact foldl_larger_mem x xs

variable [Ordered α]

theorem not_lt_self (x : α) : ¬ x < x := by
  rw [Ordered.lt_iff]
  exact fun h => h.2 h.1

theorem le_of_lt (h : x < y) : x ≤ y := ((Ordered.lt_iff x y).1 h).1

theorem not_lt_of_lt (h : x < y) : ¬ y < x := by
  rw [Ordered.lt_iff] at h ⊢
  exact fun hyx => h.2 hyx.1

theorem not_lt_iff (hx : x ≤ x) (hy : y ≤ y) : ¬ x < y ↔ y ≤ x := by
  rw [Ordered.lt_iff, not_and_not_right]
  exact ⟨fun h => (Ordered.total hx hy).elim h id, fun h _ => h⟩

/-- The larger of two comparable numbers is one of them, and neither is above it. -/
theorem larger_spec (hx : x ≤ x) (hy : y ≤ y) :
    larger x y ≤ larger x y ∧ x ≤ larger x y ∧ y ≤ larger x y := by
  unfold larger
  split
  · next h => exact ⟨hy, le_of_lt h, hy⟩
  · next h => exact ⟨hx, hx, (not_lt_iff hx hy).1 h⟩

/-- No comparable number of a list is above the largest. -/
theorem le_foldl_larger (hx : x ≤ x) (hxs : ∀ z ∈ xs, z ≤ z) :
    ∀ z ∈ x :: xs, z ≤ xs.foldl larger x := by
  induction xs generalizing x with
  | nil =>
    intro z hz
    obtain rfl := List.mem_singleton.1 hz
    exact hx
  | cons y ys ih =>
    obtain ⟨hy, hys⟩ := List.forall_mem_cons.1 hxs
    obtain ⟨hself, hle, hle'⟩ := larger_spec hx hy
    obtain ⟨hlarger, hrest⟩ := List.forall_mem_cons.1 (ih hself hys)
    exact List.forall_mem_cons.2 ⟨Ordered.trans hle hlarger,
      List.forall_mem_cons.2 ⟨Ordered.trans hle' hlarger, hrest⟩⟩

/-- The largest of some comparable numbers is no lower in one order than in another. -/
theorem largestOr_le_of_perm (hp : xs.Perm ys) (hxs : ∀ z ∈ xs, z ≤ z) :
    largestOr 0 xs ≤ largestOr 0 ys := by
  cases xs with
  | nil =>
    rw [← hp.nil_eq]
    exact Ordered.zero_le_zero
  | cons x xs =>
    cases ys with
    | nil => exact absurd hp.eq_nil (by simp)
    | cons y ys =>
      have hmem := hp.mem_iff.1 (largestOr_mem 0 (List.cons_ne_nil x xs))
      obtain ⟨hy, hys⟩ := List.forall_mem_cons.1 fun z hz => hxs z (hp.mem_iff.2 hz)
      exact le_foldl_larger hy hys _ hmem

end Quantity
end EarliestFinish
