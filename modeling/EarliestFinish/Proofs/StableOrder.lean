import EarliestFinish.Proofs.Comparison
import EarliestFinish.StableSort

/-!
# Order after sorting

A sort by insertion keeps the order of what it finds equal: nothing comes behind what it is below,
and elements neither of which is below the other are in the order in which they were before
(`Sorting.insertion_inTurn`). Sorting by a key is such a sort wherever the keys can be compared,
and then a sorted list is in the order of its keys (`sortBy_inTurn`).
-/

namespace EarliestFinish

/-! ## Sorting by insertion -/

namespace Sorting

variable {α : Type} {S : α → α → Prop} {lt : α → α → Bool} {x : α} {xs : List α}

/-- An element is not above another one, and if it is not below it either, another relation
holds. -/
def InTurn (lt : α → α → Bool) (S : α → α → Prop) (x y : α) : Prop :=
  lt y x = false ∧ (lt x y = false → S x y)

/-- On some elements, a comparison is asymmetric, and what is not above something that is not above
a third element is not above that. -/
structure Weak (lt : α → α → Bool) (xs : List α) : Prop where
  asymm : ∀ x ∈ xs, ∀ y ∈ xs, lt x y = true → lt y x = false
  trans : ∀ x ∈ xs, ∀ y ∈ xs, ∀ z ∈ xs, lt y x = false → lt z y = false → lt z x = false

theorem Weak.subset {ys : List α} (h : Weak lt xs) (hs : ys ⊆ xs) : Weak lt ys where
  asymm x hx y hy := h.asymm x (hs hx) y (hs hy)
  trans x hx y hy z hz := h.trans x (hs hx) y (hs hy) z (hs hz)

theorem place_inTurn (hlt : Weak lt (x :: xs)) (hx : ∀ y ∈ xs, S x y)
    (h : xs.Pairwise (InTurn lt S)) : (place lt x xs).Pairwise (InTurn lt S) := by
  induction xs with
  | nil => exact List.pairwise_singleton ..
  | cons y ys ih =>
    obtain ⟨hy, hys⟩ := List.pairwise_cons.1 h
    obtain ⟨hxy, hxys⟩ := List.forall_mem_cons.1 hx
    have hmemx : x ∈ x :: y :: ys := by simp
    have hmemy : y ∈ x :: y :: ys := by simp
    rw [place]
    split
    · next hbelow =>
      refine List.pairwise_cons.2 ⟨fun z hz => ?_, ih (hlt.subset (by simp)) hxys hys⟩
      rcases List.mem_cons.1 ((place_perm lt x ys).mem_iff.1 hz) with rfl | hz
      · exact ⟨hlt.asymm y hmemy z hmemx hbelow, fun hnot => by simp [hbelow] at hnot⟩
      · exact hy z hz
    · next hbelow =>
      rw [Bool.not_eq_true] at hbelow
      -- the first element that is not below is the lowest of those that follow
      refine List.pairwise_cons.2 ⟨fun z hz => ⟨?_, fun _ => hx z hz⟩, h⟩
      rcases List.mem_cons.1 hz with rfl | hz'
      · exact hbelow
      · exact hlt.trans x hmemx y hmemy z (List.mem_cons_of_mem x hz) hbelow (hy z hz').1

/-- Sorting by insertion puts a list into ascending order and keeps the order of what is equal. -/
theorem insertion_inTurn (hlt : Weak lt xs) (h : xs.Pairwise S) :
    (insertion lt xs).Pairwise (InTurn lt S) := by
  induction xs with
  | nil => exact .nil
  | cons x xs ih =>
    obtain ⟨hx, hxs⟩ := List.pairwise_cons.1 h
    have hperm := insertion_perm lt xs
    have hweak : Weak lt (x :: insertion lt xs) := hlt.subset (hperm.cons x).subset
    exact place_inTurn hweak (fun y hy => hx y (hperm.mem_iff.1 hy))
      (ih (hlt.subset (List.subset_cons_self x xs)) hxs)

end Sorting

/-! ## Sorting by a key -/

section Keys

variable {α β : Type} {key : β → α} {xs : List β}

theorem sortBy_eq_insertion [LT α] [LE α] [DecidableLT α] [DecidableLE α]
    (h : ∀ b ∈ xs, key b ≤ key b) :
    sortBy key xs = Sorting.insertion (fun b c => decide (key b < key c)) xs :=
  if_pos (by simpa using h)

open Quantity

variable [Quantity α] [Ordered α] {S : β → β → Prop}

/-- Comparable numbers are compared weakly, whatever they belong to. -/
theorem weak_of_comparable (h : ∀ b ∈ xs, key b ≤ key b) :
    Sorting.Weak (fun b c => decide (key b < key c)) xs where
  asymm b _ c _ := by simpa using not_lt_of_lt
  trans b hb c hc d hd := by
    simp only [decide_eq_false_iff_not, not_lt_iff (h c hc) (h b hb), not_lt_iff (h d hd) (h c hc),
      not_lt_iff (h d hd) (h b hb)]
    exact Ordered.trans

/-- A list that is sorted by comparable keys is in the order of the keys, and equal keys are in the
order in which they were before. -/
theorem sortBy_inTurn (h : ∀ b ∈ xs, key b ≤ key b) (hS : xs.Pairwise S) :
    (sortBy key xs).Pairwise (Sorting.InTurn (fun b c => decide (key b < key c)) S) := by
  rw [sortBy_eq_insertion h]
  exact Sorting.insertion_inTurn (weak_of_comparable h) hS

end Keys

end EarliestFinish
