import EarliestFinish.Sorting.Adaptive

/-!
# Stable sorting by a key

`sortBy key` puts a list into ascending order of a key and keeps the order of elements with equal
keys; `sortByDescending key` does so in descending order. If some key cannot be compared even with
itself, there is no such order, and the comparisons of an adaptive sort settle the outcome.

Whatever the keys, nothing is lost or repeated: `sortBy_perm`.
-/

namespace EarliestFinish

namespace Sorting

/-! ## Sorting by insertion

From the last element of a list to the first, each is put before the first one that is not below
it. So an element that is neither below nor above a later one stays before it.
-/

variable {α : Type}

/-- Puts an element before the first one that is not below it. -/
def place (lt : α → α → Bool) (x : α) : List α → List α
  | [] => [x]
  | y :: ys => if lt y x then y :: place lt x ys else x :: y :: ys

/-- Sorts by insertion. -/
def insertion (lt : α → α → Bool) (xs : List α) : List α := xs.foldr (place lt) []

theorem place_perm (lt : α → α → Bool) (x : α) (xs : List α) : (place lt x xs).Perm (x :: xs) := by
  induction xs with
  | nil => exact .refl _
  | cons y ys ih =>
    unfold place
    split
    · exact (ih.cons y).trans (.swap x y ys)
    · exact .refl _

/-- Sorting by insertion loses nothing. -/
theorem insertion_perm (lt : α → α → Bool) (xs : List α) : (insertion lt xs).Perm xs := by
  induction xs with
  | nil => exact .refl _
  | cons x xs ih => exact (place_perm lt x _).trans (ih.cons x)

end Sorting

/-! ## Sorting by a key -/

section Key

variable {α β : Type} [LT β] [LE β] [DecidableLT β] [DecidableLE β]

/-- The list in ascending order of the key; equal keys keep their order. -/
def sortBy (key : α → β) (xs : List α) : List α :=
  if xs.all fun x => key x ≤ key x then Sorting.insertion (fun x y => key x < key y) xs
  else Sorting.adaptive (fun x y => key x < key y) xs

/-- The list in descending order of the key; equal keys keep their order. -/
def sortByDescending (key : α → β) (xs : List α) : List α := (sortBy key xs.reverse).reverse

/-- Sorting only changes the order, whatever the keys. -/
theorem sortBy_perm (key : α → β) (xs : List α) : (sortBy key xs).Perm xs := by
  unfold sortBy
  split
  · exact Sorting.insertion_perm ..
  · exact Sorting.adaptive_perm ..

/-- Sorting in descending order only changes the order, whatever the keys. -/
theorem sortByDescending_perm (key : α → β) (xs : List α) : (sortByDescending key xs).Perm xs :=
  (List.reverse_perm _).trans ((sortBy_perm key _).trans (List.reverse_perm xs))

end Key

/-- Pairs of positions in ascending order, by the first and then by the second. -/
def sortPairs {β : Type} (key : β → Int × Int) (xs : List β) : List β :=
  sortBy (fun x => (key x).1) (sortBy (fun x => (key x).2) xs)

end EarliestFinish
