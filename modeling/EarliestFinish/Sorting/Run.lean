/-!
# Runs

A run is a stretch of a list that stands in order already. Sorting starts from runs: the one at the
front of a list is kept (if it falls strictly it is turned round first), and a short one is made
longer by putting the elements behind it into their places, each behind the last element that is
not above it. The place is found by halving.

`lt` says which elements come before which. It need not be an order: whatever it says, `next_perm`
holds.
-/

namespace EarliestFinish
namespace Sorting

variable {α : Type}

/-- The longest front in which every element is followed as `follows` allows, and the rest. -/
def front (follows : α → α → Bool) : List α → List α × List α
  | a :: b :: rest =>
    if follows a b then
      let (run, left) := front follows (b :: rest)
      (a :: run, left)
    else ([a], b :: rest)
  | short => (short, [])

/-- The front that stands in order, turned round if it falls strictly, and the rest. -/
def leadingRun (lt : α → α → Bool) : List α → List α × List α
  | a :: b :: rest =>
    if lt b a then
      let (run, left) := front (fun x y => lt y x) (a :: b :: rest)
      (run.reverse, left)
    else front (fun x y => !lt y x) (a :: b :: rest)
  | short => (short, [])

/-- The first position in `lo ≤ i < hi` whose element fails a test, or `hi`, by halving. Of two
positions in the middle the later is tried, or else the earlier. -/
def firstFailing (later : Bool) (test : α → Bool) (xs : List α) (lo hi : Nat) : Nat :=
  if lo < hi then
    let mid := if later then lo + (hi - lo) / 2 else lo + (hi - lo - 1) / 2
    if xs[mid]?.any test then firstFailing later test xs (mid + 1) hi
    else firstFailing later test xs lo mid
  else lo
termination_by hi - lo
decreasing_by all_goals grind

/-- Puts an element behind the last one that is not above it. -/
def insert (lt : α → α → Bool) (xs : List α) (x : α) : List α :=
  xs.insertIdx (firstFailing true (fun y => !lt x y) xs 0 xs.length) x

/-- The run at the front of a list, made at least `least` long if the list is, and the rest. -/
def next (lt : α → α → Bool) (least : Nat) (xs : List α) : List α × List α :=
  let (run, rest) := leadingRun lt xs
  let missing := least - run.length
  ((rest.take missing).foldl (insert lt) run, rest.drop missing)

theorem firstFailing_le (later : Bool) (test : α → Bool) (xs : List α) {lo hi : Nat}
    (h : lo ≤ hi) : firstFailing later test xs lo hi ≤ hi := by
  fun_induction firstFailing later test xs lo hi <;> grind

theorem insert_perm (lt : α → α → Bool) (xs : List α) (x : α) :
    (insert lt xs x).Perm (x :: xs) :=
  List.perm_insertIdx x xs (firstFailing_le _ _ xs (Nat.zero_le _))

theorem front_append (follows : α → α → Bool) (xs : List α) :
    (front follows xs).1 ++ (front follows xs).2 = xs := by
  fun_induction front follows xs <;> simp_all

theorem leadingRun_perm (lt : α → α → Bool) (xs : List α) :
    ((leadingRun lt xs).1 ++ (leadingRun lt xs).2).Perm xs := by
  fun_cases leadingRun lt xs with
  | case1 a b rest h run left hf =>
    have := front_append (fun x y => lt y x) (a :: b :: rest)
    rw [hf] at this
    exact ((List.reverse_perm run).append_right left).trans (.of_eq this)
  | case2 a b rest h => exact .of_eq (front_append _ _)
  | case3 => simp

theorem foldl_insert_perm (lt : α → α → Bool) (added run : List α) :
    (added.foldl (insert lt) run).Perm (run ++ added) := by
  induction added generalizing run with
  | nil => simp
  | cons x added ih =>
    exact (ih _).trans (((insert_perm lt run x).append_right added).trans List.perm_middle.symm)

/-- Taking a run off the front loses nothing. -/
theorem next_perm (lt : α → α → Bool) (least : Nat) (xs : List α) :
    ((next lt least xs).1 ++ (next lt least xs).2).Perm xs := by
  unfold next
  have h := leadingRun_perm lt xs
  revert h
  generalize leadingRun lt xs = p
  obtain ⟨run, rest⟩ := p
  intro h
  refine ((foldl_insert_perm lt _ run).append_right _).trans ?_
  rwa [List.append_assoc, List.take_append_drop]

theorem front_ne_nil (follows : α → α → Bool) (x : α) (xs : List α) :
    (front follows (x :: xs)).1 ≠ [] := by
  unfold front
  split
  · split <;> simp
  · simp_all

theorem leadingRun_ne_nil (lt : α → α → Bool) (x : α) (xs : List α) :
    (leadingRun lt (x :: xs)).1 ≠ [] := by
  unfold leadingRun
  split
  · split
    · simp [front_ne_nil]
    · exact front_ne_nil _ _ _
  · simp_all

/-- A run takes at least one element. -/
theorem next_length_lt (lt : α → α → Bool) (least : Nat) (x : α) (xs : List α) :
    (next lt least (x :: xs)).2.length < (x :: xs).length := by
  have hl := (leadingRun_perm lt (x :: xs)).length_eq
  have hp := List.length_pos_iff.2 (leadingRun_ne_nil lt x xs)
  simp only [next, List.length_drop, List.length_append] at *
  omega

/-- Cuts a list into runs, all but the last at least `least` long. -/
def runs (lt : α → α → Bool) (least : Nat) : List α → List (List α)
  | [] => []
  | x :: xs =>
    (next lt least (x :: xs)).1 :: runs lt least (next lt least (x :: xs)).2
termination_by xs => xs.length
decreasing_by exact next_length_lt lt least x xs

/-- Cutting into runs loses nothing. -/
theorem runs_perm (lt : α → α → Bool) (least : Nat) (xs : List α) :
    (runs lt least xs).flatten.Perm xs := by
  fun_induction runs lt least xs with
  | case1 => exact .refl _
  | case2 x xs ih => exact (ih.append_left _).trans (next_perm lt least (x :: xs))

end Sorting
end EarliestFinish
