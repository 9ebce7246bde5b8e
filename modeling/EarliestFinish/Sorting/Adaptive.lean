import EarliestFinish.Sorting.Weave

/-!
# Adaptive sorting

A list is cut into runs, and neighbouring runs are merged until one is left. Which ones are merged
when depends on the *power* of the boundary between two runs: the depth at which halving the whole
list again and again first comes between their midpoints. Before a run is added to the pile, the
last runs of the pile are merged as long as the boundary before them has a higher power than the
new one.

With an order, the outcome is the list in stable order. Without one, as when some keys cannot be
compared, the comparisons that are made settle it, and still nothing is lost: `adaptive_perm`.
-/

namespace EarliestFinish
namespace Sorting

variable {α : Type}

/-- The least length of a run in a list of `n`: the first six binary digits of `n`, rounded up. -/
def leastRun (n : Nat) : Nat :=
  let unit := 1 <<< (n.log2 - 5)
  (n + unit - 1) / unit

/-- The first binary place at which `a / n` and `b / n` differ, among the first `places`. -/
def firstDifference (n : Nat) : Nat → Nat → Nat → Nat
  | 0, _, _ => 1
  | places + 1, a, b =>
    if n ≤ a then 1 + firstDifference n places (2 * (a - n)) (2 * (b - n))
    else if n ≤ b then 1
    else 1 + firstDifference n places (2 * a) (2 * b)

/-- The power of the boundary between a run, given by its start and length, and the next one in a
list of `n`. -/
def boundaryPower (n start length next : Nat) : Nat :=
  firstDifference n n (2 * start + length) (2 * start + 2 * length + next)

/-- A run in its place. -/
structure Placed (α : Type) where
  items : List α
  start : Nat
  /-- The power of the boundary behind the run. -/
  power : Nat

/-- Runs that wait for being merged, the last one first, and the patience of the next merge. -/
structure Pile (α : Type) where
  runs : List (Placed α)
  patience : Nat

namespace Pile

/-- All elements. -/
def all (p : Pile α) : List α := (p.runs.map Placed.items).flatten

/-- Merges the last run with those before it while the boundary between them has a higher power
than the one behind. -/
def settle (lt : α → α → Bool) (power patience : Nat) (last : Placed α) :
    List (Placed α) → Pile α
  | [] => ⟨[{ last with power }], patience⟩
  | before :: runs =>
    if power < before.power then
      let (items, patience) := merge lt patience before.items last.items
      settle lt power patience { before with items } runs
    else ⟨{ last with power } :: before :: runs, patience⟩

/-- Adds the next run of a list of `n`. -/
def push (lt : α → α → Bool) (n : Nat) (p : Pile α) (run : List α) : Pile α :=
  match p.runs with
  | [] => ⟨[⟨run, 0, 0⟩], p.patience⟩
  | last :: runs =>
    let power := boundaryPower n last.start last.items.length run.length
    let p := settle lt power p.patience last runs
    { p with runs := ⟨run, last.start + last.items.length, 0⟩ :: p.runs }

end Pile

/-- Merges all runs, given last first: the last two, or the two before the last if the last one is
the longest of the three. -/
def collapse (lt : α → α → Bool) (patience : Nat) : List (List α) → List α
  | [] => []
  | [z] => z
  | [z, y] => (merge lt patience y z).1
  | z :: y :: x :: runs =>
    if x.length < z.length then
      let (xy, patience) := merge lt patience x y
      collapse lt patience (z :: xy :: runs)
    else
      let (yz, patience) := merge lt patience y z
      collapse lt patience (yz :: x :: runs)
termination_by runs => runs.length

/-- Sorts by merging runs. -/
def adaptive (lt : α → α → Bool) (xs : List α) : List α :=
  let n := xs.length
  let pile := (runs lt (leastRun n) xs).foldl (Pile.push lt n) ⟨[], usualPatience⟩
  collapse lt pile.patience (pile.runs.map Placed.items)

namespace Pile

theorem settle_perm (lt : α → α → Bool) (power patience : Nat) (last : Placed α)
    (runs : List (Placed α)) :
    (settle lt power patience last runs).all.Perm
      (last.items ++ (runs.map Placed.items).flatten) := by
  induction runs generalizing patience last with
  | nil => simp [settle, all]
  | cons before runs ih =>
    unfold settle
    split
    · refine (ih _ _).trans ?_
      have h := (merge_perm lt patience before.items last.items).trans List.perm_append_comm
      rw [List.map_cons, List.flatten_cons, ← List.append_assoc]
      exact h.append_right _
    · exact .refl _

theorem push_perm (lt : α → α → Bool) (n : Nat) (p : Pile α) (run : List α) :
    (p.push lt n run).all.Perm (p.all ++ run) := by
  obtain ⟨runs, patience⟩ := p
  cases runs with
  | nil => simp [push, all]
  | cons last runs =>
    exact ((settle_perm lt _ patience last runs).append_left run).trans List.perm_append_comm

theorem foldl_push_perm (lt : α → α → Bool) (n : Nat) (runs : List (List α)) (p : Pile α) :
    (runs.foldl (Pile.push lt n) p).all.Perm (p.all ++ runs.flatten) := by
  induction runs generalizing p with
  | nil => simp
  | cons run runs ih =>
    refine (ih _).trans (((push_perm lt n p run).append_right _).trans ?_)
    simp

end Pile

theorem collapse_perm (lt : α → α → Bool) (patience : Nat) (runs : List (List α)) :
    (collapse lt patience runs).Perm runs.flatten := by
  fun_induction collapse lt patience runs with
  | case1 => exact .refl _
  | case2 => simp
  | case3 patience z y =>
    simpa using (merge_perm lt patience y z).trans List.perm_append_comm
  | case4 patience z y x runs h xy patience' hm ih =>
    have := merge_perm lt patience x y
    rw [hm] at this
    simpa using ih.trans
      (((this.trans List.perm_append_comm).append_right runs.flatten).append_left z)
  | case5 patience z y x runs h yz patience' hm ih =>
    have := merge_perm lt patience y z
    rw [hm] at this
    simpa using ih.trans ((this.trans List.perm_append_comm).append_right (x ++ runs.flatten))

/-- Sorting loses nothing, whatever is put before what. -/
theorem adaptive_perm (lt : α → α → Bool) (xs : List α) : (adaptive lt xs).Perm xs :=
  (collapse_perm lt _ _).trans
    ((Pile.foldl_push_perm lt _ _ ⟨[], usualPatience⟩).trans (runs_perm lt _ xs))

end Sorting
end EarliestFinish
