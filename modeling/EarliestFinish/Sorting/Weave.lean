import EarliestFinish.Sorting.Run

/-!
# Weaving two runs into one

Two neighbouring runs become one by taking the smaller of their heads again and again, the left one
if neither is smaller. When one run has given several elements in a row the pace changes: the
number of elements that it gives next is found by strides that double and then by halving. How many
in a row that takes is the *patience*; it falls while such strides pay and rises when they stop
paying.

The runs are woven from the front unless the left one is the longer, and else from the back, with
the larger head taken first. It is over when the longer run is used up, or the shorter one but for
an element, which is known to come last.

`lt` need not be an order; whatever it says, `merge_perm` holds.
-/

namespace EarliestFinish
namespace Sorting

variable {α : Type}

/-- Doubles a stride while the element that it leads to passes a test: the last position that
passed, and the first that is not known to pass. -/
def stride (test : α → Bool) (xs : List α) (last next : Nat) : Nat × Nat :=
  if next < xs.length ∧ xs[next]?.any test then stride test xs next (2 * next + 1)
  else (last, min next xs.length)
termination_by xs.length - next

/-- The number of elements at the front that pass a test, by doubling and then halving. -/
def leading (later : Bool) (test : α → Bool) : List α → Nat
  | [] => 0
  | x :: xs =>
    if test x then
      let (last, next) := stride test (x :: xs) 0 1
      firstFailing later test (x :: xs) (last + 1) next
    else 0

/-- Two runs on their way into one: what is taken, last first, and what is left of each. -/
structure Weave (α : Type) where
  taken : List α := []
  left : List α
  right : List α

namespace Weave

/-- Takes elements from the left run. -/
def takeLeft (k : Nat) (w : Weave α) : Weave α :=
  ⟨(w.left.take k).reverse ++ w.taken, w.left.drop k, w.right⟩

/-- Takes elements from the right run. -/
def takeRight (k : Nat) (w : Weave α) : Weave α :=
  ⟨(w.right.take k).reverse ++ w.taken, w.left, w.right.drop k⟩

/-- All elements. -/
def all (w : Weave α) : List α := w.taken ++ w.left ++ w.right

end Weave

/-- How two runs are woven. -/
structure Manner (α : Type) where
  lt : α → α → Bool
  /-- Whether the runs are woven from their backs. -/
  fromBack : Bool

namespace Manner

/-- Whether the head of the left run is taken before that of the right one. -/
def leftFirst (m : Manner α) (l r : α) : Bool := if m.fromBack then m.lt r l else !m.lt r l

/-- Whether the longer run is used up, or the shorter one but for an element. -/
def isOver (m : Manner α) (w : Weave α) : Bool :=
  if m.fromBack then w.left.isEmpty || w.right.length ≤ 1
  else w.right.isEmpty || w.left.length ≤ 1

/-- The two runs before anything is taken. -/
def start (m : Manner α) (left right : List α) : Weave α :=
  if m.fromBack then ⟨[], left.reverse, right.reverse⟩ else ⟨[], left, right⟩

/-- Takes the head of the longer run, which is known to come first. -/
def opening (m : Manner α) (w : Weave α) : Weave α :=
  if m.fromBack then w.takeLeft 1 else w.takeRight 1

/-- The one run, once the weaving is over. -/
def finish (m : Manner α) (w : Weave α) : List α :=
  if m.fromBack then (w.taken.reverse ++ w.left ++ w.right).reverse
  else w.taken.reverse ++ w.right ++ w.left

end Manner

/-- The pace of weaving: one by one, with the numbers of elements that the left run and the right
run gave in a row, or by strides. -/
inductive Pace
  | single (lefts rights : Nat)
  | strides

/-- The patience that a sort starts with, and the least gain at which strides go on. -/
def usualPatience : Nat := 7

/-- Takes one element, and says how to go on unless the weaving is over. -/
def singleStep (m : Manner α) (patience lefts rights : Nat) (w : Weave α) :
    Weave α × Option Pace :=
  match w.left, w.right with
  | l :: _, r :: _ =>
    if m.leftFirst l r then
      let w := w.takeLeft 1
      (w, if m.isOver w then none
        else if patience ≤ lefts + 1 then some .strides
        else some (.single (lefts + 1) 0))
    else
      let w := w.takeRight 1
      (w, if m.isOver w then none
        else if patience ≤ rights + 1 then some .strides
        else some (.single 0 (rights + 1)))
  | _, _ => (w, none)

/-- Takes elements of the left run up to the head of the right one, that head, elements of the
right run up to the head of the left one, and that head. Says whether one of the strides paid,
unless the weaving is over. -/
def strideStep (m : Manner α) (w : Weave α) : Weave α × Option Bool :=
  match w.right with
  | [] => (w, none)
  | r :: _ =>
    let gain := leading (!m.fromBack) (fun l => m.leftFirst l r) w.left
    let w := w.takeLeft gain
    if m.isOver w then (w, none) else
    let w := w.takeRight 1
    if m.isOver w then (w, none) else
    match w.left with
    | [] => (w, none)
    | l :: _ =>
      let gain' := leading (!m.fromBack) (fun r => !m.leftFirst l r) w.right
      let w := w.takeRight gain'
      if m.isOver w then (w, none) else
      let w := w.takeLeft 1
      if m.isOver w then (w, none) else
      (w, some (usualPatience ≤ gain || usualPatience ≤ gain'))

/-- Weaves until it is over, in at most `fuel` steps; gives the patience that is left. -/
def weave (m : Manner α) : Nat → Nat → Pace → Weave α → Weave α × Nat
  | 0, patience, _, w => (w, patience)
  | fuel + 1, patience, .single lefts rights, w =>
    match singleStep m patience lefts rights w with
    | (w, some pace) => weave m fuel patience pace w
    | (w, none) => (w, patience)
  | fuel + 1, patience, .strides, w =>
    match strideStep m w with
    | (w, some true) => weave m fuel (if 1 < patience then patience - 1 else patience) .strides w
    | (w, some false) => weave m fuel (patience + 1) (.single 0 0) w
    | (w, none) => (w, patience)

/-- Weaves two runs, of which the right one has the smallest element and the left one the
largest; every step takes an element. -/
def weaveRuns (lt : α → α → Bool) (patience : Nat) (left right : List α) : List α × Nat :=
  let m : Manner α := ⟨lt, right.length < left.length⟩
  let w := m.opening (m.start left right)
  if m.isOver w then (m.finish w, patience)
  else
    let (w, patience) := weave m (left.length + right.length) patience (.single 0 0) w
    (m.finish w, patience)

/-- Merges two neighbouring runs. The elements of the left run that no element of the right one
goes before stay where they are, and so do those of the right run that go before none of the left
one. -/
def merge (lt : α → α → Bool) (patience : Nat) (left right : List α) : List α × Nat :=
  match right with
  | [] => (left, patience)
  | r :: _ =>
    let ahead := leading true (fun x => !lt r x) left
    match (left.drop ahead).getLast? with
    | none => (left ++ right, patience)
    | some l =>
      let behind := right.length - leading false (fun x => !lt x l) right.reverse
      if behind = 0 then (left ++ right, patience)
      else
        let (woven, patience) := weaveRuns lt patience (left.drop ahead) (right.take behind)
        (left.take ahead ++ woven ++ right.drop behind, patience)

namespace Weave

theorem takeLeft_perm (k : Nat) (w : Weave α) : (w.takeLeft k).all.Perm w.all := by
  have h : ((w.left.take k).reverse ++ w.taken).Perm (w.taken ++ w.left.take k) :=
    ((List.reverse_perm _).append_right _).trans List.perm_append_comm
  have := (h.append_right (w.left.drop k)).append_right w.right
  rwa [List.append_assoc w.taken, List.take_append_drop] at this

theorem takeRight_perm (k : Nat) (w : Weave α) : (w.takeRight k).all.Perm w.all := by
  have h : ((w.right.take k).reverse ++ w.taken ++ w.left).Perm
      (w.taken ++ w.left ++ w.right.take k) := by
    rw [List.append_assoc]
    exact ((List.reverse_perm _).append_right _).trans List.perm_append_comm
  have := h.append_right (w.right.drop k)
  rwa [List.append_assoc (w.taken ++ w.left), List.take_append_drop] at this

end Weave

theorem singleStep_perm (m : Manner α) (patience lefts rights : Nat) (w : Weave α) :
    (singleStep m patience lefts rights w).1.all.Perm w.all := by
  unfold singleStep
  split
  · split
    · exact w.takeLeft_perm 1
    · exact w.takeRight_perm 1
  · exact .refl _

theorem strideStep_perm (m : Manner α) (w : Weave α) : (strideStep m w).1.all.Perm w.all := by
  unfold strideStep
  split
  · exact .refl _
  · next r _ _ =>
    have h₁ := w.takeLeft_perm (leading (!m.fromBack) (fun l => m.leftFirst l r) w.left)
    extract_lets gain w₁ w₂
    have h₂ := (w₁.takeRight_perm 1).trans h₁
    split
    · exact h₁
    split
    · exact h₂
    split
    · exact h₂
    · extract_lets gain' w₃ w₄
      have h₃ := (w₂.takeRight_perm gain').trans h₂
      have h₄ := (w₃.takeLeft_perm 1).trans h₃
      split
      · exact h₃
      split
      · exact h₄
      · exact h₄

theorem weave_perm (m : Manner α) (fuel patience : Nat) (pace : Pace) (w : Weave α) :
    (weave m fuel patience pace w).1.all.Perm w.all := by
  fun_induction weave m fuel patience pace w with
  | case1 => exact .refl _
  | case2 fuel patience lefts rights w w' pace h ih =>
    exact ih.trans (by simpa [h] using singleStep_perm m patience lefts rights w)
  | case3 fuel patience lefts rights w w' h =>
    simpa [h] using singleStep_perm m patience lefts rights w
  | case4 fuel patience w w' h ih => exact ih.trans (by simpa [h] using strideStep_perm m w)
  | case5 fuel patience w w' h ih => exact ih.trans (by simpa [h] using strideStep_perm m w)
  | case6 fuel patience w w' h => simpa [h] using strideStep_perm m w

theorem Manner.opening_perm (m : Manner α) (w : Weave α) : (m.opening w).all.Perm w.all := by
  unfold opening
  split
  · exact w.takeLeft_perm 1
  · exact w.takeRight_perm 1

theorem Manner.finish_perm (m : Manner α) (w : Weave α) : (m.finish w).Perm w.all := by
  have h : (w.taken.reverse ++ w.left ++ w.right).Perm w.all :=
    ((List.reverse_perm _).append_right _).append_right _
  unfold finish
  split
  · exact (List.reverse_perm _).trans h
  · refine .trans ?_ h
    rw [List.append_assoc, List.append_assoc]
    exact List.perm_append_comm.append_left _

theorem Manner.start_perm (m : Manner α) (left right : List α) :
    (m.start left right).all.Perm (left ++ right) := by
  unfold start
  split
  · exact (List.reverse_perm _).append (List.reverse_perm _)
  · exact .refl _

theorem weaveRuns_perm (lt : α → α → Bool) (patience : Nat) (left right : List α) :
    (weaveRuns lt patience left right).1.Perm (left ++ right) := by
  unfold weaveRuns
  extract_lets m w
  have h : w.all.Perm (left ++ right) := (m.opening_perm _).trans (m.start_perm left right)
  split
  · exact (m.finish_perm w).trans h
  · exact (m.finish_perm _).trans ((weave_perm m _ patience _ w).trans h)

/-- Merging two runs loses nothing. -/
theorem merge_perm (lt : α → α → Bool) (patience : Nat) (left right : List α) :
    (merge lt patience left right).1.Perm (left ++ right) := by
  unfold merge
  split
  · simp
  · next r rest =>
    extract_lets ahead
    split
    · exact .refl _
    · next l _ =>
      extract_lets behind
      split
      · exact .refl _
      · have h := weaveRuns_perm lt patience (left.drop ahead) ((r :: rest).take behind)
        have := (h.append_left (left.take ahead)).append_right ((r :: rest).drop behind)
        rwa [← List.append_assoc, List.take_append_drop, List.append_assoc left,
          List.take_append_drop] at this

end Sorting
end EarliestFinish
