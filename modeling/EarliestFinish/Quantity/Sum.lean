import EarliestFinish.Quantity.Basic

/-!
# Sums and means

Two ways to add up a list. `running` goes from left to right. `total` adds in pairs, which loses
less to rounding:

* fewer than eight numbers are added from left to right;
* up to 128 numbers are dealt out in turn to eight accumulators, which are then added in pairs;
  what is left of the last block follows from left to right;
* a longer list is cut near the middle, at a multiple of eight, and the halves are added.

Over exact quantities both give the same sum.
-/

namespace EarliestFinish
namespace Quantity

variable {α : Type} [Quantity α]

/-- The sum from left to right. -/
def running (xs : List α) : α := xs.foldl (· + ·) 0

/-- Eight accumulators. -/
structure Octet (α : Type) where
  a : α
  b : α
  c : α
  d : α
  e : α
  f : α
  g : α
  h : α

/-- The accumulators added in pairs. -/
def Octet.sum (r : Octet α) : α :=
  ((r.a + r.b) + (r.c + r.d)) + ((r.e + r.f) + (r.g + r.h))

/-- Deals every full block of eight to the accumulators; the rest of the list is left over. -/
def Octet.deal : Octet α → List α → Octet α × List α
  | r, a :: b :: c :: d :: e :: f :: g :: h :: xs =>
    Octet.deal ⟨r.a + a, r.b + b, r.c + c, r.d + d, r.e + e, r.f + f, r.g + g, r.h + h⟩ xs
  | r, xs => (r, xs)

/-- The sum of one stretch through eight accumulators, or from left to right if it is short. -/
def stretchSum : List α → α
  | a :: b :: c :: d :: e :: f :: g :: h :: xs =>
    let (r, rest) := Octet.deal ⟨a, b, c, d, e, f, g, h⟩ xs
    rest.foldl (· + ·) r.sum
  | xs => running xs

/-- The longest stretch that is not cut in two. -/
def stretchLimit : Nat := 128

/-- Where a long list is cut: the last multiple of eight in its first half. -/
def cut (n : Nat) : Nat := n / 2 - n / 2 % 8

/-- The sum in pairs. -/
def pairwise (xs : List α) : α :=
  if stretchLimit < xs.length then
    pairwise (xs.take (cut xs.length)) + pairwise (xs.drop (cut xs.length))
  else stretchSum xs
termination_by xs.length
decreasing_by
  all_goals simp only [stretchLimit, cut, List.length_take, List.length_drop] at *; omega

/-- The sum in pairs, started at zero. -/
def total (xs : List α) : α := 0 + pairwise xs

/-- The mean: the sum in pairs over the number of summands. -/
def mean (xs : List α) : α := total xs / (xs.length : α)

/-- The mean square distance from the mean. -/
def variance (xs : List α) : α :=
  let m := mean xs
  mean (xs.map fun x => (x - m) * (x - m))

/-- The root of the mean square distance from the mean. -/
def deviation [SquareRoot α] (xs : List α) : α := SquareRoot.sqrt (variance xs)

end Quantity
end EarliestFinish
