/-!
# Quantities

Task lengths, file sizes, durations, times and weights are all *quantities*. A quantity type has
the four operations, the decimal literals, decidable comparisons and a test for being below its
top, and nothing is assumed of any of them: a comparison may fail in both directions, and a sum
may leave the range of the type.

* `Float` holds the quantities that the planner runs on: its top is `∞`, and nothing is below or
  above a NaN.
* `Rat` holds the exact quantities; it has no top.
-/

namespace EarliestFinish

/-- A type of numbers to plan with. -/
class Quantity (α : Type) extends
    Zero α, One α, Add α, Sub α, Mul α, Div α, NatCast α, IntCast α, OfScientific α,
    LT α, LE α where
  decideLt : DecidableLT α
  decideLe : DecidableLE α
  /-- Whether the number is below the greatest of its type, if there is a greatest. -/
  belowTop : α → Bool

attribute [reducible] Quantity.decideLt Quantity.decideLe

attribute [instance (low)] Quantity.toZero Quantity.toOne Quantity.toAdd Quantity.toSub
  Quantity.toMul Quantity.toDiv Quantity.toNatCast Quantity.toIntCast Quantity.toOfScientific
  Quantity.toLT Quantity.toLE Quantity.decideLt Quantity.decideLe

instance : Quantity Rat where
  zero := 0
  one := 1
  decideLt := inferInstance
  decideLe := inferInstance
  belowTop _ := true

instance : Quantity Float where
  natCast := Float.ofNat
  intCast := Float.ofInt
  decideLt := inferInstance
  decideLe := inferInstance
  belowTop x := x < 1.0 / 0.0

/-- A type of numbers with square roots. -/
class SquareRoot (α : Type) where
  sqrt : α → α

instance : SquareRoot Float where
  sqrt := Float.sqrt

namespace Quantity

variable {α : Type} [Quantity α]

/-- Neither NaN nor infinite in either direction. -/
def isFinite (x : α) : Bool := belowTop x && belowTop (0 - x)

/-- Whether a number is neither above nor below zero. -/
def isZero (x : α) : Bool := x ≤ 0 && 0 ≤ x

/-- The quotient of two numbers, unless the divisor is zero. -/
def quotient? (x y : α) : Option α := if isZero y then none else some (x / y)

/-- The square of a number, unless it leaves the range in which the number was. -/
def square? (x : α) : Option α :=
  if isFinite x && !isFinite (x * x) then none else some (x * x)

/-- A whole number as a quantity, unless it is too large to be a finite one. -/
def ofInt? (n : Int) : Option α :=
  if isFinite (n : α) then some (n : α) else none

/-- The larger of two numbers: the first, unless the second is strictly above it. -/
def larger (x y : α) : α := if x < y then y else x

/-- The first of the numbers that no later one is strictly above; `none` if there are none. -/
def largest? : List α → Option α
  | [] => none
  | x :: xs => some (xs.foldl larger x)

/-- The largest number of a list, or `default` for the empty one. -/
def largestOr (default : α) (xs : List α) : α := (largest? xs).getD default

/-- The maximum of two numbers, which is NaN if one of them is. -/
def maximum (x y : α) : α := if x < y ∨ ¬ y ≤ y then y else x

/-- The minimum of two numbers, which is NaN if one of them is. -/
def minimum (x y : α) : α := if y < x ∨ ¬ y ≤ y then y else x

/-- The highest of some numbers; zero if there are none. -/
def highest : List α → α
  | [] => 0
  | x :: xs => xs.foldl maximum x

/-- The lowest of some numbers; zero if there are none. -/
def lowest : List α → α
  | [] => 0
  | x :: xs => xs.foldl minimum x

end Quantity

end EarliestFinish
