/-!
# Doubles in decimal

A double is taken apart into its exact value, `Reading.ofFloat`, and written in decimal digits in
two ways: `shortest` gives the fewest digits that read back, and `fixed` a fixed number of places.
-/

namespace EarliestFinish
namespace Decimal

/-! ## The exact value

The 64 bits of a double are a sign, eleven bits of exponent and 52 bits of fraction. A finite
double is a whole significand times a power of two: `significand * 2 ^ exponent`. The texts of
whole numbers and of what is not finite stand here too.
-/

/-- A finite double: a sign, and `significand * 2 ^ exponent`. -/
structure Binary where
  negative : Bool
  significand : Nat
  exponent : Int
  deriving DecidableEq

/-- What 64 bits stand for. -/
inductive Reading
  | nan
  | infinite (negative : Bool)
  | finite (value : Binary)
  deriving DecidableEq

/-- The number of fraction bits. -/
def fractionBits : Nat := 52

/-- The exponent of the smallest double above zero. -/
def leastExponent : Int := -1074

/-- One more than the greatest fraction. -/
def fractionLimit : Nat := Nat.pow 2 fractionBits

/-- Splits the bits of a double. -/
def Reading.ofBits (bits : Nat) : Reading :=
  let negative := bits.testBit 63
  let scale := bits / fractionLimit % 2048
  let fraction := bits % fractionLimit
  if scale = 2047 then
    if fraction = 0 then .infinite negative else .nan
  else if scale = 0 then .finite ⟨negative, fraction, leastExponent⟩
  else .finite ⟨negative, fractionLimit + fraction, leastExponent + ((scale - 1 : Nat) : Int)⟩

/-- What a double stands for. -/
def Reading.ofFloat (x : Float) : Reading := .ofBits x.toBits.toNat

/-- Whether the lower neighbour of a double is nearer than its upper one. -/
def Binary.isBinadeStart (b : Binary) : Bool :=
  b.significand = fractionLimit && leastExponent < b.exponent

/-- The text of a sign. -/
def signText (negative : Bool) : String := if negative then "-" else ""

/-- A whole number in decimal digits. -/
def natText (n : Nat) : String := String.ofList (Nat.toDigits 10 n)

/-- A whole number of either sign in decimal digits. -/
def intText (n : Int) : String := signText (n < 0) ++ natText n.natAbs

/-- The text of a number that is not finite. -/
def infiniteText (negative : Bool) : String := signText negative ++ "inf"

/-- The text of what is not a number. -/
def nanText : String := "nan"

/-! ## The fewest digits that read back

A finite double is read back from every decimal in an interval around it: half way to each of its
two neighbours, the ends included when its significand is even. On the grid of decimals with `n`
digits only the two neighbours of the double can be the nearest in that interval, so they are
tried for `n = 1, 2, …`. The first grid with a hit gives the digits; of two hits the nearer one
does, and of two equally near the even one. Seventeen digits always suffice.

The digits stand in positional form when the decimal point falls near them, and in exponent form
otherwise; `Layout` says where the change comes.
-/

/-- A positive fraction. -/
structure Fraction where
  num : Nat
  den : Nat

/-- A fraction times a power of ten. -/
def Fraction.shift (x : Fraction) (k : Int) : Fraction :=
  if 0 ≤ k then ⟨x.num * Nat.pow 10 k.toNat, x.den⟩
  else ⟨x.num, x.den * Nat.pow 10 (-k).toNat⟩

/-- The exact value of a double in quarters of its last place, and the two ends of the interval
that is read back as it: the value, the lower end and the upper end over one denominator. -/
structure Span where
  value : Nat
  lower : Nat
  upper : Nat
  den : Nat
  closed : Bool

/-- The interval around a double. -/
def Binary.span (b : Binary) : Span :=
  let unit := b.exponent - 2
  let scale := if 0 ≤ unit then Nat.pow 2 unit.toNat else 1
  let below := if b.isBinadeStart then 1 else 2
  { value := 4 * b.significand * scale
    lower := (4 * b.significand - below) * scale
    upper := (4 * b.significand + 2) * scale
    den := if 0 ≤ unit then 1 else Nat.pow 2 (-unit).toNat
    closed := b.significand % 2 = 0 }

/-- The number of decimal digits of a whole number. -/
def digitCount (n : Nat) : Nat := (Nat.toDigits 10 n).length

/-- The place of the leading digit: the `k` with `10 ^ (k - 1) ≤ num / den < 10 ^ k`. -/
def leadingPlace (num den : Nat) : Int :=
  if den ≤ num then digitCount (num / den) else 1 - digitCount ((den - 1) / num)

/-- A whole coefficient times a power of ten. -/
structure Digits where
  coefficient : Nat
  exponent : Int
  deriving DecidableEq

/-- Whether `coefficient * 10 ^ exponent` lies in an interval. -/
def Span.holds (s : Span) (d : Digits) : Bool :=
  let point := Fraction.shift ⟨d.coefficient * s.den, 1⟩ d.exponent
  if s.closed then s.lower * point.den ≤ point.num && point.num ≤ s.upper * point.den
  else s.lower * point.den < point.num && point.num < s.upper * point.den

/-- The nearest neighbour on the grid of `n` digits that is read back, if one is. -/
def Span.onGrid? (s : Span) (place : Int) (n : Nat) : Option Digits :=
  let exponent := place - n
  let scaled := Fraction.shift ⟨s.value, s.den⟩ (-exponent)
  let floor := scaled.num / scaled.den
  let rest := scaled.num % scaled.den
  let low : Digits := ⟨floor, exponent⟩
  let high : Digits := ⟨floor + 1, exponent⟩
  match s.holds low, s.holds high with
  | true, true =>
    if 2 * rest < scaled.den ∨ (2 * rest = scaled.den ∧ floor % 2 = 0) then some low else some high
  | true, false => some low
  | false, true => some high
  | false, false => none

/-- The most digits that a double needs. -/
def mostDigits : Nat := 17

/-- The fewest digits that are read back as a double other than zero. -/
def Binary.shortest (b : Binary) : Digits :=
  let s := b.span
  let place := leadingPlace s.value s.den
  ((List.range mostDigits).findSome? fun i => s.onGrid? place (i + 1)).getD ⟨0, 0⟩

/-- Where decimals change from positional to exponent form. -/
structure Layout where
  /-- The least power of ten of a leading digit that is still written positionally. -/
  lowest : Int
  /-- The greatest power of ten of a leading digit that is still written positionally. -/
  highest : Int
  /-- The least number of digits of an exponent. -/
  exponentWidth : Nat

/-- Numbers are positional from `0.0001` to below `10 ^ 16`; exponents have two digits or more. -/
def Layout.standard : Layout := ⟨-4, 15, 2⟩

/-- A run of zeros. -/
def zeros (n : Nat) : List Char := List.replicate n '0'

/-- Digits with the decimal point behind the first `point` of them; a digit stands on both sides
of the point. -/
def positional (digits : List Char) (point : Int) : List Char :=
  if point ≤ 0 then '0' :: '.' :: zeros (-point).toNat ++ digits
  else if digits.length ≤ point.toNat then
    digits ++ zeros (point.toNat - digits.length) ++ ['.', '0']
  else digits.take point.toNat ++ '.' :: digits.drop point.toNat

/-- Digits with the decimal point behind the first of them, if more follow, and an exponent. -/
def Layout.scientific (l : Layout) (digits : List Char) (exponent : Int) : List Char :=
  let fraction := if digits.length ≤ 1 then [] else '.' :: digits.drop 1
  let size := Nat.toDigits 10 exponent.natAbs
  digits.take 1 ++ fraction ++
    'e' :: (if exponent < 0 then '-' else '+') :: zeros (l.exponentWidth - size.length) ++ size

/-- The text of digits in a layout. -/
def Layout.write (l : Layout) (d : Digits) : List Char :=
  let all := Nat.toDigits 10 d.coefficient
  let digits := (all.reverse.dropWhile (· = '0')).reverse
  let leading := d.exponent + all.length - 1
  if l.lowest ≤ leading ∧ leading ≤ l.highest then positional digits (leading + 1)
  else l.scientific digits leading

/-- The shortest text that is read back as a double. -/
def shortest (x : Float) : String :=
  match Reading.ofFloat x with
  | .nan => nanText
  | .infinite negative => infiniteText negative
  | .finite b =>
    signText b.negative ++
      if b.significand = 0 then "0.0" else String.ofList (Layout.standard.write b.shortest)

/-! ## A fixed number of decimal places

The exact value of a double is rounded to the nearest multiple of `10 ^ -places`, and a value half
way between two goes to the even one. The sign is kept, also when every digit is zero.
-/

/-- The whole number nearest to a quotient; half way between two, the even one. -/
def roundHalfEven (num den : Nat) : Nat :=
  let floor := num / den
  let rest := num % den
  if 2 * rest < den ∨ (2 * rest = den ∧ floor % 2 = 0) then floor else floor + 1

/-- The magnitude of a double in units of `10 ^ -places`, rounded. -/
def Binary.inPlaces (b : Binary) (places : Nat) : Nat :=
  let scaled := b.significand * Nat.pow 10 places
  if 0 ≤ b.exponent then scaled * Nat.pow 2 b.exponent.toNat
  else roundHalfEven scaled (Nat.pow 2 (-b.exponent).toNat)

/-- A whole number of units of `10 ^ -places` with its decimal point. -/
def pointed (places n : Nat) : List Char :=
  let digits := Nat.toDigits 10 n
  let filled := List.replicate (places + 1 - digits.length) '0' ++ digits
  filled.take (filled.length - places) ++ '.' :: filled.drop (filled.length - places)

/-- A double with a fixed number of decimal places. -/
def fixed (places : Nat) (x : Float) : String :=
  match Reading.ofFloat x with
  | .nan => nanText
  | .infinite negative => infiniteText negative
  | .finite b => signText b.negative ++ String.ofList (pointed places (b.inPlaces places))

end Decimal
end EarliestFinish
