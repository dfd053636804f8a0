import ComplexCalc.Double
/-!
# Decimals

A decimal is a natural number times a power of ten. `toFloat` is the double nearest to it. The
other direction goes through the grid of the decimals with a given count of digits: `rounded` takes
the point of the grid nearest to a value, and `shortest` the first grid with a point that reads back
as the value.
-/
namespace ComplexCalc

/-- The number `coefficient · 10 ^ exponent`. -/
structure Decimal where
  coefficient : Nat
  exponent : Int
deriving DecidableEq, Repr

/-- How many decimal digits a number has; zero has one. -/
def digitCount (n : Nat) : Nat :=
  (Nat.toDigits 10 n).length

namespace Ratio

/-- The exponent of the greatest power of ten that is not above a positive fraction. -/
def order (v : Ratio) : Int :=
  if v.den ≤ v.num then digitCount (v.num / v.den) - 1
  else -(digitCount ((v.den - 1) / v.num) : Int)

/-- The fraction times `10 ^ k`. -/
def shift (v : Ratio) (k : Int) : Ratio :=
  if 0 ≤ k then ⟨v.num * Nat.pow 10 k.toNat, v.den⟩ else ⟨v.num, v.den * Nat.pow 10 (-k).toNat⟩

/-- The two integers around a fraction, the nearer one first; of two equally near the even one. -/
def neighbours (v : Ratio) : Nat × Nat :=
  let q := v.num / v.den
  let r := v.num % v.den
  if 2 * r < v.den ∨ (2 * r = v.den ∧ q % 2 = 0) then (q, q + 1) else (q + 1, q)

end Ratio

namespace Decimal

/-- The double nearest to the decimal, infinite beyond the largest one. -/
def toFloat (d : Decimal) : Float :=
  Float.ofScientific d.coefficient (d.exponent < 0) d.exponent.natAbs

/-- The two decimals of `digits` significant digits around a positive fraction, the nearer one
first. -/
def around (digits : Nat) (v : Ratio) : Decimal × Decimal :=
  let k := digits - 1 - v.order
  let (near, far) := (v.shift k).neighbours
  (⟨near, -k⟩, ⟨far, -k⟩)

/-- The decimal of `digits` significant digits that is nearest to a positive fraction. -/
def rounded (digits : Nat) (v : Ratio) : Decimal :=
  (around digits v).1

/-- The decimal of `digits` significant digits that reads back as `x` and lies nearest to it, if
there is one. -/
def readingBack? (x : Float) (v : Ratio) (digits : Nat) : Option Decimal :=
  let (near, far) := around digits v
  if near.toFloat == x then some near
  else if far.toFloat == x then some far
  else none

/-- The decimal with the fewest digits that reads back as the positive double `x`, whose exact
value is `v`. Seventeen digits always suffice. -/
def shortest (x : Float) (v : Ratio) : Decimal :=
  ((List.range' 1 16).findSome? (readingBack? x v)).getD (rounded 17 v)

/-- The significant digits, without zeros at the end, and the power of ten that the first of them
counts. -/
def digits (d : Decimal) : List Char × Int :=
  let all := Nat.toDigits 10 d.coefficient
  match (all.reverse.dropWhile (· == '0')).reverse with
  | [] => (['0'], 0)
  | cs => (cs, d.exponent + (all.length - 1))

end Decimal
end ComplexCalc
