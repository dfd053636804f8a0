/-!
# Doubles and exact numbers

A `Float` is a binary64 number. Here its value is read exactly, as a fraction or as an integer, and
an integer is rounded to the nearest `Float`. The exact integers and fractions are what texts and
comparisons are computed from; arithmetic on numbers stays with `Float`.
-/
namespace ComplexCalc

/-- A fraction of natural numbers. -/
structure Ratio where
  num : Nat
  den : Nat
deriving DecidableEq, Repr

namespace Double

/-- The fraction `m · 2 ^ e`. -/
def scale (m : Nat) (e : Int) : Ratio :=
  if 0 ≤ e then ⟨m * Nat.pow 2 e.toNat, 1⟩ else ⟨m, Nat.pow 2 (-e).toNat⟩

/-- The absolute value of a finite double, exactly; none for an infinity and for a NaN. -/
def magnitude? (x : Float) : Option Ratio :=
  match x.toModel.unpack with
  | .finite _ m e _ => some (scale m e)
  | .zero _ => some ⟨0, 1⟩
  | _ => none

/-- Whether the sign bit is set. There is one NaN here, without a sign: what a machine keeps in the sign
bit of a NaN is dropped. -/
def isNegative (x : Float) : Bool :=
  match x.toModel.unpack with
  | .finite s _ _ _ => s == .negative
  | .zero s => s == .negative
  | .infinity s => s == .negative
  | .notANumber => false

/-- The integer that a double is, if it is one. -/
def integer? (x : Float) : Option Int :=
  match magnitude? x with
  | some ⟨num, den⟩ =>
    if num % den = 0 then
      some (if isNegative x then -(num / den : Nat) else (num / den : Nat))
    else none
  | none => none

/-- The largest integer that is not above a double; zero for an infinity and for a NaN. -/
def floor (x : Float) : Int :=
  match magnitude? x with
  | some v => (if isNegative x then -(v.num : Int) else v.num) / v.den
  | none => 0

/-- The double nearest to an integer, a tie going to the even one; none when that is beyond the
largest double. -/
def ofInt? (n : Int) : Option Float :=
  let x := Float.ofInt n
  if x.isInf then none else some x

/-- The largest finite double. -/
def largest : Nat := (Nat.pow 2 53 - 1) * Nat.pow 2 971

/-- The larger of two doubles: the first, unless the second exceeds it. -/
def larger (x y : Float) : Float :=
  if y > x then y else x

/-- Positive infinity. -/
def infinity : Float := Float.ofBits 0x7FF0000000000000

end Double
end ComplexCalc
