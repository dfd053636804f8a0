import ComplexCalc.Decimal.Layout
/-!
# Complex numbers

A number is a pair of doubles. The operations here always give a number; division, which can fail,
is in `ComplexCalc.Arithmetic`. Equality compares the components as doubles, so the sign of a zero
makes no difference and a NaN differs from itself.
-/
namespace ComplexCalc

/-- The number `re + im·i`. -/
structure Number where
  re : Float
  im : Float
deriving Repr, Inhabited

namespace Number

instance : BEq Number := ⟨fun z w => z.re == w.re && z.im == w.im⟩

/-- A number on the real axis. -/
def ofReal (x : Float) : Number := ⟨x, 0.0⟩

def zero : Number := ⟨0.0, 0.0⟩
def i : Number := ⟨0.0, 1.0⟩

/-- The double nearest to the integer, on the real axis. -/
def ofInt (n : Int) : Number := ofReal (Float.ofInt n)

def isReal (z : Number) : Bool := z.im == 0.0

/-- The 64-bit signed integer that the number is, if it is one. -/
def integer? (z : Number) : Option Int :=
  if z.isReal then
    match Double.integer? z.re with
    | some n => if -0x8000000000000000 ≤ n ∧ n < 0x8000000000000000 then some n else none
    | none => none
  else none

def isInteger (z : Number) : Bool := z.integer?.isSome

/-! ## Arithmetic -/

def add (z w : Number) : Number := ⟨z.re + w.re, z.im + w.im⟩
def sub (z w : Number) : Number := ⟨z.re - w.re, z.im - w.im⟩

/-- The product: `(a + bi)(c + di) = (ac - bd) + (ad + bc)i`. -/
def mul (z w : Number) : Number := ⟨z.re * w.re - z.im * w.im, z.re * w.im + z.im * w.re⟩

/-- Each component is taken from zero, which leaves a zero positive. -/
def neg (z : Number) : Number := ⟨0.0 - z.re, 0.0 - z.im⟩

def conj (z : Number) : Number := ⟨z.re, -z.im⟩

instance : Add Number := ⟨add⟩
instance : Sub Number := ⟨sub⟩
instance : Mul Number := ⟨mul⟩
instance : Neg Number := ⟨neg⟩

/-- The modulus, scaled by the larger component so that no square overflows or vanishes. -/
def abs (z : Number) : Float :=
  if z.re.isInf || z.im.isInf then Double.infinity
  else
    let s := Double.larger z.re.abs z.im.abs
    if s == 0.0 then 0.0
    else
      let x := z.re / s
      let y := z.im / s
      s * (x * x + y * y).sqrt

/-! ## Real operands

A real operand acts on the components, without passing through a number. -/

def addReal (z : Number) (k : Float) : Number := ⟨z.re + k, z.im + 0.0⟩
def subReal (z : Number) (k : Float) : Number := ⟨z.re - k, z.im - 0.0⟩
def realSub (k : Float) (z : Number) : Number := (-z).addReal k
def mulReal (z : Number) (k : Float) : Number := ⟨z.re * k, z.im * k⟩

/-! ## Text -/

/-- The text of a number: its real part, and its imaginary part with a sign unless that is zero. The
sign is the sign bit, which a NaN does not have here: before a NaN there is always a plus. -/
def text (z : Number) : String :=
  if z.isReal then Decimal.realText z.re
  else
    Decimal.realText z.re ++ (if Double.isNegative z.im then "" else "+") ++
      Decimal.realText z.im ++ "i"

/-- The number by its two components, as logs show it. -/
def debugText (z : Number) : String :=
  "ComplexNumber(" ++ Decimal.realText z.re ++ ", " ++ Decimal.realText z.im ++ ")"

end Number
end ComplexCalc
