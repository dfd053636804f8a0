import ComplexCalc.Arithmetic
import ComplexCalc.RealFunctions
/-!
# Display

How a session shows a value. Integers below ten million are written out; other numbers are rounded
to the precision of the session and written as decimals, or as a coefficient times a power of ten
when they are at least ten million or below one thousandth.
-/
namespace ComplexCalc.Display

/-- A digit raised to an exponent's height. -/
def superscriptDigit (c : Char) : Char :=
  match c with
  | '0' => '⁰'
  | '1' => '¹'
  | '2' => '²'
  | '3' => '³'
  | '4' => '⁴'
  | '5' => '⁵'
  | '6' => '⁶'
  | '7' => '⁷'
  | '8' => '⁸'
  | _ => '⁹'

/-- An exponent in raised digits. -/
def superscript (n : Int) : String :=
  let ds := String.ofList ((Nat.toDigits 10 n.natAbs).map superscriptDigit)
  if n < 0 then "⁻" ++ ds else ds

/-- The double nearest to a power of ten. -/
def powerOfTen (e : Int) : Float :=
  (Decimal.mk 1 e).toFloat

variable (m : RealFunctions) (precision : Nat)

/-- The exponent that a positive double is shown with: its logarithm in base ten, rounded down to an
integer. -/
def exponent (x : Float) : Int := Double.floor (m.log10 x)

/-- A positive double as a coefficient times a power of ten. It fails where that power is below the
smallest double. -/
def scientific (x : Float) : Except Failure String :=
  let e := exponent m x
  let unit := powerOfTen e
  if unit == 0.0 then fault .zeroDivision
  else
    let b := Decimal.roundSignificant precision (x / unit)
    let (b, e) := if b == 10.0 then (1.0, e + 1) else (b, e)
    let coefficient :=
      match Double.integer? b with
      | some n => toString n
      | none => Decimal.realText b
    .ok (coefficient ++ "×10" ++ superscript e)

/-- A real number. -/
def real (x : Float) : Except Failure String :=
  if x.isNaN then .ok "NaN"
  else if x.isInf then .ok (if x > 0.0 then "∞" else "-∞")
  else
    match Double.integer? x with
    | some n =>
      if n.natAbs < 10000000 then .ok (toString n) else inUnits
    | none =>
      if x.abs < 1e-3 || x.abs ≥ 1e7 then inUnits
      else .ok (Decimal.realText (Decimal.roundSignificant precision x))
where
  /-- A number of large or small magnitude, in parentheses. -/
  inUnits : Except Failure String := do
    let text ← scientific m precision x.abs
    return "(" ++ (if x > 0.0 then "" else "-") ++ text ++ ")"

/-- The imaginary part with its mark, where one is not written out and zero leaves nothing. -/
def imaginary (y : Float) : Except Failure String :=
  if y == 1.0 then .ok "i"
  else if y == -1.0 then .ok "-i"
  else if y == 0.0 then .ok ""
  else do return (← real m precision y) ++ "i"

/-- A number: its real part unless it is zero, and its imaginary part after a plus sign unless it
brings a minus of its own. -/
def number (z : Number) : Except Failure String :=
  if z.re == 0.0 && z.im == 0.0 then real m precision 0.0
  else do
    let im ← imaginary m precision z.im
    if z.re == 0.0 then return im
    else
      let re ← real m precision z.re
      let plus := z.im > 0.0 || (z.im < 0.0 && im.toList.head? == some '(')
      return re ++ (if plus then "+" else "") ++ im

/-- A value. -/
def value : Value → Except Failure String
  | .none => .ok "None"
  | .number z => number m precision z

end ComplexCalc.Display
