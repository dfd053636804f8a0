import ComplexCalc.Arithmetic
import ComplexCalc.RealFunctions
/-!
# Elementary functions

Each function takes a real shortcut when its argument is real and in the real domain of the
function, and a formula in the components otherwise. The inverse functions are composed of square
roots and logarithms, which keeps them accurate near their branch points.
-/
namespace ComplexCalc

namespace Number

/-- Half of pi. -/
def halfPi : Float := 1.5707963267948966

def pi : Float := 3.141592653589793

/-- The base of natural logarithms. -/
def euler : Float := 2.718281828459045

/-- The natural logarithm of ten. -/
def ln10 : Float := 2.302585092994046

def sqr (z : Number) : Number := z * z

/-- The principal square root. The sign of its imaginary part is that of the imaginary part of
`z`. -/
def sqrt (z : Number) : Number :=
  let y := z.im.abs
  if z.re == 0.0 then
    let t := (y / 2.0).sqrt
    ⟨t, if z.im < 0.0 then -t else t⟩
  else
    let t := (2.0 * (z.abs + z.re.abs)).sqrt
    let u := t / 2.0
    if z.re > 0.0 then ⟨u, z.im / t⟩
    else ⟨y / t, if z.im < 0.0 then -u else u⟩

/-- The product `result · z ^ e` by repeated squaring, for `e` at least one. The multiplication is a
parameter, so that what it is used for can be observed. -/
def powerTimesBy {m : Type → Type} [Monad m] (times : Number → Number → m Number)
    (result z : Number) (e : Nat) : m Number :=
  if e ≤ 1 then times result z
  else if e % 2 = 1 then do
    let product ← times result z
    let square ← times z z
    powerTimesBy times product square (e / 2)
  else do
    let square ← times z z
    powerTimesBy times result square (e / 2)

/-- The power `z ^ e` by repeated squaring, for `e` at least one. -/
def intPowerBy {m : Type → Type} [Monad m] (times : Number → Number → m Number) (z : Number)
    (e : Nat) : m Number :=
  if e ≤ 1 then pure z
  else do
    let square ← times z z
    if e % 2 = 1 then powerTimesBy times z square (e / 2) else intPowerBy times square (e / 2)

def powerTimes (result z : Number) (e : Nat) : Number :=
  Id.run (powerTimesBy (fun z w => pure (z * w)) result z e)

def intPower (z : Number) (e : Nat) : Number := Id.run (intPowerBy (fun z w => pure (z * w)) z e)

theorem powerTimes_eq (result z : Number) (e : Nat) : powerTimes result z e =
    if e ≤ 1 then result * z
    else if e % 2 = 1 then powerTimes (result * z) (z * z) (e / 2)
    else powerTimes result (z * z) (e / 2) := by
  rw [powerTimes, powerTimesBy]
  split
  · rfl
  · split <;> rfl

theorem intPower_eq (z : Number) (e : Nat) : z.intPower e =
    if e ≤ 1 then z
    else if e % 2 = 1 then powerTimes z (z * z) (e / 2)
    else intPower (z * z) (e / 2) := by
  rw [intPower, intPowerBy]
  split
  · rfl
  · rw [pure_bind]
    split <;> rfl

variable (m : RealFunctions)

/-- The square of a real number, which must not overflow. It overflows where the product does. -/
def realSquare (x : Float) : Except Failure Float :=
  if (x * x).isInf && x.isFinite then fault .overflow else .ok (m.square x)

/-- The angle of a number. -/
def arg (z : Number) : Float := m.atan2 z.im z.re

/-- The number of modulus `r` and angle `theta`. -/
def polar (r theta : Float) : Number := ⟨r * m.cos theta, r * m.sin theta⟩

def exp (z : Number) : Number :=
  if z.isReal then ofReal (m.exp z.re) else polar m (m.exp z.re) z.im

/-- The principal natural logarithm. -/
def ln (z : Number) : Number := ⟨m.log z.abs, z.arg m⟩

/-- The logarithm in base ten. -/
def log (z : Number) : Except Failure Number := (z.ln m).divReal ln10

/-- A real power of a number other than zero. -/
def realPower (z : Number) (n : Float) : Number :=
  if z.isReal && z.re > 0.0 then ofReal (m.pow z.re n)
  else
    let t := z.ln m
    polar m (m.exp (n * t.re)) (n * t.im)

/-- The power `z ^ n`. Zero has no power but zero, and an integer exponent above one only
multiplies. -/
def power (z n : Number) : Number :=
  if z == zero then zero
  else if n.isReal then
    match n.integer? with
    | some e => if n.re > 1.0 then intPower z e.toNat else realPower m z n.re
    | none => realPower m z n.re
  else exp m (n * z.ln m)

/-! ## Trigonometric functions -/

/-- The sine, which is exactly zero at the multiples of `pi`. -/
def sin (z : Number) : Number :=
  if z.isReal then
    if (Double.integer? (z.re / pi)).isSome then zero else ofReal (m.sin z.re)
  else ⟨m.sin z.re * m.cosh z.im, m.cos z.re * m.sinh z.im⟩

def cos (z : Number) : Number :=
  if z.isReal then ofReal (m.cos z.re)
  else ⟨m.cos z.re * m.cosh z.im, -m.sin z.re * m.sinh z.im⟩

def tan (z : Number) : Except Failure Number :=
  if z.isReal then .ok (ofReal (m.tan z.re)) else (z.sin m).div (z.cos m)

/-! ## Hyperbolic functions -/

def sinh (z : Number) : Number :=
  if z.isReal then ofReal (m.sinh z.re)
  else ⟨m.sinh z.re * m.cos z.im, m.cosh z.re * m.sin z.im⟩

def cosh (z : Number) : Number :=
  if z.isReal then ofReal (m.cosh z.re)
  else ⟨m.cosh z.re * m.cos z.im, m.sinh z.re * m.sin z.im⟩

def tanh (z : Number) : Except Failure Number :=
  if z.isReal then .ok (ofReal (m.tanh z.re)) else (z.sinh m).div (z.cosh m)

/-! ## Inverse functions -/

/-- The inverse of the hyperbolic sine, `ln (z + sqrt (z² + 1))`, where the real part of `z²` is
`(x - y)(x + y)`. -/
def asinh (z : Number) : Number :=
  if z.isReal then ofReal (m.asinh z.re)
  else
    let x := z.re
    let y := z.im
    ln m (z + sqrt ⟨(x - y) * (x + y) + 1.0, 2.0 * x * y⟩)

/-- The inverse of the hyperbolic cosine, `2 ln (sqrt ((z + 1) / 2) + sqrt ((z - 1) / 2))`. -/
def acosh (z : Number) : Number :=
  if z.isReal && z.re ≥ 1.0 then ofReal (m.acosh z.re)
  else
    (ln m (sqrt ((z.addReal 1.0).mulReal 0.5) + sqrt ((z.subReal 1.0).mulReal 0.5))).mulReal 2.0

/-- The inverse of the sine, `-i asinh (iz)`. -/
def asin (z : Number) : Number :=
  if z.isReal && z.re.abs ≤ 1.0 then ofReal (m.asin z.re)
  else
    let t := asinh m ⟨-z.im, z.re⟩
    ⟨t.im, -t.re⟩

/-- The inverse of the cosine, `pi / 2 - asin z`. -/
def acos (z : Number) : Number :=
  if z.isReal && z.re.abs ≤ 1.0 then ofReal (m.acos z.re)
  else
    let t := asin m z
    ⟨halfPi - t.re, -t.im⟩

/-- The inverse of the tangent, by its real and imaginary parts. -/
def atan (z : Number) : Except Failure Number :=
  if z.isReal then .ok (ofReal (m.atan z.re))
  else do
    let x := z.re
    let y := z.im
    let xx := x * x
    let d := 1.0 - xx - y * y
    let above ← realSquare m (y + 1.0)
    let below ← realSquare m (y - 1.0)
    return ⟨0.5 * m.atan2 (2.0 * x) d, 0.25 * (m.log (xx + above) - m.log (xx + below))⟩

/-- The inverse of the hyperbolic tangent, by its real and imaginary parts. -/
def atanh (z : Number) : Except Failure Number :=
  if z.isReal && z.re.abs < 1.0 then .ok (ofReal (m.atanh z.re))
  else do
    let x := z.re
    let y := z.im
    let yy := y * y
    let d := 1.0 - yy - x * x
    let above ← realSquare m (1.0 + x)
    let below ← realSquare m (1.0 - x)
    return ⟨0.25 * (m.log (yy + above) - m.log (yy + below)), 0.5 * m.atan2 (2.0 * y) d⟩

end Number

/-! ## The builtin functions of one number -/

/-- A builtin function of one number. -/
inductive Elementary where
  | abs | sqr | sqrt | exp | ln | log | arg | re | im | conj
  | sin | cos | tan | asin | acos | atan
  | sinh | cosh | tanh | asinh | acosh | atanh
deriving DecidableEq, Repr

namespace Elementary

/-- The functions, in the order in which a table lists them. -/
def all : List Elementary :=
  [abs, sqr, sqrt, exp, ln, log, arg, re, im, conj, sin, cos, tan, asin, acos, atan, sinh, cosh,
    tanh, asinh, acosh, atanh]

def name : Elementary → String
  | abs => "abs"
  | sqr => "sqr"
  | sqrt => "sqrt"
  | exp => "exp"
  | ln => "ln"
  | log => "log"
  | arg => "arg"
  | re => "Re"
  | im => "Im"
  | conj => "conj"
  | sin => "sin"
  | cos => "cos"
  | tan => "tan"
  | asin => "asin"
  | acos => "acos"
  | atan => "atan"
  | sinh => "sinh"
  | cosh => "cosh"
  | tanh => "tanh"
  | asinh => "asinh"
  | acosh => "acosh"
  | atanh => "atanh"

/-- The value of a function at a number. -/
def apply (m : RealFunctions) (z : Number) : Elementary → Except Failure Number
  | abs => .ok (.ofReal z.abs)
  | sqr => .ok z.sqr
  | sqrt => .ok z.sqrt
  | exp => .ok (z.exp m)
  | ln => .ok (z.ln m)
  | log => z.log m
  | arg => .ok (.ofReal (z.arg m))
  | re => .ok (.ofReal z.re)
  | im => .ok ⟨0.0, z.im⟩
  | conj => .ok z.conj
  | sin => .ok (z.sin m)
  | cos => .ok (z.cos m)
  | tan => z.tan m
  | asin => .ok (z.asin m)
  | acos => .ok (z.acos m)
  | atan => z.atan m
  | sinh => .ok (z.sinh m)
  | cosh => .ok (z.cosh m)
  | tanh => z.tanh m
  | asinh => .ok (z.asinh m)
  | acosh => .ok (z.acosh m)
  | atanh => z.atanh m

end Elementary
end ComplexCalc
