import ComplexCalc.Error
/-!
# Division and mixed operands

Division fails on zero. An operand from outside the language is taken as a real number where it is
one, and then acts on the components of the other operand; everything else arithmetic refuses.
-/
namespace ComplexCalc

/-- Gives up because the expression has no value. -/
def noValue {α : Type} (e : EvalError) : Except Failure α := .error (.noValue e)

/-- Gives up because a primitive operation failed. -/
def fault {α : Type} (f : Fault) : Except Failure α := .error (.fault f)

namespace Number

/-- Each component divided by a real number. -/
def divReal (z : Number) (k : Float) : Except Failure Number :=
  if k == 0.0 then noValue .divisionByZero else .ok ⟨z.re / k, z.im / k⟩

/-- The quotient: the product with the conjugate of the divisor over its squared modulus, both
scaled by the larger component of the divisor. Where that is zero although the divisor is not, the
scaling itself fails. -/
def div (z w : Number) : Except Failure Number :=
  if w.re == 0.0 && w.im == 0.0 then noValue .divisionByZero
  else
    let s := Double.larger w.re.abs w.im.abs
    if s == 0.0 then fault .zeroDivision
    else
      let c := w.re / s
      let d := w.im / s
      (z * ⟨c, -d⟩).divReal ((c * c + d * d) * s)

/-- A real number divided by a number. -/
def realDiv (k : Float) (z : Number) : Except Failure Number := (ofReal k).div z

/-- The number as an integer of 64 bits. -/
def asInteger (z : Number) : Except Failure Int :=
  match z.integer? with
  | some n => .ok n
  | none => noValue (.fractional z)

/-- The number as a real one. -/
def asReal (z : Number) : Except Failure Float :=
  if z.isReal then .ok z.re else noValue (.notReal z)

end Number

namespace Native

/-- The number that an operand must be. -/
def expectNumber : Native → Except Failure Number
  | value (.number z) => .ok z
  | other => noValue (.notNumber other)

/-- The integer that an operand must be. -/
def expectInteger (x : Native) : Except Failure Int :=
  match x with
  | value (.number z) =>
    match z.integer? with
    | some n => .ok n
    | none => noValue (.notInteger x)
  | _ => noValue (.notInteger x)

/-- The real number that an operand outside the language stands for. -/
def real? : Native → Except Failure Float
  | int n =>
    match Double.ofInt? n with
    | some x => .ok x
    | none => fault .integerTooLarge
  | real x => .ok x
  | truth b => .ok (if b then 1.0 else 0.0)
  | _ => fault .operands

/-- An operation on two operands, at least one of them a number, by what it does to two numbers, to
a number and a real operand, and to a real operand and a number. -/
def combine (both : Number → Number → Except Failure Number)
    (right : Number → Float → Except Failure Number)
    (left : Float → Number → Except Failure Number) : Native → Native → Except Failure Number
  | value (.number z), value (.number w) => both z w
  | value (.number z), y => y.real? >>= right z
  | x, value (.number w) => x.real? >>= fun k => left k w
  | _, _ => fault .operands

def add : Native → Native → Except Failure Number :=
  combine (fun z w => .ok (z + w)) (fun z k => .ok (z.addReal k)) (fun k z => .ok (z.addReal k))

def sub : Native → Native → Except Failure Number :=
  combine (fun z w => .ok (z - w)) (fun z k => .ok (z.subReal k)) (fun k z => .ok (.realSub k z))

def mul : Native → Native → Except Failure Number :=
  combine (fun z w => .ok (z * w)) (fun z k => .ok (z.mulReal k)) (fun k z => .ok (z.mulReal k))

def div : Native → Native → Except Failure Number :=
  combine Number.div Number.divReal Number.realDiv

/-- Whether two operands are equal numbers. -/
def isEqual : Native → Native → Bool
  | value (.number z), value (.number w) => z == w
  | _, _ => false

end Native

namespace Value

/-- The number that a value must be. -/
def expectNumber (v : Value) : Except Failure Number := (Native.value v).expectNumber

/-- The integer that a value must be. -/
def expectInteger (v : Value) : Except Failure Int := (Native.value v).expectInteger

/-- The value that the result of a host's function stands for. -/
def ofNative : Native → Except Failure Value
  | .value v => .ok v
  | .nothing => .ok .none
  | .pair re im => .ok (.number ⟨re, im⟩)
  | .text s => noValue (.notConvertible (.text s))
  | x => x.real? >>= fun k => .ok (.number (.ofReal k))

end Value
end ComplexCalc
