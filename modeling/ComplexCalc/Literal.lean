import ComplexCalc.Token
import ComplexCalc.Number
import ComplexCalc.Decimal.Reading
/-!
# Reading literals

The number that a literal writes. Separators do not count. A literal of a base is an integer that
fits a signed word of 64 bits; a decimal one is the nearest double, on the imaginary axis when an
`i` ends it.
-/
namespace ComplexCalc.Literal

/-- Why a literal is no number. -/
inductive Invalid where
  /-- A base without a digit. -/
  | noDigits
  /-- An integer of more than 63 bits. -/
  | outOfRange
  /-- A decimal with an exponent of no digits, without its separators and its `i`. -/
  | notDecimal (body : List Char)
deriving DecidableEq, Repr

/-- The value of a digit in a base of at most sixteen. -/
def digitValue (c : Char) : Nat :=
  if c.isDigit then c.toNat - '0'.toNat
  else if 'a' ≤ c ∧ c ≤ 'f' then c.toNat - 'a'.toNat + 10
  else c.toNat - 'A'.toNat + 10

/-- The value of digits in a base. -/
def digitsValue (radix : Nat) (cs : List Char) : Nat :=
  cs.foldl (fun n c => radix * n + digitValue c) 0

/-- The integer that the digits of a base write. -/
def readBased (b : Match.Base) (cs : List Char) : Except Invalid Number :=
  if cs = [] then .error .noDigits
  else
    let n := digitsValue b.radix cs
    if 0x8000000000000000 ≤ n then .error .outOfRange else .ok (Number.ofInt n)

/-- The number that a decimal literal writes. -/
def readDecimal (cs : List Char) : Except Invalid Number :=
  let imaginary := cs.getLast? = some 'i'
  let body := if imaginary then cs.dropLast else cs
  match Decimal.ofChars? body with
  | some d => .ok (if imaginary then ⟨0.0, d.toFloat⟩ else .ofReal d.toFloat)
  | none => .error (.notDecimal body)

/-- The number that a literal writes. -/
def read (text : List Char) : Except Invalid Number :=
  let cs := text.filter (· ≠ '_')
  match Match.base? cs with
  | some b => readBased b (cs.drop 2)
  | none => readDecimal cs

end ComplexCalc.Literal
