import ComplexCalc.Number
import ComplexCalc.Text.Quoted
/-!
# Values

Evaluation gives a number or the absence of one. A function that a host program supplies may give
more kinds of results, which are `Native`; `Value.ofNative` turns them into values where it can.
-/
namespace ComplexCalc

/-- A result of evaluation. -/
inductive Value where
  | none
  | number (z : Number)
deriving Repr, Inhabited

namespace Value

def text : Value → String
  | none => "None"
  | number z => z.text

def debugText : Value → String
  | none => "NONE"
  | number z => z.debugText

end Value

/-- An operand or a result outside the language: a value, a host's number, truth value or text, a
pair of components, or nothing. -/
inductive Native where
  | value (v : Value)
  | int (n : Int)
  | real (x : Float)
  | truth (b : Bool)
  | text (s : String)
  | pair (re im : Float)
  | nothing
deriving Repr, Inhabited

namespace Native

/-- A pair of components as a sum; a positive zero real part is left out. -/
def pairText (re im : Float) : String :=
  let component := Decimal.realTextIn { Decimal.realLayout with keepsFraction := false }
  if re == 0.0 && !Double.isNegative re then component im ++ "j"
  else
    "(" ++ component re ++ (if Double.isNegative im then "" else "+") ++ component im ++ "j)"

/-- The text of an operand within a message. -/
def plainText : Native → String
  | value v => v.text
  | int n => toString n
  | real x => Decimal.realText x
  | truth b => if b then "True" else "False"
  | text s => s
  | pair re im => pairText re im
  | nothing => "None"

/-- The text of an operand within a message that quotes texts. -/
def debugText : Native → String
  | value v => v.debugText
  | text s => Text.quoted s
  | other => other.plainText

end Native
end ComplexCalc
