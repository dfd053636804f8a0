import ComplexCalc.Decimal.Basic
/-!
# Reading decimals

A decimal text is a run of digits, then perhaps a point with further digits, then perhaps an
exponent: a mark, perhaps a sign, and at least one digit.
-/
namespace ComplexCalc.Decimal

/-- The value of a run of digits. -/
def digitsValue (cs : List Char) : Nat :=
  cs.foldl (fun n c => 10 * n + (c.toNat - '0'.toNat)) 0

/-- The digits of an exponent, none if there are none or something follows them. -/
def exponentDigits? (cs : List Char) : Option Nat :=
  if cs ≠ [] ∧ cs.all Char.isDigit then some (digitsValue cs) else none

/-- The exponent after its mark. -/
def exponent? : List Char → Option Int
  | '+' :: cs => (exponentDigits? cs).map Int.ofNat
  | '-' :: cs => (exponentDigits? cs).map fun n => -(n : Int)
  | cs => (exponentDigits? cs).map Int.ofNat

/-- The exponent that ends a decimal text, zero if the text is over. -/
def exponentPart? : List Char → Option Int
  | [] => some 0
  | c :: cs => if c = 'e' ∨ c = 'E' then exponent? cs else none

/-- The digits after the point, if a point comes first, and what follows them. -/
def fractionPart : List Char → List Char × List Char
  | '.' :: cs => (cs.takeWhile Char.isDigit, cs.dropWhile Char.isDigit)
  | cs => ([], cs)

/-- The decimal that a text writes, if it writes one. -/
def ofChars? (cs : List Char) : Option Decimal :=
  let whole := cs.takeWhile Char.isDigit
  let (fraction, rest) := fractionPart (cs.dropWhile Char.isDigit)
  if whole = [] then none
  else (exponentPart? rest).map fun e =>
    ⟨digitsValue (whole ++ fraction), e - fraction.length⟩

/-- The double that a text with an optional sign writes, or an infinity or a NaN by name. -/
def readReal? (text : String) : Option Float :=
  match text.toList with
  | '-' :: cs => (unsigned? cs).map fun x => -x
  | '+' :: cs => unsigned? cs
  | cs => unsigned? cs
where
  /-- The double without its sign. -/
  unsigned? (cs : List Char) : Option Float :=
    if cs = ['i', 'n', 'f'] then some Double.infinity
    else if cs = ['n', 'a', 'n'] then some (Double.infinity - Double.infinity)
    else (ofChars? cs).map toFloat

end ComplexCalc.Decimal
