import ComplexCalc.Decimal.Basic
/-!
# The text of a real number

A number is written with the fewest digits that read back as it, positionally from `1e-04` up to
below `1e+16` and with an exponent of at least two digits elsewhere. An integer keeps a fraction of
one zero, a zero keeps its sign, and the infinities and NaN are words.
-/
namespace ComplexCalc.Decimal

/-- Where positional writing begins and ends, and whether an integer keeps its fraction. -/
structure Layout where
  lowest : Int
  bound : Int
  keepsFraction : Bool

/-- The layout of a real number. -/
def realLayout : Layout := ⟨-4, 16, true⟩

/-- The exponent after its mark: a sign and at least two digits. -/
def exponentText (k : Int) : List Char :=
  let ds := Nat.toDigits 10 k.natAbs
  (if k < 0 then '-' else '+') :: (List.replicate (2 - ds.length) '0' ++ ds)

/-- The digits with the point where it belongs, the first digit counting `10 ^ k`. -/
def positional (layout : Layout) (ds : List Char) (k : Int) : List Char :=
  if k < 0 then '0' :: '.' :: (List.replicate (-k - 1).toNat '0' ++ ds)
  else
    let whole := k.toNat + 1
    if ds.length ≤ whole then
      ds ++ List.replicate (whole - ds.length) '0' ++
        (if layout.keepsFraction then ['.', '0'] else [])
    else ds.take whole ++ '.' :: ds.drop whole

/-- The digits with an exponent, the first digit before the point. -/
def scientific (ds : List Char) (k : Int) : List Char :=
  ds.take 1 ++ (if ds.length ≤ 1 then [] else '.' :: ds.drop 1) ++ 'e' :: exponentText k

/-- The text of a decimal. -/
def text (layout : Layout) (d : Decimal) : List Char :=
  let (ds, k) := d.digits
  if layout.lowest ≤ k ∧ k < layout.bound then positional layout ds k else scientific ds k

/-- The text of a double in a layout. -/
def realTextIn (layout : Layout) (x : Float) : String :=
  let sign := if Double.isNegative x then ['-'] else []
  match Double.magnitude? x with
  | some ⟨0, _⟩ => String.ofList (sign ++ text layout ⟨0, 0⟩)
  | some v => String.ofList (sign ++ text layout (shortest x.abs v))
  | none => String.ofList (sign ++ (if x.isNaN then ['n', 'a', 'n'] else ['i', 'n', 'f']))

/-- The text of a real number. -/
def realText (x : Float) : String :=
  realTextIn realLayout x

/-- The double nearest to the value of `x` rounded to `precision` significant digits, one at least.
A zero, an infinity and a NaN stay as they are. -/
def roundSignificant (precision : Nat) (x : Float) : Float :=
  match Double.magnitude? x with
  | none => x
  | some ⟨0, _⟩ => x
  | some v =>
    let y := (rounded (max 1 precision) v).toFloat
    if Double.isNegative x then -y else y

end ComplexCalc.Decimal
