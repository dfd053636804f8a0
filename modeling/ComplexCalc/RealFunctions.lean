/-!
# Real functions

The real functions that the elementary functions are composed of. They come as a record, because
nothing about their values follows from their definitions: what a statement needs of them, such as
that the sine is odd, it assumes of the record.
-/
namespace ComplexCalc

/-- Real functions on doubles. They never fail; outside its domain a function is NaN or infinite. -/
structure RealFunctions where
  exp : Float → Float
  log : Float → Float
  log10 : Float → Float
  pow : Float → Float → Float
  /-- The power of a number to two, which can differ in the last place from its product with itself. -/
  square : Float → Float
  sin : Float → Float
  cos : Float → Float
  tan : Float → Float
  asin : Float → Float
  acos : Float → Float
  atan : Float → Float
  /-- The angle of the point `(x, y)`, given as `atan2 y x`. -/
  atan2 : Float → Float → Float
  sinh : Float → Float
  cosh : Float → Float
  tanh : Float → Float
  asinh : Float → Float
  acosh : Float → Float
  atanh : Float → Float

/-- The real functions of the machine. -/
def RealFunctions.machine : RealFunctions where
  exp := Float.exp
  log := Float.log
  log10 := Float.log10
  pow := Float.pow
  square := (Float.pow · 2.0)
  sin := Float.sin
  cos := Float.cos
  tan := Float.tan
  asin := Float.asin
  acos := Float.acos
  atan := Float.atan
  atan2 := Float.atan2
  sinh := Float.sinh
  cosh := Float.cosh
  tanh := Float.tanh
  asinh := Float.asinh
  acosh := Float.acosh
  atanh := Float.atanh

end ComplexCalc
