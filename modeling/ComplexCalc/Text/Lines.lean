/-!
# Lines

The lines of a text. A line ends with one of the ten line boundaries of Unicode or with a
carriage return and a line feed together; the boundary belongs to no line, and a text that ends
with one has no empty line after it.
-/
namespace ComplexCalc.Text

/-- Whether the character ends a line. -/
def isLineEnd (c : Char) : Bool :=
  let n := c.toNat
  (0x0A ≤ n && n ≤ 0x0D) || (0x1C ≤ n && n ≤ 0x1E) || n == 0x85 || n == 0x2028 || n == 0x2029

/-- The lines of a text, where `line` holds the characters of the current line in reverse order
and `begun` tells whether that line has begun. -/
def linesFrom (line : List Char) (begun : Bool) : List Char → List (List Char)
  | [] => if begun then [line.reverse] else []
  | '\r' :: '\n' :: cs => line.reverse :: linesFrom [] false cs
  | c :: cs =>
    if isLineEnd c then line.reverse :: linesFrom [] false cs
    else linesFrom (c :: line) true cs

/-- The lines of a text, without their ends. -/
def lines (text : String) : List String :=
  (linesFrom [] false text.toList).map String.ofList

end ComplexCalc.Text
