import ComplexCalc.Text.Printable
/-!
# Quoted text

A text between quotes, as logs and messages show it. The quotes are single, unless the text holds
a single quote and no double one. Inside, the quote and the backslash follow a backslash; a tab, a
line feed and a carriage return have escapes of their own; every other unprintable character is
written by its code point in two, four or eight hexadecimal digits.
-/
namespace ComplexCalc.Text

/-- The last `width` hexadecimal digits of a number, in lower case. -/
def hexDigits (width : Nat) (n : Nat) : List Char :=
  match width with
  | 0 => []
  | k + 1 => hexDigits k (n / 16) ++ [(n % 16).digitChar]

/-- The characters that stand for `c` between two `quote` characters. -/
def escape (quote c : Char) : List Char :=
  if c = quote ∨ c = '\\' then ['\\', c]
  else if c = '\t' then ['\\', 't']
  else if c = '\n' then ['\\', 'n']
  else if c = '\r' then ['\\', 'r']
  else if isPrintable c then [c]
  else if c.toNat < 0x100 then '\\' :: 'x' :: hexDigits 2 c.toNat
  else if c.toNat < 0x10000 then '\\' :: 'u' :: hexDigits 4 c.toNat
  else '\\' :: 'U' :: hexDigits 8 c.toNat

/-- The quote that surrounds a text. -/
def quoteFor (cs : List Char) : Char :=
  if '\'' ∈ cs ∧ '"' ∉ cs then '"' else '\''

/-- The text between quotes. -/
def quoted (text : String) : String :=
  let cs := text.toList
  let quote := quoteFor cs
  String.ofList (quote :: cs.flatMap (escape quote) ++ [quote])

end ComplexCalc.Text
