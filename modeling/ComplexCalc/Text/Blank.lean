/-!
# Blanks

The characters that separate tokens and words, and the texts between them: `trim` takes the
blanks off both ends and `firstWord` is the text up to the first blank.
-/
namespace ComplexCalc.Text

/-- Whether the character is a blank: white space of Unicode, and the four separators of files,
groups, records and units of ASCII. -/
def isBlank (c : Char) : Bool :=
  let n := c.toNat
  (0x09 ≤ n && n ≤ 0x0D) || (0x1C ≤ n && n ≤ 0x20) || n == 0x85 || n == 0xA0 || n == 0x1680 ||
    (0x2000 ≤ n && n ≤ 0x200A) || n == 0x2028 || n == 0x2029 || n == 0x202F || n == 0x205F ||
    n == 0x3000

/-- The text without the blanks at its ends. -/
def trim (cs : List Char) : List Char :=
  ((cs.dropWhile isBlank).reverse.dropWhile isBlank).reverse

/-- The first of the words that blanks separate, empty when there is none. -/
def firstWord (cs : List Char) : List Char :=
  (cs.dropWhile isBlank).takeWhile (fun c => !isBlank c)

/-- The text before the first `mark` and the text after it; all of it and nothing when the mark
does not occur. -/
def cutAt (mark : Char) : List Char → List Char × List Char
  | [] => ([], [])
  | c :: cs =>
    if c = mark then ([], cs)
    else ((c :: (cutAt mark cs).1), (cutAt mark cs).2)

end ComplexCalc.Text
