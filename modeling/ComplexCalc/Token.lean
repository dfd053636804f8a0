import ComplexCalc.Text.Letter
/-!
# Tokens

The kinds of tokens and, for each of them, the length of the token that a text begins with. A
single operator character that comes twice is no token of its own kind; two asterisks are the
exponent operator and the other doubled operators are no token at all.
-/
namespace ComplexCalc

/-- The kinds of tokens, in the order in which the lexer tries them. -/
inductive TokenKind where
  | leftParen | rightParen | comma | assign | plus | minus | asterisk | slash | exponent
  | exclamation | pipe | mod | literal | identifier | eof
deriving DecidableEq, Repr, Inhabited

/-- A token: its kind, the characters it covers, and the offset of the first of them. -/
structure Token where
  kind : TokenKind
  text : List Char
  offset : Nat
deriving DecidableEq, Repr, Inhabited

namespace TokenKind

/-- All kinds, in the order in which the lexer tries them. -/
def all : List TokenKind :=
  [leftParen, rightParen, comma, assign, plus, minus, asterisk, slash, exponent, exclamation, pipe,
    mod, literal, identifier, eof]

/-- The name of a kind within a message. -/
def name : TokenKind → String
  | leftParen => "LEFT_PAREN"
  | rightParen => "RIGHT_PAREN"
  | comma => "COMMA"
  | assign => "ASSIGN"
  | plus => "PLUS"
  | minus => "MINUS"
  | asterisk => "ASTERISK"
  | slash => "SLASH"
  | exponent => "EXPONENT"
  | exclamation => "EXCLAMATION"
  | pipe => "PIPE"
  | mod => "MOD"
  | literal => "LITERAL"
  | identifier => "IDENTIFIER"
  | eof => "EOF"

end TokenKind

namespace Match

/-! ## Characters and words -/

/-- The character, whatever follows it. -/
def char (c : Char) : List Char → Nat
  | d :: _ => if d = c then 1 else 0
  | [] => 0

/-- The character, unless it comes twice. -/
def single (c : Char) : List Char → Nat
  | [d] => if d = c then 1 else 0
  | d :: e :: _ => if d = c ∧ e ≠ c then 1 else 0
  | [] => 0

/-- The word, whatever follows it. -/
def word (w cs : List Char) : Nat :=
  if w.isPrefixOf cs then w.length else 0

/-! ## Literals

A literal in base two, eight or sixteen is a marker with any digits and separators of that base. A
decimal literal is a run that begins with a digit, perhaps a point and another such run, perhaps an
exponent, and perhaps an `i`. Whether the digits make a number is left to reading. -/

/-- The digits of a base. -/
inductive Base where
  | binary | octal | hexadecimal
deriving DecidableEq, Repr

def Base.radix : Base → Nat
  | binary => 2
  | octal => 8
  | hexadecimal => 16

/-- The base that a text begins to write. -/
def base? : List Char → Option Base
  | '0' :: 'b' :: _ => some .binary
  | '0' :: 'o' :: _ => some .octal
  | '0' :: 'x' :: _ => some .hexadecimal
  | _ => none

/-- Whether the character may stand among the digits of the base. -/
def Base.allows (b : Base) (c : Char) : Bool :=
  c == '_' ||
    match b with
    | binary => c == '0' || c == '1'
    | octal => '0' ≤ c && c ≤ '7'
    | hexadecimal => c.isDigit || ('a' ≤ c && c ≤ 'f') || ('A' ≤ c && c ≤ 'F')

/-- A decimal digit or a separator. -/
def isRunChar (c : Char) : Bool := c.isDigit || c == '_'

/-- The length of the run of digits and separators at the start of a text. -/
def run (cs : List Char) : Nat := (cs.takeWhile isRunChar).length

/-- The length of the run at the start of a text, which must begin with a digit. -/
def digitRun : List Char → Nat
  | c :: cs => if c.isDigit then 1 + run cs else 0
  | [] => 0

/-- The length of a point and the run after it. -/
def fraction : List Char → Nat
  | '.' :: cs => 1 + digitRun cs
  | _ => 0

/-- The length of an exponent, whose digits may be missing. -/
def exponentPart : List Char → Nat
  | c :: cs =>
    if c = 'e' ∨ c = 'E' then
      match cs with
      | s :: ds => if s = '+' ∨ s = '-' then 2 + run ds else 1 + run cs
      | [] => 1
    else 0
  | [] => 0

/-- The length of an imaginary mark. -/
def imaginaryMark : List Char → Nat
  | 'i' :: _ => 1
  | _ => 0

/-- The length of a decimal literal. -/
def decimal (cs : List Char) : Nat :=
  let whole := digitRun cs
  if whole = 0 then 0
  else
    let a := whole + fraction (cs.drop whole)
    let b := a + exponentPart (cs.drop a)
    b + imaginaryMark (cs.drop b)

/-- The length of a literal. -/
def literal (cs : List Char) : Nat :=
  match base? cs with
  | some b => 2 + ((cs.drop 2).takeWhile b.allows).length
  | none => decimal cs

/-! ## Names -/

/-- A letter or an underscore. -/
def isNameChar (c : Char) : Bool := Text.isLetter c || c == '_'

/-- The length of a name: letters and underscores, where a leading underscore does not stand
alone. -/
def name : List Char → Nat
  | '_' :: cs =>
    match cs with
    | d :: _ => if isNameChar d then 1 + (cs.takeWhile isNameChar).length else 0
    | [] => 0
  | cs => (cs.takeWhile isNameChar).length

end Match

/-- The length of the token of this kind that the text begins with, zero if there is none. The end
of the text is found by the lexer and not by its characters. -/
def TokenKind.length : TokenKind → List Char → Nat
  | .leftParen => Match.char '('
  | .rightParen => Match.char ')'
  | .comma => Match.char ','
  | .assign => Match.single '='
  | .plus => Match.single '+'
  | .minus => Match.single '-'
  | .asterisk => Match.single '*'
  | .slash => Match.single '/'
  | .exponent => Match.word ['*', '*']
  | .exclamation => Match.single '!'
  | .pipe => Match.char '|'
  | .mod => Match.word ['m', 'o', 'd']
  | .literal => Match.literal
  | .identifier => Match.name
  | .eof => fun _ => 0

/-- The first kind, among those given, with a token at the start of the text, and the length of
that token. -/
def TokenKind.firstAmong (kinds : List TokenKind) (cs : List Char) : Option (TokenKind × Nat) :=
  kinds.findSome? fun k => if 0 < k.length cs then some (k, k.length cs) else none

end ComplexCalc
