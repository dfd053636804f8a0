import ComplexCalc.Lexer
import ComplexCalc.Expr
import ComplexCalc.Journal
/-!
# Parser

Precedence climbing: an expression is an operand followed by every operator that binds tighter than
the limit it is read with. The parser pulls tokens from a lexer into a queue, which lets it look
ahead; the queue and the lexer keep what they hold when parsing fails, so parsing may go on after an
error. The rules know their state by what a parser offers them, no more: they can be run on a state
that holds a parser and keeps account of it.
-/
namespace ComplexCalc

/-- A lexer, the tokens pulled from it that wait to be consumed, and a journal. -/
structure Parser where
  lexer : Lexer
  pending : List Token
  journal : Journal

instance : Journaled Parser := ⟨Parser.journal, fun p j => { p with journal := j }⟩

/-- A step of parsing. -/
abbrev ParserM := Action Parser SyntaxError

/-- A state that parsing may run on: it holds a parser, and is changed where a token is pulled into
the queue and where the first token of the queue is taken. -/
class ParserState (σ : Type) where
  parser : σ → Parser
  pull : Action σ SyntaxError Unit
  drop : σ → σ

/-- How strongly a token binds the expression on its left, zero if it does not continue one. -/
def TokenKind.precedence : TokenKind → Nat
  | .assign => 1
  | .plus | .minus => 2
  | .asterisk | .slash | .mod => 3
  | .exponent => 4
  | .exclamation => 6
  | .leftParen => 7
  | _ => 0

/-- How strongly a leading minus binds. -/
def minusPrecedence : Nat := 5

namespace Parser

/-- A parser at the start of a text. -/
def ofChars (source : List Char) (journal : Journal) : Parser :=
  ⟨Lexer.ofChars source, [], journal⟩

/-! ## Tokens -/

/-- Pulls one token from the lexer into the queue. -/
def pull : ParserM Unit := fun p =>
  match p.lexer.next with
  | (.ok t, l) => (.ok (), { p with lexer := l, pending := p.pending ++ [t] })
  | (.error e, l) => (.error e, { p with lexer := l })

/-- A parser without the first token of its queue. -/
def drop (p : Parser) : Parser := { p with pending := p.pending.tail }

instance : ParserState Parser := ⟨fun p => p, pull, drop⟩

@[simp] theorem parser_eq (p : Parser) : ParserState.parser p = p := rfl

@[simp] theorem pull_eq : (ParserState.pull : ParserM Unit) = pull := rfl

@[simp] theorem drop_eq (p : Parser) : ParserState.drop p = p.drop := rfl

section Rules
variable {σ : Type} [ParserState σ]

/-- Pulls `n` tokens. -/
def pullMany : Nat → Action σ SyntaxError Unit
  | 0 => pure ()
  | n + 1 => do
    ParserState.pull
    pullMany n

/-- The token `distance` places ahead, which stays in the queue. -/
def lookAhead (distance : Nat) : Action σ SyntaxError Token := do
  pullMany (distance + 1 - (ParserState.parser (← get)).pending.length)
  match (ParserState.parser (← get)).pending[distance]? with
  | some t => pure t
  | none => throw .tooDeep

/-- Takes the next token. -/
def consume : Action σ SyntaxError Token := do
  let t ← lookAhead 0
  modify ParserState.drop
  pure t

/-- Takes the next token if it is of this kind, and tells whether it was. -/
def accept (kind : TokenKind) : Action σ SyntaxError Bool := do
  if (← lookAhead 0).kind = kind then
    let _ ← consume
    pure true
  else pure false

/-- Takes the next token, which must be of this kind. -/
def expect (kind : TokenKind) : Action σ SyntaxError Token := do
  let t ← consume
  if t.kind = kind then pure t else throw (.expected kind t.kind t.offset)

/-- How strongly the next token binds. -/
def currentPrecedence : Action σ SyntaxError Nat := do
  return (← lookAhead 0).kind.precedence

/-! ## Operands and operators

The rules take the parser of nested expressions as an argument: it is given the limit to read with,
none for a nested expression that stands alone. -/

/-- A nested expression read with a limit. -/
abbrev Nested (σ : Type) := Option Nat → Action σ SyntaxError Expr

/-- The operand that begins with this token. -/
def operand (nested : Nested σ) (t : Token) : Action σ SyntaxError Expr :=
  match t.kind with
  | .leftParen => do
    let e ← nested none
    let _ ← expect .rightParen
    pure e
  | .minus => return .unary .neg (← nested (some minusPrecedence))
  | .pipe => do
    let e ← nested none
    let _ ← expect .pipe
    pure (.unary .abs e)
  | .literal =>
    match Literal.read t.text with
    | .ok z => pure (.num z)
    | .error cause => throw (.literal t.text cause t.offset)
  | .identifier => pure (.name (String.ofList t.text))
  | _ => throw (.noExpression t.text t.offset)

/-- One round of the loop over the arguments of a call, which ends where no comma is next. -/
def argumentRound (nested : Nested σ) : Action σ SyntaxError (Option Expr) := do
  if ← accept .comma then return some (← nested none) else pure none

/-- The arguments after the first one, each behind a comma. -/
def moreArguments (nested : Nested σ) : Nat → Action σ SyntaxError (List Expr)
  | 0 => throw .tooDeep
  | fuel + 1 => do
    match ← argumentRound nested with
    | some e => return e :: (← moreArguments nested fuel)
    | none => pure []

/-- The arguments of a call and the parenthesis that closes it. -/
def arguments (nested : Nested σ) (fuel : Nat) : Action σ SyntaxError (List Expr) := do
  if ← accept .rightParen then pure []
  else
    let e ← nested none
    let es ← moreArguments nested fuel
    let _ ← expect .rightParen
    pure (e :: es)

/-- A binary operator whose right operand is read with a limit. -/
def infixed (nested : Nested σ) (op : BinaryOp) (limit : Nat) (left : Expr) :
    Action σ SyntaxError Expr :=
  return .binary op left (← nested (some limit))

/-- The expression that the operator at this token makes of its left operand. The exponent and the
assignment take an operator of their own strength on their right, the others do not. -/
def operator (nested : Nested σ) (fuel : Nat) (left : Expr) (t : Token) :
    Action σ SyntaxError Expr :=
  match t.kind with
  | .plus => infixed nested .add 2 left
  | .minus => infixed nested .sub 2 left
  | .asterisk => infixed nested .mul 3 left
  | .slash => infixed nested .div 3 left
  | .mod => infixed nested .mod 3 left
  | .exponent => infixed nested .pow 3 left
  | .exclamation => pure (.unary .fact left)
  | .assign =>
    match left.name? with
    | some x => return .assign x (← nested (some 0))
    | none => throw (.target t.offset)
  | .leftParen =>
    match left.name? with
    | some f => return .call f (← arguments nested fuel)
    | none => throw (.callee t.offset)
  | _ => throw (.noExpression t.text t.offset)

/-- One round of the loop behind an operand, which ends where the next token binds no tighter than the
limit. -/
def operatorRound (nested : Nested σ) (limit fuel : Nat) (left : Expr) :
    Action σ SyntaxError (Option Expr) := do
  if limit < (← currentPrecedence) then
    let t ← consume
    return some (← operator nested fuel left t)
  else pure none

/-- The expression that the operators tighter than the limit make of their left operand. -/
def operators (nested : Nested σ) (limit : Nat) : Nat → Expr → Action σ SyntaxError Expr
  | 0, _ => throw .tooDeep
  | fuel + 1, left => do
    match ← operatorRound nested limit fuel left with
    | some e => operators nested limit fuel e
    | none => pure left

/-- The call of `expression`, as the journal shows it. -/
def callText (limit : Option Nat) (p : Parser) : String :=
  "parse_expression(<Parser of " ++ Text.quoted (String.ofList p.lexer.source) ++ ">," ++
    (match limit with
      | some n => " " ++ toString n
      | none => "") ++ ")"

/-- The expression made of the next tokens, up to an operator that is not tighter than the limit.
The fuel exceeds the tokens that are left. -/
def expression [Journaled σ] : Nat → Nested σ
  | 0, _ => throw .tooDeep
  | fuel + 1, limit =>
    traced (callText limit ∘ ParserState.parser) SyntaxError.message (fun e => .ok e.debugText) do
      let t ← consume
      let left ← operand (expression fuel) t
      operators (expression fuel) (limit.getD 0) fuel left

/-- A bound on the tokens that are left, the end of the text among them. -/
def bound (p : Parser) : Nat :=
  p.pending.length + p.lexer.rest.length + 2

/-- The expression made of the next tokens, up to an operator that is not tighter than the limit. -/
def parse [Journaled σ] (limit : Option Nat) : Action σ SyntaxError Expr := do
  expression ((ParserState.parser (← get)).bound + 1) limit

end Rules

/-- Records the expression that the text was found to begin with. -/
def recordParsed (e : Expr) (p : Parser) : Parser :=
  if p.journal.enabled then
    Journaled.update (·.record (.note
      ("parsed " ++ Text.quoted (String.ofList p.lexer.source) ++ " ==> " ++ e.debugText))) p
  else p

/-- The first expression of the text and the text from the first token after it. -/
def parsePrefix : ParserM (Expr × List Char) := do
  let e ← parse none
  let t ← lookAhead 0
  modify (recordParsed e)
  return (e, (← get).lexer.source.drop t.offset)

end Parser

/-- The first expression of a text and what follows it. -/
def parsePrefix (text : List Char) : Except SyntaxError (Expr × List Char) :=
  (Parser.parsePrefix.run (Parser.ofChars text (.fresh false))).1

end ComplexCalc
