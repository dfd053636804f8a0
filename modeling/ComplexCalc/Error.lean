import ComplexCalc.Literal
import ComplexCalc.Value
/-!
# Errors

What can go wrong, by cause, and the words for it. A text may be no expression (`SyntaxError`), an
expression may have no value (`EvalError`), and a primitive operation may fail outside the language
(`Fault`): a session survives the first two and ends with the third.
-/
namespace ComplexCalc

/-- Why a text is no expression, with the offset of the token or character at fault. -/
inductive SyntaxError where
  /-- A character that begins no token. -/
  | unknownCharacter (c : Char) (offset : Nat)
  /-- A token that begins no expression. -/
  | noExpression (text : List Char) (offset : Nat)
  /-- A token where another kind is required. -/
  | expected (wanted got : TokenKind) (offset : Nat)
  /-- An assignment to something other than a name. -/
  | target (offset : Nat)
  /-- A call of something other than a name. -/
  | callee (offset : Nat)
  /-- A literal that is no number. -/
  | literal (text : List Char) (cause : Literal.Invalid) (offset : Nat)
  /-- A token after the end of the expression. -/
  | trailing (word : List Char) (offset : Nat)
  /-- More nested parts than tokens, which no text has. -/
  | tooDeep
deriving DecidableEq, Repr

namespace SyntaxError

def offset : SyntaxError → Nat
  | unknownCharacter _ k | noExpression _ k | expected _ _ k | target k | callee k
  | literal _ _ k | trailing _ k => k
  | tooDeep => 0

/-- The detail that follows the complaint about a literal. -/
def literalDetail : Literal.Invalid → String
  | .noDigits => ""
  | .outOfRange => " (out of range)"
  | .notDecimal body =>
    " (could not convert string to float: " ++ Text.quoted (String.ofList body) ++ ")"

def message : SyntaxError → String
  | unknownCharacter c _ => "Unknown token start character \"" ++ String.singleton c ++ "\"."
  | noExpression text _ => "Could not parse \"" ++ String.ofList text ++ "\"."
  | expected wanted got k =>
    "Expected " ++ wanted.name ++ " but got " ++ got.name ++ " at " ++ toString k ++ "."
  | target _ => "The left-hand side of an assignment must be a name."
  | callee _ => "Only a name can be called."
  | literal text cause _ =>
    "Could not parse literal \"" ++ String.ofList text ++ "\", invalid number." ++
      literalDetail cause
  | trailing word _ => "Unexpected \"" ++ String.ofList word ++ "\" after the expression."
  | tooDeep => "The expression is nested too deeply."

end SyntaxError

/-- Why an expression has no value. -/
inductive EvalError where
  | unboundVariable (name : String)
  | unboundFunction (name : String)
  | notNumber (got : Native)
  | notInteger (got : Native)
  /-- A number that is asked for as an integer. -/
  | fractional (z : Number)
  /-- A number that is asked for as a real one. -/
  | notReal (z : Number)
  | negativeFactorial
  | tooFewArguments (got wanted : Nat)
  | tooManyArguments (got wanted : Nat)
  | missingArgument (wanted : Int)
  | argumentNotReal (index : Int) (got : Value)
  | argumentNotInteger (index : Int) (got : Value)
  | tooManyBounds (got : Nat)
  | zeroBound
  | emptyRange (low high : Int)
  | reversedRange (low high : Int)
  | notLoopName
  | notConvertible (got : Native)
  | divisionByZero
  | constantVariable (name : String)
  | builtinFunction (name : String)
deriving Repr

/-- The four classes of evaluation errors. -/
inductive EvalError.Kind where
  | reference | argument | arithmetic | state
deriving DecidableEq, Repr

namespace EvalError

def kind : EvalError → Kind
  | unboundVariable _ | unboundFunction _ => .reference
  | divisionByZero => .arithmetic
  | constantVariable _ | builtinFunction _ => .state
  | _ => .argument

def Kind.name : Kind → String
  | reference => "reference"
  | argument => "argument"
  | arithmetic => "arithmetic"
  | state => "state"

/-- The title of a class of errors, which precedes a message in a session. -/
def Kind.title : Kind → String
  | reference => "UnresolvedReferenceError"
  | argument => "InvalidArgumentError"
  | arithmetic => "DivisionByZeroError"
  | state => "StateError"

def message : EvalError → String
  | unboundVariable name => "No variable with the name \"" ++ name ++ "\" could be found."
  | unboundFunction name => "No function with the name \"" ++ name ++ "\" could be found."
  | notNumber got =>
    "The argument is not a complex number (" ++ got.plainText ++
      "), while a complex number was expected."
  | notInteger got =>
    "The argument is not an integer (" ++ got.plainText ++ "), while an integer was expected."
  | fractional z => z.text ++ " is not an integer."
  | notReal z => z.text ++ " is not a real number."
  | negativeFactorial => "Factorial is only defined for natural numbers (and zero)."
  | tooFewArguments got wanted =>
    "Too few arguments (" ++ toString got ++ ") were passed, expected " ++ toString wanted ++ "."
  | tooManyArguments got wanted =>
    "Too many arguments (" ++ toString got ++ ") were passed, expected " ++ toString wanted ++ "."
  | missingArgument wanted =>
    "Too few arguments were passed, expected at least " ++ toString wanted ++ "."
  | argumentNotReal index got =>
    "Argument " ++ toString index ++ " is not a real number (" ++ got.text ++
      "), while a real number was expected."
  | argumentNotInteger index got =>
    "Argument " ++ toString index ++ " is not an integer number (" ++ got.text ++
      "), while an integer number was expected."
  | tooManyBounds got => "Too many arguments (" ++ toString got ++ "), expected maximum 2."
  | zeroBound => "The bound of rand_int cannot be 0."
  | emptyRange low high =>
    "The minimum bound (" ++ toString low ++ ") is not less than the maximum bound (" ++
      toString high ++ ")."
  | reversedRange low high =>
    "The max bound (" ++ toString high ++ ") is smaller than the min bound (" ++ toString low ++
      ")."
  | notLoopName => "Expected a variable name for argument 3."
  | notConvertible got => "cannot convert " ++ got.debugText ++ " into a number"
  | divisionByZero => "Division by 0"
  | constantVariable name => "Cannot replace variable \"" ++ name ++ "\" as it is a constant."
  | builtinFunction name =>
    "Cannot replace function \"" ++ name ++ "\" as it is a built-in function."

end EvalError

/-- The failure of a primitive operation, which no rule of the language foresees. -/
inductive Fault where
  /-- A square beyond the largest double. -/
  | overflow
  /-- An integer beyond the largest double. -/
  | integerTooLarge
  /-- A double divided by zero. -/
  | zeroDivision
  /-- Operands that arithmetic does not take. -/
  | operands
  /-- Something that is no node of a tree, by its text. -/
  | notNode (text : String)
  /-- A composite thing used as a name, by the word for its kind. -/
  | notName (kind : String)
  /-- A node with the wrong count of fields. -/
  | fieldCount
  /-- A field or an argument that is not there. -/
  | missingField
  /-- An assignment to a field that is not there. -/
  | fieldRange
  /-- An assignment to the tag of a node. -/
  | fixedTag
  /-- A thing without the property asked for. -/
  | noProperty
  /-- A list that is no node. -/
  | badNode
deriving DecidableEq, Repr

/-- The words for a fault within a log. -/
def Fault.message : Fault → String
  | overflow => "(34, 'Numerical result out of range')"
  | integerTooLarge => "int too large to convert to float"
  | zeroDivision => "float division by zero"
  | operands => "unsupported operand type(s)"
  | notNode text => "unknown syntax tree type: " ++ text
  | notName kind => "unhashable type: '" ++ kind ++ "'"
  | fieldCount => "wrong number of values to unpack"
  | missingField => "list index out of range"
  | fieldRange => "list assignment index out of range"
  | fixedTag => "cannot change the tag of a syntax tree"
  | noProperty => "AttributeError"
  | badNode => "AssertionError"

/-- Any failure. -/
inductive Failure where
  | noExpression (e : SyntaxError)
  | noValue (e : EvalError)
  | fault (f : Fault)
deriving Repr

namespace Failure

def message : Failure → String
  | noExpression e => e.message
  | noValue e => e.message
  | fault f => f.message

/-- Whether the language foresees the failure. -/
def isForeseen : Failure → Bool
  | fault _ => false
  | _ => true

end Failure
end ComplexCalc
