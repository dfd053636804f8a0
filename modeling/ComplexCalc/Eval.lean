import ComplexCalc.Parser
import ComplexCalc.Table
/-!
# Evaluation

The rules of evaluation take the steps that evaluate the parts of an expression and give the step
that evaluates the whole. Operands are evaluated from left to right; an error ends the evaluation
and takes back nothing. A function receives its arguments unevaluated, so that `sum` can evaluate
its body in a scope of its own.
-/
namespace ComplexCalc

/-- What a session may be set to, and the real functions it computes with. -/
structure Settings where
  math : RealFunctions
  /-- How many significant digits are shown. -/
  precision : Nat
  /-- How far a result may lie from its expected answer. -/
  tolerance : Float

/-- The settings of a session that sets nothing. -/
def Settings.standard : Settings := ⟨.machine, 10, 1e-9⟩

/-- An argument of a call: the step that evaluates it, and the name it consists of. -/
structure Argument where
  value : EvalM Value
  name : Except Failure String

/-- The name of an argument that does not consist of a name. -/
def Argument.unnamed : Except Failure String := noValue .notLoopName

namespace Rule

open EvalM

/-! ## Names -/

/-- The value of a variable. -/
def name (x : String) : EvalM Value := do
  match ← find? x with
  | some v => pure v.value
  | none => refuse (.unboundVariable x)

/-- The value, after a variable has been assigned it. -/
def assignment (x : String) (value : EvalM Value) : EvalM Value := do
  let v ← value
  assign x v
  pure v

/-! ## Operators -/

/-- The number that a part must have as its value. -/
def expectNumber (part : EvalM Value) : EvalM Number := do
  lift (← part).expectNumber

/-- The integer that a part must have as its value. -/
def expectInteger (part : EvalM Value) : EvalM Int := do
  lift (← part).expectInteger

/-- The product `result · i · (i + 1) · …` with `count` factors, unless a product on the way is
beyond the largest double. The multiplication is a parameter, so that its products can be recorded. -/
def risingProductBy {m : Type → Type} [Monad m] (times : Nat → Nat → m Nat) (result i : Nat) :
    Nat → m (Option Nat)
  | 0 => pure (some result)
  | count + 1 => do
    let next ← times result i
    if Double.largest < next then pure none else risingProductBy times next (i + 1) count

def risingProduct (result i count : Nat) : Option Nat :=
  Id.run (risingProductBy (fun a b => pure (a * b)) result i count)

theorem risingProduct_succ (result i count : Nat) : risingProduct result i (count + 1) =
    if Double.largest < result * i then none else risingProduct (result * i) (i + 1) count := by
  rw [risingProduct, risingProductBy, pure_bind]
  split <;> rfl

/-- The factorial as a double, infinite beyond the largest one. -/
def factorial (n : Nat) : Float :=
  match risingProduct 1 2 (n - 1) with
  | some product => Float.ofNat product
  | none => Double.infinity

def unary (op : UnaryOp) (part : EvalM Value) : EvalM Value :=
  match op with
  | .neg => return .number (-(← expectNumber part))
  | .abs => return .number (.ofReal (← expectNumber part).abs)
  | .fact => do
    let n ← expectInteger part
    if n < 0 then refuse .negativeFactorial
    else return .number (.ofReal (factorial n.toNat))

/-- The numbers that two operands must have as their values, the left one first. -/
def operands (left right : EvalM Value) : EvalM (Number × Number) := do
  let z ← expectNumber left
  let w ← expectNumber right
  pure (z, w)

/-- The remainder of the division that rounds down, which has the sign of the divisor. -/
def modulus (b n : Int) : Except Failure Number :=
  if n = 0 then noValue .divisionByZero else .ok (.ofInt (b.fmod n))

/-- A binary operator. The operands of the modulus are integers, and the left one is found to be
one before the right one is evaluated. -/
def binary (m : RealFunctions) (op : BinaryOp) (left right : EvalM Value) : EvalM Value :=
  match op with
  | .add => do
    let (z, w) ← operands left right
    return .number (z + w)
  | .sub => do
    let (z, w) ← operands left right
    return .number (z - w)
  | .mul => do
    let (z, w) ← operands left right
    return .number (z * w)
  | .div => do
    let (z, w) ← operands left right
    return .number (← lift (z.div w))
  | .pow => do
    let (z, w) ← operands left right
    return .number (z.power m w)
  | .mod => do
    let b ← expectInteger left
    let n ← expectInteger right
    return .number (← lift (modulus b n))

/-! ## Arguments -/

/-- The call must have this many arguments. -/
def checkCount (args : List Argument) (wanted : Nat) : EvalM Unit :=
  if args.length < wanted then refuse (.tooFewArguments args.length wanted)
  else if wanted < args.length then refuse (.tooManyArguments args.length wanted)
  else pure ()

/-- The argument at an index, where a negative index counts from the end. -/
def argumentAt (args : List Argument) (index : Int) : EvalM Argument :=
  if args.length ≤ index then refuse (.missingArgument (index + 1))
  else
    let k := if index < 0 then index + args.length else index
    if k < 0 then lift (fault .missingField)
    else
      match args[k.toNat]? with
      | some a => pure a
      | none => lift (fault .missingField)

/-- The real number that an argument must have as its value. -/
def realArgument (args : List Argument) (index : Int) : EvalM Number := do
  let v ← (← argumentAt args index).value
  match v with
  | .number z => if z.isReal then pure z else refuse (.argumentNotReal index v)
  | .none => refuse (.argumentNotReal index v)

/-- The integer that an argument must have as its value. -/
def integerArgument (args : List Argument) (index : Int) : EvalM Int := do
  let v ← (← argumentAt args index).value
  match v with
  | .number z =>
    match z.integer? with
    | some n => pure n
    | none => refuse (.argumentNotInteger index v)
  | .none => refuse (.argumentNotInteger index v)

/-- The numbers that the arguments must have as their values. -/
def numberArguments : List Argument → EvalM (List Number)
  | [] => pure []
  | a :: rest => do
    let z ← expectNumber a.value
    return z :: (← numberArguments rest)

/-! ## Functions -/

/-- A random integer, by its bounds or by one bound and zero. -/
def randomInteger (args : List Argument) : EvalM Value := do
  if 2 < args.length then refuse (.tooManyBounds args.length)
  let first ← integerArgument args 0
  let (low, high) ←
    if args.length = 2 then pure (first, ← integerArgument args 1)
    else if first < 0 then pure (first + 1, 1)
    else if first = 0 then refuse .zeroBound
    else pure (0, first)
  if high ≤ low then refuse (.emptyRange low high)
  let n ← draw fun r => r.integer low high
  return .number (.ofInt n)

/-- The sum of `count` values of the body, the variable counting up from `i`. -/
def sumLoop (x : String) (body : EvalM Value) : Nat → Int → Number → EvalM Number
  | 0, _, total => pure total
  | count + 1, i, total => do
    assign x (.number (.ofInt i))
    let z ← expectNumber body
    sumLoop x body count (i + 1) (total + z)

/-- A sum over a range of integers. The body is evaluated in a copy of the table, where the name is
bound to a variable of its own. -/
def sum (args : List Argument) : EvalM Value := do
  checkCount args 4
  let low ← integerArgument args 0
  let high ← integerArgument args 1
  if high < low then refuse (.reversedRange low high)
  let x ← lift (← argumentAt args 2).name
  let body := (← argumentAt args 3).value
  let scope ← copy
  inTable scope do
    define ⟨x, .number (.ofInt low), false⟩
    return .number (← sumLoop x body (high - low).toNat low .zero)

/-- The value of a function at unevaluated arguments. -/
def apply (m : RealFunctions) (f : Callable) (args : List Argument) : EvalM Value :=
  match f with
  | .elementary f => do
    checkCount args 1
    let z ← expectNumber (← argumentAt args 0).value
    return .number (← lift (f.apply m z))
  | .polar => do
    checkCount args 2
    let zs ← numberArguments args
    match zs with
    | [r, theta] => return .number (.polar m (← lift r.asReal) (← lift theta.asReal))
    | _ => lift (fault .missingField)
  | .random => do
    checkCount args 0
    return .number (.ofReal (← draw RandomSource.real))
  | .randomInteger => randomInteger args
  | .sum => sum args
  | .native arity f _ => do
    checkCount args arity
    let zs ← numberArguments args
    lift (Value.ofNative (f zs))
  | .unary f _ => do
    checkCount args 1
    let v ← (← argumentAt args 0).value
    lift (Value.ofNative (f v (← table).scope))

/-- A call of the function of a name. -/
def call (m : RealFunctions) (f : String) (args : List Argument) : EvalM Value := do
  match ← findFunction? f with
  | some f => apply m f args
  | none => refuse (.unboundFunction f)

/-- The visit of a tree, by its text in the journal. -/
def visit (s : Settings) (tree : Unit → String) (rule : EvalM Value) : EvalM Value :=
  traced (fun w => "eval_tree(" ++ tree () ++ ", " ++ w.table.debugText ++ ")") Failure.message
    (Display.value s.math s.precision) rule

end Rule

namespace Expr

mutual

/-- The value of an expression. -/
def eval (s : Settings) : Expr → EvalM Value
  | e@(num z) => Rule.visit s (fun _ => e.debugText) (pure (.number z))
  | e@(name x) => Rule.visit s (fun _ => e.debugText) (Rule.name x)
  | e@(assign x v) => Rule.visit s (fun _ => e.debugText) (Rule.assignment x (v.eval s))
  | e@(unary op a) => Rule.visit s (fun _ => e.debugText) (Rule.unary op (a.eval s))
  | e@(binary op l r) =>
    Rule.visit s (fun _ => e.debugText) (Rule.binary s.math op (l.eval s) (r.eval s))
  | e@(call f args) =>
    Rule.visit s (fun _ => e.debugText) (Rule.call s.math f (arguments s args))

/-- The arguments of a call. -/
def arguments (s : Settings) : List Expr → List Argument
  | [] => []
  | e :: es =>
    ⟨e.eval s, match e.name? with
      | some x => .ok x
      | none => Argument.unnamed⟩ :: arguments s es

end

end Expr

namespace EvalM

/-- Evaluates and binds the result to `Ans`. -/
def keepAnswer (step : EvalM Value) : EvalM Value := do
  let v ← step
  assign "Ans" v
  pure v

/-- The first expression of a text and what follows it. -/
def parsePrefix (text : String) : EvalM (Expr × List Char) := fun w =>
  match Parser.parsePrefix (Parser.ofChars text.toList w.journal) with
  | (.ok r, p) => (.ok r, { w with journal := p.journal })
  | (.error e, p) => (.error (.noExpression e), { w with journal := p.journal })

/-- The expression that a whole text writes. -/
def parse (text : String) : EvalM Expr := do
  let (e, rest) ← parsePrefix text
  if rest = [] then pure e
  else
    throw (.noExpression (.trailing (Text.firstWord rest) (text.length - rest.length)))

/-- The value of a text, which is bound to `Ans`. -/
def evalText (s : Settings) (text : String) : EvalM Value := do
  keepAnswer ((← parse text).eval s)

end EvalM
end ComplexCalc
