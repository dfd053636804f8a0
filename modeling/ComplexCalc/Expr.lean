import ComplexCalc.Value
/-!
# Expressions

The trees that parsing builds and evaluation reads. A group leaves no trace in the tree.
-/
namespace ComplexCalc

/-- An operator between two operands. -/
inductive BinaryOp where
  | add | sub | mul | div | pow | mod
deriving DecidableEq, Repr

/-- The tag of a binary operator within a tree's text. -/
def BinaryOp.tag : BinaryOp → String
  | add => "ADD"
  | sub => "SUB"
  | mul => "MUL"
  | div => "DIV"
  | pow => "POW"
  | mod => "MOD"

/-- An operator on one operand. -/
inductive UnaryOp where
  | neg | abs | fact
deriving DecidableEq, Repr

/-- The tag of a unary operator within a tree's text. -/
def UnaryOp.tag : UnaryOp → String
  | neg => "NEG"
  | abs => "ABS"
  | fact => "FACT"

/-- An expression. -/
inductive Expr where
  | num (z : Number)
  | name (x : String)
  | assign (x : String) (e : Expr)
  | unary (op : UnaryOp) (e : Expr)
  | binary (op : BinaryOp) (left right : Expr)
  | call (f : String) (args : List Expr)
deriving Repr, Inhabited

namespace Expr

/-- The name that an expression consists of, if it is one. -/
def name? : Expr → Option String
  | name x => some x
  | _ => none

mutual

/-- The tree as a list: its tag and its fields. -/
def debugText : Expr → String
  | num z => "['NUM', " ++ z.debugText ++ "]"
  | name x => "['NAME', " ++ Text.quoted x ++ "]"
  | assign x e => "['ASSIGN', " ++ Text.quoted x ++ ", " ++ e.debugText ++ "]"
  | unary op e => "['" ++ op.tag ++ "', " ++ e.debugText ++ "]"
  | binary op l r => "['" ++ op.tag ++ "', " ++ l.debugText ++ ", " ++ r.debugText ++ "]"
  | call f args => "['CALL', " ++ Text.quoted f ++ debugTexts args ++ "]"

/-- Each of the trees after a comma. -/
def debugTexts : List Expr → String
  | [] => ""
  | e :: es => ", " ++ e.debugText ++ debugTexts es

end

end Expr
end ComplexCalc
