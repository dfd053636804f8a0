import ComplexCalc.Eval
/-!
# Nodes

A loose form of trees, as a host program may build them: a node is a list whose first item is meant
to be a tag, and nothing makes its other items fit that tag. `Item.node?` checks the tag of a new
node, `Item.assign` replaces an item, and `Item.eval` evaluates what it finds by the same rules as
an expression. `Expr.toItem` is the node that an expression stands for.
-/
namespace ComplexCalc

/-- What a node may hold: a value, a text or another leaf, a list that is no node, or a node. -/
inductive Item where
  | leaf (x : Native)
  | list (items : List Item)
  | node (items : List Item)
deriving Repr, Inhabited

namespace Item

/-- A text. -/
@[match_pattern] def text (s : String) : Item := leaf (.text s)

/-- A value. -/
@[match_pattern] def value (v : Value) : Item := leaf (.value v)

/-- The tags that a node may be built with. -/
def tags : List String :=
  ["NUM", "NAME", "ASSIGN", "NEG", "ABS", "FACT", "CALL", "ADD", "SUB", "MUL", "DIV", "POW", "MOD"]

/-- The node of some items, the first of which must be a tag. -/
def node? (items : List Item) : Except Failure Item :=
  match items with
  | text tag :: _ => if tag ∈ tags then .ok (node items) else fault .badNode
  | _ => fault .badNode

/-- The first item of a node. -/
def tag? : Item → Except Failure Item
  | node (tag :: _) => .ok tag
  | node [] => fault .missingField
  | _ => fault .noProperty

/-- The items of a node after the first one. -/
def body? : Item → Except Failure (List Item)
  | node items => .ok (items.drop 1)
  | _ => fault .noProperty

mutual

/-- The text of an item within a list. -/
def debugText : Item → String
  | leaf x => x.debugText
  | list items => "[" ++ debugTexts items ++ "]"
  | node items => "[" ++ debugTexts items ++ "]"

/-- The items with commas between them. -/
def debugTexts : List Item → String
  | [] => ""
  | [x] => x.debugText
  | x :: y :: rest => x.debugText ++ ", " ++ debugTexts (y :: rest)

end

/-! ## Assignment -/

/-- The items with the one at an index replaced, where a negative index counts from the end. -/
def assignAt (items : List Item) (index : Int) (x : Item) : Except Failure (List Item) :=
  let k := if index < 0 then index + items.length else index
  if 0 ≤ k ∧ k < items.length then .ok (items.set k.toNat x) else fault .fieldRange

/-- The item with one of its own replaced. Index zero of a node is its tag, which is fixed. -/
def assign (target : Item) (index : Int) (x : Item) : Except Failure Item :=
  match target with
  | node items => if index = 0 then fault .fixedTag else (assignAt items index x).map node
  | list items => (assignAt items index x).map list
  | leaf _ => fault .noProperty

/-- The items that an item offers in place of others. -/
def offered : Item → Except Failure (List Item)
  | node items | list items => .ok items
  | text s => .ok (s.toList.map fun c => text (String.singleton c))
  | leaf _ => fault .operands

/-! ## Evaluation -/

/-- An item of a node and the step that evaluates it. -/
structure Slot where
  item : Item
  eval : EvalM Value

namespace Slot

/-- The name that an item is used as. -/
def nameOf : Item → Except Failure String
  | leaf x => .ok x.plainText
  | list _ => fault (.notName "list")
  | node _ => fault (.notName "SyntaxTree")

/-- The name that a node consists of, if it has the tag of a name. -/
def loopName : Item → Except Failure String
  | node (text "NAME" :: x :: _) => nameOf x
  | node [text "NAME"] => fault .missingField
  | _ => Argument.unnamed

/-- The item as an argument of a call. Only a node can be evaluated as one. -/
def argument (slot : Slot) : Argument where
  value :=
    match slot.item with
    | node _ => slot.eval
    | _ => EvalM.lift (fault .noProperty)
  name := loopName slot.item

/-- The field at an index. -/
def field (slots : List Slot) (k : Nat) : EvalM Slot :=
  match slots[k]? with
  | some slot => pure slot
  | none => EvalM.lift (fault .missingField)

/-- The operator of a tag. -/
def unaryOp? (tag : String) : Option UnaryOp :=
  [UnaryOp.neg, .abs, .fact].find? (·.tag == tag)

/-- The operator of a tag. -/
def binaryOp? (tag : String) : Option BinaryOp :=
  [BinaryOp.add, .sub, .mul, .div, .pow, .mod].find? (·.tag == tag)

/-- The value of a node with this tag and these fields after it. -/
def rule (s : Settings) (whole : Item) (tag : String) (fields : List Slot) : EvalM Value := do
  if tag = "NUM" then
    match (← field fields 0).item with
    | value v => pure v
    | _ => EvalM.lift (fault .noProperty)
  else if tag = "NAME" then
    Rule.name (← EvalM.lift (nameOf (← field fields 0).item))
  else if tag = "ASSIGN" then
    match fields with
    | [x, e] =>
      let v ← e.eval
      EvalM.assign (← EvalM.lift (nameOf x.item)) v
      pure v
    | _ => EvalM.lift (fault .fieldCount)
  else if tag = "CALL" then
    match fields with
    | f :: args => Rule.call s.math (← EvalM.lift (nameOf f.item)) (args.map argument)
    | [] => EvalM.lift (fault .fieldCount)
  else
    match unaryOp? tag, binaryOp? tag with
    | some op, _ => Rule.unary op (← field fields 0).eval
    | none, some op =>
      match fields with
      | [l, r] => Rule.binary s.math op l.eval r.eval
      | _ => EvalM.lift (fault .fieldCount)
    | none, none => EvalM.lift (fault (.notNode whole.debugText))

/-- The value of a node with these slots. -/
def evalNode (s : Settings) (whole : Item) : List Slot → EvalM Value
  | [] => EvalM.lift (fault .missingField)
  | tag :: fields =>
    match tag.item with
    | text tag => rule s whole tag fields
    | leaf _ => EvalM.lift (fault (.notNode whole.debugText))
    | list _ => EvalM.lift (fault (.notName "list"))
    | node _ => EvalM.lift (fault (.notName "SyntaxTree"))

end Slot

mutual

/-- The value of an item. Nothing but a node has one. -/
def eval (s : Settings) : Item → EvalM Value
  | x@(node items) => Rule.visit s (fun _ => x.debugText) (Slot.evalNode s x (slots s items))
  | x@(leaf _) =>
    Rule.visit s (fun _ => x.debugText) (EvalM.lift (fault (.notNode x.debugText)))
  | x@(list _) =>
    Rule.visit s (fun _ => x.debugText) (EvalM.lift (fault (.notNode x.debugText)))

/-- The items of a node with the steps that evaluate them. -/
def slots (s : Settings) : List Item → List Slot
  | [] => []
  | x :: rest => ⟨x, x.eval s⟩ :: slots s rest

end

/-- The value of a node, which is bound to `Ans`. -/
def evalKeeping (s : Settings) (x : Item) : EvalM Value :=
  match x with
  | node _ => EvalM.keepAnswer (x.eval s)
  | _ => EvalM.lift (fault .noProperty)

end Item

namespace Expr

mutual

/-- The node that an expression stands for. -/
def toItem : Expr → Item
  | num z => .node [.text "NUM", .value (.number z)]
  | name x => .node [.text "NAME", .text x]
  | assign x e => .node [.text "ASSIGN", .text x, e.toItem]
  | unary op e => .node [.text op.tag, e.toItem]
  | binary op l r => .node [.text op.tag, l.toItem, r.toItem]
  | call f args => .node (.text "CALL" :: .text f :: toItems args)

/-- The nodes that expressions stand for. -/
def toItems : List Expr → List Item
  | [] => []
  | e :: es => e.toItem :: toItems es

end

end Expr
end ComplexCalc
