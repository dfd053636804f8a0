import ComplexCalc.Node
import ComplexCalc.Proofs.Evaluation
/-!
# Expressions as nodes

The node that an expression stands for has the text of the expression in the journal, its tag is one
that nodes may be built with, and evaluating it by what its items turn out to be is evaluating the
expression.
-/
namespace ComplexCalc

theorem UnaryOp.tag_mem_tags (op : UnaryOp) : op.tag ∈ Item.tags := by cases op <;> decide

theorem BinaryOp.tag_mem_tags (op : BinaryOp) : op.tag ∈ Item.tags := by cases op <;> decide

/-! ## Texts -/

namespace Item

theorem quoted_tag {tag : String} (h : tag ∈ tags) : Text.quoted tag = "'" ++ tag ++ "'" := by
  revert tag
  decide

/-- The texts of items, each after a comma. -/
def furtherTexts : List Item → String
  | [] => ""
  | x :: rest => ", " ++ x.debugText ++ furtherTexts rest

theorem debugTexts_cons (x : Item) (items : List Item) :
    debugTexts (x :: items) = x.debugText ++ furtherTexts items := by
  induction items generalizing x with
  | nil => simp [debugTexts, furtherTexts]
  | cons y items ih => rw [debugTexts, ih, furtherTexts, String.append_assoc, String.append_assoc]

theorem debugText_node {tag : String} (h : tag ∈ tags) (fields : List Item) :
    (node (text tag :: fields)).debugText = "['" ++ tag ++ "'" ++ furtherTexts fields ++ "]" := by
  have htag : (text tag).debugText = Text.quoted tag := by simp only [debugText, Native.debugText]
  rw [debugText, debugTexts_cons, htag, quoted_tag h]
  simp only [String.append_assoc]
  rfl

end Item

namespace Expr

theorem debugText_toItem (e : Expr) : e.toItem.debugText = e.debugText := by
  have hlist : ∀ es : List Expr, (∀ e ∈ es, e.toItem.debugText = e.debugText) →
      Item.furtherTexts (toItems es) = debugTexts es := by
    intro es hes
    induction es with
    | nil => rfl
    | cons e es ih =>
      obtain ⟨he, hes⟩ := List.forall_mem_cons.1 hes
      rw [toItems, Item.furtherTexts, debugTexts, he, ih hes]
  induction e using Expr.induct with
  | num z =>
    rw [toItem, Item.debugText_node (by decide), debugText]
    simp [Item.furtherTexts, Item.debugText, Native.debugText, Value.debugText, ← String.append_assoc]
  | name x =>
    rw [toItem, Item.debugText_node (by decide), debugText]
    simp [Item.furtherTexts, Item.debugText, Native.debugText, ← String.append_assoc]
  | assign x e ih =>
    rw [toItem, Item.debugText_node (by decide), debugText]
    simp [Item.furtherTexts, Item.debugText, Native.debugText, ih, ← String.append_assoc]
  | unary op e ih =>
    rw [toItem, Item.debugText_node op.tag_mem_tags, debugText]
    cases op <;> simp [Item.furtherTexts, ih, UnaryOp.tag, ← String.append_assoc]
  | binary op l r ihl ihr =>
    rw [toItem, Item.debugText_node op.tag_mem_tags, debugText]
    cases op <;> simp [Item.furtherTexts, ihl, ihr, BinaryOp.tag, ← String.append_assoc]
  | call f args ih =>
    rw [toItem, Item.debugText_node (by decide), debugText]
    simp [Item.furtherTexts, Item.debugText, Native.debugText, hlist args ih, ← String.append_assoc]

theorem toItems_eq_map (es : List Expr) : toItems es = es.map toItem := by
  induction es with
  | nil => rfl
  | cons e es ih => rw [toItems, ih, List.map_cons]

/-! ## Evaluation -/

section Evaluation
variable (s : Settings)

/-- The node of an expression as a part of another node. -/
def slot (e : Expr) : Item.Slot := ⟨e.toItem, e.eval s⟩

theorem loopName_toItem (e : Expr) : Item.Slot.loopName e.toItem = (e.argument s).name := by
  cases e with
  | unary op e => cases op <;> rfl
  | binary op l r => cases op <;> rfl
  | _ => rfl

theorem argument_slot (e : Expr) : (e.slot s).argument = e.argument s := by
  have hvalue : (e.slot s).argument.value = e.eval s := by cases e <;> rfl
  have hname : (e.slot s).argument.name = (e.argument s).name := e.loopName_toItem s
  calc (e.slot s).argument = ⟨(e.slot s).argument.value, (e.slot s).argument.name⟩ := rfl
    _ = e.argument s := by rw [hvalue, hname]; rfl

theorem eval_toItem (e : Expr) : e.toItem.eval s = e.eval s := by
  have hslots : ∀ es : List Expr, (∀ e ∈ es, e.toItem.eval s = e.eval s) →
      Item.slots s (toItems es) = es.map (slot s) := by
    intro es hes
    induction es with
    | nil => rfl
    | cons e es ih =>
      obtain ⟨he, hes⟩ := List.forall_mem_cons.1 hes
      rw [toItems, Item.slots, he, ih hes]
      rfl
  -- A node is visited by its text, so the rules are all that is left to compare.
  have hvisit : ∀ (e : Expr) (items : List Item), e.toItem = .node items →
      Item.Slot.evalNode s e.toItem (Item.slots s items) = e.rule s → e.toItem.eval s = e.eval s := by
    intro e items hitems hrule
    rw [eval_eq_visit, ← e.debugText_toItem, ← hrule, hitems, Item.eval]
  induction e using Expr.induct with
  | num z => exact hvisit _ _ rfl rfl
  | name x => exact hvisit _ _ rfl rfl
  | assign x e ih =>
    refine hvisit _ _ rfl ?_
    simp only [Item.slots, ih]
    rfl
  | unary op e ih =>
    refine hvisit _ _ rfl ?_
    simp only [Item.slots, ih]
    cases op <;> rfl
  | binary op l r ihl ihr =>
    refine hvisit _ _ rfl ?_
    simp only [Item.slots, ihl, ihr]
    cases op <;> rfl
  | call f args ih =>
    refine hvisit _ _ rfl ?_
    simp only [Item.slots, hslots args ih]
    have hargs : (args.map (slot s)).map Item.Slot.argument = args.map (argument s) := by
      simp [argument_slot]
    rw [rule, ← hargs]
    rfl

end Evaluation

end Expr
end ComplexCalc
