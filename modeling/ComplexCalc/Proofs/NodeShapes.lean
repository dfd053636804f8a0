import ComplexCalc.Proofs.LiteralValues
import ComplexCalc.Proofs.Nodes
import ComplexCalc.Proofs.Printing
/-!
# The shapes of nodes

Each tag asks for fields of its own: how many there are, which of them are names and which are trees.
Nothing makes a node have them, but a tree that has them throughout is one that an expression stands for,
and a parsed expression stands for such a tree.
-/
namespace ComplexCalc

/-! ## Shapes -/

/-- The number is on one of the axes and not below zero there. -/
def Number.IsUnsigned (z : Number) : Prop :=
  ∃ v : Float, (z = ⟨v, 0.0⟩ ∨ z = ⟨0.0, v⟩) ∧ 0.0 ≤ v ∧ v.isNaN = false

namespace Item

/-- Induction on items, where the claim holds of every item of a node or a list. -/
@[elab_as_elim]
theorem induct {motive : Item → Prop} (leaf : ∀ x, motive (.leaf x))
    (list : ∀ items, (∀ x ∈ items, motive x) → motive (.list items))
    (node : ∀ items, (∀ x ∈ items, motive x) → motive (.node items)) (x : Item) : motive x :=
  @Item.rec motive (fun items => ∀ x ∈ items, motive x) leaf list node (by simp)
    (fun _ _ hd tl => by simpa using ⟨hd, tl⟩) x

/-- The items have the fields that their tag asks for. A field that is a tree is a node. -/
inductive HasShape : List Item → Prop
  | num {z : Number} : z.IsUnsigned → HasShape [text "NUM", value (.number z)]
  | name {x : String} : IsName x → HasShape [text "NAME", text x]
  | assign {x : String} {e : List Item} : IsName x → HasShape [text "ASSIGN", text x, node e]
  | unary {tag : String} {e : List Item} : tag ∈ ["NEG", "ABS", "FACT"] → HasShape [text tag, node e]
  | binary {tag : String} {l r : List Item} : tag ∈ ["ADD", "SUB", "MUL", "DIV", "POW", "MOD"] →
      HasShape [text tag, node l, node r]
  | call {f : String} {args : List (List Item)} : IsName f →
      HasShape (text "CALL" :: text f :: args.map node)

/-- The item is the other one, or it stands somewhere within it. -/
inductive Within (x : Item) : Item → Prop
  | here : Within x x
  | node {y : Item} {items : List Item} : y ∈ items → Within x y → Within x (node items)
  | list {y : Item} {items : List Item} : y ∈ items → Within x y → Within x (list items)

/-- The item is a node, and all nodes within it have the shapes that their tags ask for. -/
structure WellShaped (x : Item) : Prop where
  isNode : ∃ items, x = node items
  shape : ∀ items, Within (node items) x → HasShape items

/-- A node of its shape has a tag that nodes may be built with. -/
theorem HasShape.node?_eq {items : List Item} (h : HasShape items) : node? items = .ok (node items) := by
  have hnode : ∀ tag fields, tag ∈ tags →
      node? (text tag :: fields) = .ok (node (text tag :: fields)) := fun _ _ h => if_pos h
  have hunary : ["NEG", "ABS", "FACT"] ⊆ tags := by decide
  have hbinary : ["ADD", "SUB", "MUL", "DIV", "POW", "MOD"] ⊆ tags := by decide
  cases h with
  | num | name | assign | call => exact hnode _ _ (by decide)
  | unary ht => exact hnode _ _ (hunary ht)
  | binary ht => exact hnode _ _ (hbinary ht)

section WellShaped
variable {x : Item} {items : List Item}

/-- The nodes of trees, each of which an expression stands for. -/
theorem exists_toItems {args : List (List Item)}
    (h : ∀ y ∈ args, ∃ e : Expr, e.toItem = node y) :
    ∃ es : List Expr, es.map Expr.toItem = args.map node := by
  induction args with
  | nil => exact ⟨[], rfl⟩
  | cons y args ih =>
    obtain ⟨⟨e, he⟩, hargs⟩ := List.forall_mem_cons.1 h
    obtain ⟨es, hes⟩ := ih hargs
    exact ⟨e :: es, by rw [List.map_cons, he, hes, List.map_cons]⟩

theorem within_leaf {leaf : Native} : ¬Within (node items) (.leaf leaf) := by
  intro h
  cases h

theorem within_node {own : List Item} : Within (node items) (node own) ↔
    items = own ∨ ∃ y ∈ own, Within (node items) y := by
  constructor
  · intro h
    cases h with
    | here => exact .inl rfl
    | node hy h => exact .inr ⟨_, hy, h⟩
  · rintro (rfl | ⟨y, hy, h⟩)
    · exact .here
    · exact .node hy h

/-- A node of its shape over trees is a tree. -/
theorem WellShaped.of_fields (h : HasShape items)
    (hfields : ∀ y ∈ items, WellShaped y ∨ ∃ leaf, y = .leaf leaf) : WellShaped (node items) := by
  refine ⟨⟨items, rfl⟩, fun own hown => ?_⟩
  rcases within_node.1 hown with rfl | ⟨y, hy, hown⟩
  · exact h
  · rcases hfields y hy with hy | ⟨leaf, rfl⟩
    · exact hy.shape own hown
    · exact absurd hown within_leaf

theorem WellShaped.field {y : List Item} (h : WellShaped (node items)) (hy : node y ∈ items) :
    WellShaped (node y) :=
  ⟨⟨y, rfl⟩, fun own hown => h.shape own (.node hy hown)⟩

/-- A tree whose nodes all have their shapes is one that an expression stands for. -/
theorem WellShaped.exists_toItem (h : WellShaped x) : ∃ e : Expr, e.toItem = x := by
  induction x using Item.induct with
  | leaf x | list items _ =>
    obtain ⟨items, hitems⟩ := h.isNode
    cases hitems
  | node items ih =>
    -- A node among the items is a tree of its own.
    have hfield : ∀ y, Item.node y ∈ items → ∃ e : Expr, e.toItem = Item.node y := fun y hy =>
      ih _ hy (h.field hy)
    cases h.shape items .here with
    | num => exact ⟨.num _, rfl⟩
    | name => exact ⟨.name _, rfl⟩
    | @assign x e =>
      obtain ⟨d, hd⟩ := hfield e (by simp)
      exact ⟨.assign x d, by rw [Expr.toItem, hd]⟩
    | @unary tag e ht =>
      obtain ⟨d, hd⟩ := hfield e (by simp)
      obtain ⟨op, rfl⟩ : ∃ op : UnaryOp, op.tag = tag := by
        fin_cases ht
        exacts [⟨.neg, rfl⟩, ⟨.abs, rfl⟩, ⟨.fact, rfl⟩]
      exact ⟨.unary op d, by rw [Expr.toItem, hd]⟩
    | @binary tag l r ht =>
      obtain ⟨d, hd⟩ := hfield l (by simp)
      obtain ⟨e, he⟩ := hfield r (by simp)
      obtain ⟨op, rfl⟩ : ∃ op : BinaryOp, op.tag = tag := by
        fin_cases ht
        exacts [⟨.add, rfl⟩, ⟨.sub, rfl⟩, ⟨.mul, rfl⟩, ⟨.div, rfl⟩, ⟨.pow, rfl⟩, ⟨.mod, rfl⟩]
      exact ⟨.binary op d e, by rw [Expr.toItem, hd, he]⟩
    | @call f args =>
      have hargs : ∀ y ∈ args, ∃ e : Expr, e.toItem = Item.node y := fun y hy =>
        hfield y (by simp [hy])
      obtain ⟨es, hes⟩ := exists_toItems hargs
      exact ⟨.call f es, by rw [Expr.toItem, Expr.toItems_eq_map, hes]⟩

end WellShaped

end Item

/-! ## Parsed expressions -/

namespace Double

/-- A double without a sign is not below zero. -/
theorem zero_le {x : Float} (hsign : isNegative x = false) (hnan : x.isNaN = false) : 0.0 ≤ x := by
  rw [← Bool.not_eq_true, isNaN_iff] at hnan
  unfold isNegative at hsign
  rw [le_iff, unpack_zero]
  revert hsign hnan
  rcases x.toModel.unpack with ⟨_ | _⟩ | _ | ⟨_ | _⟩ | ⟨_ | _, _, _, _⟩ <;> intro hsign hnan <;>
    first | rfl | exact absurd rfl hnan | cases hsign

theorem RoundsTo.isNaN {q : ℚ} {x : Float} (h : RoundsTo q x) : x.isNaN = false := by
  rw [← Bool.not_eq_true, isNaN_iff]
  intro hnan
  rcases le_or_gt overflowBound q with hlarge | hlt
  · rw [h.overflow hlarge] at hnan
    cases hnan
  · obtain ⟨v, hv, -⟩ := h.finite hlt
    rw [value?, hnan] at hv
    cases hv

theorem RoundsTo.zero_le {q : ℚ} {x : Float} (h : RoundsTo q x) : 0.0 ≤ x :=
  Double.zero_le h.sign h.isNaN

end Double

theorem Means.isUnsigned {w : List Char} {z : Number} (h : Means w z) : z.IsUnsigned := by
  cases h with
  | @integer l x _ hx => exact ⟨x, .inl rfl, hx.zero_le, hx.isNaN⟩
  | @decimal l x _ hx =>
    refine ⟨x, ?_, hx.zero_le, hx.isNaN⟩
    unfold DecimalLiteral.onAxis
    split
    · exact .inl rfl
    · exact .inr rfl

namespace Token.IsLexeme
variable {t : Token}

theorem isName (h : t.IsLexeme) (ht : t.kind = .identifier) : IsName (String.ofList t.text) := by
  unfold IsLexeme at h
  rw [IsName, ofName, IsLexeme, String.toList_ofList, h, ht]

theorem mem_literals (h : t.IsLexeme) (ht : t.kind = .literal) : t.text ∈ Match.literals := by
  rw [IsLexeme, ht] at h
  obtain ⟨hlength, hpos, -⟩ := TokenKind.firstAmong_eq_some h
  exact (Match.matches_literal.mem_iff (List.ne_nil_of_length_pos hpos)).2 hlength.symm

theorem isUnsigned (h : t.IsLexeme) (ht : t.kind = .literal) {z : Number}
    (hz : Literal.read t.text = .ok z) : z.IsUnsigned :=
  ((means_iff (h.mem_literals ht)).2 hz).isUnsigned

end Token.IsLexeme

/-! ### Derivations -/

section Trees
variable {x f : String} {e l r : Expr} {es : List Expr}

theorem wellShaped_num {z : Number} (h : z.IsUnsigned) : (Expr.num z).toItem.WellShaped :=
  .of_fields (.num h) fun _ hy => .inr (by fin_cases hy <;> exact ⟨_, rfl⟩)

theorem wellShaped_name (h : IsName x) : (Expr.name x).toItem.WellShaped :=
  .of_fields (.name h) fun _ hy => .inr (by fin_cases hy <;> exact ⟨_, rfl⟩)

theorem wellShaped_assign (h : IsName x) (he : e.toItem.WellShaped) :
    (Expr.assign x e).toItem.WellShaped := by
  obtain ⟨items, hitems⟩ := he.isNode
  rw [Expr.toItem]
  refine .of_fields (hitems ▸ .assign h) fun y hy => ?_
  fin_cases hy
  exacts [.inr ⟨_, rfl⟩, .inr ⟨_, rfl⟩, .inl he]

theorem wellShaped_unary (op : UnaryOp) (he : e.toItem.WellShaped) :
    (Expr.unary op e).toItem.WellShaped := by
  obtain ⟨items, hitems⟩ := he.isNode
  have hop : op.tag ∈ ["NEG", "ABS", "FACT"] := by cases op <;> decide
  rw [Expr.toItem]
  refine .of_fields (hitems ▸ .unary hop) fun y hy => ?_
  fin_cases hy
  exacts [.inr ⟨_, rfl⟩, .inl he]

theorem wellShaped_binary (op : BinaryOp) (hl : l.toItem.WellShaped) (hr : r.toItem.WellShaped) :
    (Expr.binary op l r).toItem.WellShaped := by
  obtain ⟨litems, hlitems⟩ := hl.isNode
  obtain ⟨ritems, hritems⟩ := hr.isNode
  have hop : op.tag ∈ ["ADD", "SUB", "MUL", "DIV", "POW", "MOD"] := by cases op <;> decide
  rw [Expr.toItem]
  refine .of_fields (hlitems ▸ hritems ▸ .binary hop) fun y hy => ?_
  fin_cases hy
  exacts [.inr ⟨_, rfl⟩, .inl hl, .inl hr]

theorem wellShaped_call (h : IsName f) (hes : ∀ e ∈ es, e.toItem.WellShaped) :
    (Expr.call f es).toItem.WellShaped := by
  obtain ⟨args, hargs⟩ : ∃ args : List (List Item), es.map Expr.toItem = args.map Item.node := by
    induction es with
    | nil => exact ⟨[], rfl⟩
    | cons e es ih =>
      obtain ⟨he, hes⟩ := List.forall_mem_cons.1 hes
      obtain ⟨items, hitems⟩ := he.isNode
      obtain ⟨args, hargs⟩ := ih hes
      exact ⟨items :: args, by rw [List.map_cons, List.map_cons, hitems, hargs]⟩
  rw [Expr.toItem, Expr.toItems_eq_map]
  refine .of_fields (hargs ▸ .call h) fun y hy => ?_
  simp only [List.mem_cons, List.mem_map] at hy
  rcases hy with rfl | rfl | ⟨e, he, rfl⟩
  exacts [.inr ⟨_, rfl⟩, .inr ⟨_, rfl⟩, .inl (hes e he)]

/-- The name of a tree that is a name. -/
theorem isName_of_wellShaped (h : (Expr.name x).toItem.WellShaped) : IsName x := by
  have hshape := h.shape _ .here
  generalize hitems : [Item.text "NAME", Item.text x] = items at hshape
  cases hshape <;> simp_all [Item.text]

theorem Derives.wellShaped {level : Level} {w : List Token} (h : Derives level w e)
    (hw : ∀ t ∈ w, t.IsLexeme) : e.toItem.WellShaped := by
  have hfurther : ∀ {v : List Token} {es : List Expr},
      Further (fun w e => ∃ _ : Derives .assignment w e,
        (∀ t ∈ w, t.IsLexeme) → e.toItem.WellShaped) v es →
      (∀ t ∈ v, t.IsLexeme) → ∀ e ∈ es, e.toItem.WellShaped := by
    intro v es h
    induction h with
    | nil => simp
    | cons ht he _ ih =>
      intro hv
      simp only [List.cons_append, List.forall_mem_cons, List.forall_mem_append] at hv ⊢
      exact ⟨he.2 hv.2.1, ih hv.2.2⟩
  induction h with
  | literal ht hz => exact wellShaped_num ((hw _ (by simp)).isUnsigned ht hz)
  | name ht => exact wellShaped_name ((hw _ (by simp)).isName ht)
  | group _ _ _ ih => exact ih fun t ht => hw t (by simp [ht])
  | absolute _ _ _ ih => exact wellShaped_unary .abs (ih fun t ht => hw t (by simp [ht]))
  | factorial _ _ ih => exact wellShaped_unary .fact (ih fun t ht => hw t (by simp [ht]))
  | call _ _ _ ih =>
    exact wellShaped_call (isName_of_wellShaped (ih fun t ht => hw t (by simp [ht]))) (by simp)
  | callWith _ _ _ _ _ ihn ihe ihes =>
    refine wellShaped_call (isName_of_wellShaped (ihn fun t ht => hw t (by simp [ht]))) ?_
    refine List.forall_mem_cons.2 ⟨ihe fun t ht => hw t (by simp [ht]), ?_⟩
    exact hfurther ihes fun t ht => hw t (by simp [ht])
  | negation _ _ ih => exact wellShaped_unary .neg (ih fun t ht => hw t (by simp [ht]))
  | power _ _ _ ihd ihe | chain _ _ _ ihd ihe =>
    exact wellShaped_binary _ (ihd fun t ht => hw t (by simp [ht])) (ihe fun t ht => hw t (by simp [ht]))
  | assign _ _ _ ihn ihe =>
    exact wellShaped_assign (isName_of_wellShaped (ihn fun t ht => hw t (by simp [ht])))
      (ihe fun t ht => hw t (by simp [ht]))
  | tighter _ ih => exact ih hw

end Trees

end ComplexCalc
