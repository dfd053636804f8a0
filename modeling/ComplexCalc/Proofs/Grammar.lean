import ComplexCalc.Parser
/-!
# The grammar of expressions

The language in layers, each of which includes the next tighter one:

* assignment: `N = assignment`
* sum: `sum + product`, `sum - product`
* product: `product * power`, `product / power`, `product mod power`
* power: `signed ** power`
* signed: `- signed`
* applied: `applied !`, `N ( )`, `N ( assignment , … , assignment )`
* primary: a literal that is a number, a name, `( assignment )`, `| assignment |`

where `N` is a primary whose tree is a name. Nothing here mentions the parser: `Derives l w e` says
that the tokens `w` form an expression of the layer `l` with the tree `e`.
-/
namespace ComplexCalc

/-- The layers, from the loosest to the tightest. -/
inductive Level where
  | assignment | sum | product | power | signed | applied | primary
deriving DecidableEq, Repr

namespace Level

/-- How tight a layer is. -/
def rank : Level → Nat
  | assignment => 0
  | sum => 1
  | product => 2
  | power => 3
  | signed => 4
  | applied => 5
  | primary => 6

/-- The next tighter layer. -/
def tighter : Level → Level
  | assignment => sum
  | sum => product
  | product => power
  | power => signed
  | signed => applied
  | applied | primary => primary

/-- The operators that a layer chains from left to right. -/
def operator? : Level → TokenKind → Option BinaryOp
  | sum, .plus => some .add
  | sum, .minus => some .sub
  | product, .asterisk => some .mul
  | product, .slash => some .div
  | product, .mod => some .mod
  | _, _ => none

end Level

/-- Further expressions in a row, each after a comma, where `R` says what an expression is. -/
inductive Further (R : List Token → Expr → Prop) : List Token → List Expr → Prop
  | nil : Further R [] []
  | cons {t : Token} {w v : List Token} {e : Expr} {es : List Expr} :
      t.kind = .comma → R w e → Further R v es → Further R (t :: w ++ v) (e :: es)

theorem Further.imp {R S : List Token → Expr → Prop} (h : ∀ w e, R w e → S w e) {v : List Token}
    {es : List Expr} (hv : Further R v es) : Further S v es := by
  induction hv with
  | nil => exact .nil
  | cons ht hw _ ih => exact .cons ht (h _ _ hw) ih

/-- The tokens form an expression of the layer with this tree. -/
inductive Derives : Level → List Token → Expr → Prop
  | literal {t : Token} {z : Number} :
      t.kind = .literal → Literal.read t.text = .ok z → Derives .primary [t] (.num z)
  | name {t : Token} :
      t.kind = .identifier → Derives .primary [t] (.name (String.ofList t.text))
  | group {o c : Token} {w : List Token} {e : Expr} :
      o.kind = .leftParen → Derives .assignment w e → c.kind = .rightParen →
        Derives .primary (o :: w ++ [c]) e
  | absolute {o c : Token} {w : List Token} {e : Expr} :
      o.kind = .pipe → Derives .assignment w e → c.kind = .pipe →
        Derives .primary (o :: w ++ [c]) (.unary .abs e)
  | factorial {t : Token} {w : List Token} {e : Expr} :
      Derives .applied w e → t.kind = .exclamation → Derives .applied (w ++ [t]) (.unary .fact e)
  | call {o c : Token} {n : List Token} {f : String} :
      Derives .primary n (.name f) → o.kind = .leftParen → c.kind = .rightParen →
        Derives .applied (n ++ [o, c]) (.call f [])
  | callWith {o c : Token} {n w v : List Token} {f : String} {e : Expr} {es : List Expr} :
      Derives .primary n (.name f) → o.kind = .leftParen → Derives .assignment w e →
        Further (Derives .assignment) v es → c.kind = .rightParen →
        Derives .applied (n ++ o :: (w ++ v ++ [c])) (.call f (e :: es))
  | negation {t : Token} {w : List Token} {e : Expr} :
      t.kind = .minus → Derives .signed w e → Derives .signed (t :: w) (.unary .neg e)
  | power {t : Token} {w v : List Token} {d e : Expr} :
      Derives .signed w d → t.kind = .exponent → Derives .power v e →
        Derives .power (w ++ t :: v) (.binary .pow d e)
  | chain {l : Level} {op : BinaryOp} {t : Token} {w v : List Token} {d e : Expr} :
      Derives l w d → l.operator? t.kind = some op → Derives l.tighter v e →
        Derives l (w ++ t :: v) (.binary op d e)
  | assign {t : Token} {n w : List Token} {x : String} {e : Expr} :
      Derives .primary n (.name x) → t.kind = .assign → Derives .assignment w e →
        Derives .assignment (n ++ t :: w) (.assign x e)
  | tighter {l : Level} {w : List Token} {e : Expr} : Derives l.tighter w e → Derives l w e

namespace Derives

section Induction
variable {motive : ∀ l w e, Derives l w e → Prop}

/-- Induction on a derivation, where the further arguments of a call satisfy the claim as well. -/
@[elab_as_elim, induction_eliminator]
theorem induct
    (literal : ∀ {t : Token} {z : Number} (ht : t.kind = .literal)
      (hz : Literal.read t.text = .ok z), motive .primary [t] (.num z) (.literal ht hz))
    (name : ∀ {t : Token} (ht : t.kind = .identifier),
      motive .primary [t] (.name (String.ofList t.text)) (.name ht))
    (group : ∀ {o c : Token} {w : List Token} {e : Expr} (ho : o.kind = .leftParen)
      (hw : Derives .assignment w e) (hc : c.kind = .rightParen), motive .assignment w e hw →
      motive .primary (o :: w ++ [c]) e (.group ho hw hc))
    (absolute : ∀ {o c : Token} {w : List Token} {e : Expr} (ho : o.kind = .pipe)
      (hw : Derives .assignment w e) (hc : c.kind = .pipe), motive .assignment w e hw →
      motive .primary (o :: w ++ [c]) (.unary .abs e) (.absolute ho hw hc))
    (factorial : ∀ {t : Token} {w : List Token} {e : Expr} (hw : Derives .applied w e)
      (ht : t.kind = .exclamation), motive .applied w e hw →
      motive .applied (w ++ [t]) (.unary .fact e) (.factorial hw ht))
    (call : ∀ {o c : Token} {n : List Token} {f : String} (hn : Derives .primary n (.name f))
      (ho : o.kind = .leftParen) (hc : c.kind = .rightParen), motive .primary n (.name f) hn →
      motive .applied (n ++ [o, c]) (.call f []) (.call hn ho hc))
    (callWith : ∀ {o c : Token} {n w v : List Token} {f : String} {e : Expr} {es : List Expr}
      (hn : Derives .primary n (.name f)) (ho : o.kind = .leftParen) (hw : Derives .assignment w e)
      (hv : Further (Derives .assignment) v es) (hc : c.kind = .rightParen),
      motive .primary n (.name f) hn → motive .assignment w e hw →
      Further (fun w e => ∃ hw, motive .assignment w e hw) v es →
      motive .applied (n ++ o :: (w ++ v ++ [c])) (.call f (e :: es)) (.callWith hn ho hw hv hc))
    (negation : ∀ {t : Token} {w : List Token} {e : Expr} (ht : t.kind = .minus)
      (hw : Derives .signed w e), motive .signed w e hw →
      motive .signed (t :: w) (.unary .neg e) (.negation ht hw))
    (power : ∀ {t : Token} {w v : List Token} {d e : Expr} (hw : Derives .signed w d)
      (ht : t.kind = .exponent) (hv : Derives .power v e), motive .signed w d hw →
      motive .power v e hv → motive .power (w ++ t :: v) (.binary .pow d e) (.power hw ht hv))
    (chain : ∀ {l : Level} {op : BinaryOp} {t : Token} {w v : List Token} {d e : Expr}
      (hw : Derives l w d) (ht : l.operator? t.kind = some op) (hv : Derives l.tighter v e),
      motive l w d hw → motive l.tighter v e hv →
      motive l (w ++ t :: v) (.binary op d e) (.chain hw ht hv))
    (assign : ∀ {t : Token} {n w : List Token} {x : String} {e : Expr}
      (hn : Derives .primary n (.name x)) (ht : t.kind = .assign) (hw : Derives .assignment w e),
      motive .primary n (.name x) hn → motive .assignment w e hw →
      motive .assignment (n ++ t :: w) (.assign x e) (.assign hn ht hw))
    (tighter : ∀ {l : Level} {w : List Token} {e : Expr} (hw : Derives l.tighter w e),
      motive l.tighter w e hw → motive l w e (.tighter hw))
    {l : Level} {w : List Token} {e : Expr} (h : Derives l w e) : motive l w e h :=
  @Derives.rec motive (fun v es _ => Further (fun w e => ∃ hw, motive .assignment w e hw) v es)
    @literal @name @group @absolute @factorial @call @callWith @negation @power @chain @assign
    @tighter .nil (fun ht hR _ hw hv => .cons ht ⟨hR, hw⟩ hv) l w e h

end Induction
end Derives

/-! ## Layers within layers -/

theorem Level.rank_injective : Function.Injective rank := by
  intro l m h
  cases l <;> cases m <;> first | rfl | cases h

theorem Level.rank_le_primary (l : Level) : l.rank ≤ primary.rank := by cases l <;> decide

theorem Level.rank_tighter {l : Level} (h : l.rank < primary.rank) :
    l.tighter.rank = l.rank + 1 := by
  cases l <;> first | rfl | exact absurd h (by decide)

namespace Derives

variable {l m : Level} {w : List Token} {e : Expr} {x : String}

/-- A layer includes every tighter one. -/
theorem loosen (h : l.rank ≤ m.rank) (hd : Derives m w e) : Derives l w e := by
  induction hn : m.rank - l.rank generalizing l with
  | zero =>
    have hl : l = m := Level.rank_injective (by omega)
    exact hl ▸ hd
  | succ n ih =>
    have ht : l.tighter.rank = l.rank + 1 := Level.rank_tighter (by have := m.rank_le_primary; omega)
    exact .tighter (ih (by omega) (by omega))

/-- A tree that is a name is derived as a primary, whatever groups are around it. -/
theorem primary_of_name (h : Derives l w (.name x)) : Derives .primary w (.name x) := by
  generalize he : Expr.name x = e at h
  induction h with
  | name ht => exact .name ht
  | group ho hw hc => exact .group ho hw hc
  | tighter _ ih => exact ih he
  | _ => cases he

/-- An expression begins with one of five kinds of tokens. -/
theorem exists_first (h : Derives l w e) : ∃ t v, w = t :: v ∧
    t.kind ∈ [TokenKind.literal, .identifier, .leftParen, .pipe, .minus] := by
  induction h with
  | literal ht | name ht => exact ⟨_, _, rfl, by simp [ht]⟩
  | group ho | absolute ho | negation ho => exact ⟨_, _, rfl, by simp [ho]⟩
  | tighter _ ih => exact ih
  | factorial _ _ ih | call _ _ _ ih | callWith _ _ _ _ _ ih | power _ _ _ ih | chain _ _ _ ih
  | assign _ _ _ ih =>
    obtain ⟨t, v, rfl, ht⟩ := ih
    exact ⟨t, _, rfl, ht⟩

end Derives
end ComplexCalc
