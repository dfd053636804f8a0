import ComplexCalc.Proofs.Debugging
/-!
# Reckoning with constants

Sums, differences and negatives of numbers and of the constant `i` have the value that arithmetic gives
them, and their evaluation touches neither the memory nor the table. Nothing can go wrong in it but that,
with debugging on, a value on the way cannot be shown.
-/
namespace ComplexCalc

/-! ## Steps that touch nothing -/

/-- The step gives `a` and touches nothing, unless debugging is on and a number with components in `p`
cannot be shown. -/
structure Settles {α : Type} (s : Settings) (p : Float → Prop) (m : EvalM α) (w : Workspace) (a : α) :
    Prop where
  memory : (m w).2.memory = w.memory
  table : (m w).2.table = w.table
  debug : (m w).2.journal.enabled = w.journal.enabled
  result : (m w).1 = .ok a ∨ (m w).1 = .error (.fault .zeroDivision) ∧ w.journal.enabled = true ∧
    ∃ z : Number, p z.re ∧ p z.im ∧ ∀ text, Display.value s.math s.precision (.number z) ≠ .ok text

namespace Settles

variable {α β : Type} {s : Settings} {p : Float → Prop} {w : Workspace}

theorem pure (a : α) : Settles s p (pure a) w a := ⟨rfl, rfl, rfl, .inl rfl⟩

theorem bind {m : EvalM α} {f : α → EvalM β} {a : α} {b : β} (hm : Settles s p m w a)
    (hf : ∀ w' : Workspace, w'.memory = w.memory → w'.table = w.table → Settles s p (f a) w' b) :
    Settles s p (m >>= f) w b := by
  obtain ⟨hmemory, htable, hdebug, hresult⟩ := hm
  rcases hr : m w with ⟨φ | a', w'⟩ <;> rw [hr] at hmemory htable hdebug hresult
  · rcases hresult with h | ⟨h, hfail⟩ <;> cases h
    have hbind : (m >>= f) w = (.error (.fault .zeroDivision), w') := Action.bind_error hr
    refine ⟨?_, ?_, ?_, .inr ⟨?_, hfail⟩⟩ <;> rw [hbind]
    · exact hmemory
    · exact htable
    · exact hdebug
  · rcases hresult with h | ⟨h, -⟩ <;> cases h
    obtain ⟨hmemory', htable', hdebug', hresult'⟩ := hf w' hmemory htable
    have hbind : (m >>= f) w = f a w' := Action.bind_ok hr
    rw [hdebug] at hdebug' hresult'
    refine ⟨?_, ?_, ?_, ?_⟩ <;> rw [hbind]
    · exact hmemory'.trans hmemory
    · exact htable'.trans htable
    · exact hdebug'
    · exact hresult'

theorem expectNumber {part : EvalM Value} {z : Number} (h : Settles s p part w (.number z)) :
    Settles s p (Rule.expectNumber part) w z :=
  h.bind fun _ _ _ => ⟨rfl, rfl, rfl, .inl rfl⟩

theorem operands {left right : EvalM Value} {y z : Number} (hl : Settles s p left w (.number y))
    (hr : ∀ w' : Workspace, w'.memory = w.memory → w'.table = w.table →
      Settles s p right w' (.number z)) :
    Settles s p (Rule.operands left right) w (y, z) :=
  hl.expectNumber.bind fun w' hm ht => (hr w' hm ht).expectNumber.bind fun _ _ _ => .pure _

/-- An expression whose rule settles on a number has this number as its value. -/
theorem eval {e : Expr} {z : Number} (hre : p z.re) (him : p z.im)
    (h : Settles s p (e.rule s) (e.enter w) (.number z)) : Settles s p (e.eval s) w (.number z) := by
  obtain ⟨hresult, hmemory, htable⟩ := Expr.eval_apply (s := s) e w
  refine ⟨?_, ?_, ?_, ?_⟩
  · rw [hmemory, h.memory, Expr.memory_enter]
  · rw [htable, h.table, Expr.table_enter]
  · rw [Expr.enabled_eval, h.debug, Expr.enabled_enter]
  · have hrule := h.result
    rw [Expr.enabled_enter] at hrule
    rcases hrule with hrule | ⟨hrule, hfail⟩ <;> rw [hrule] at hresult <;> dsimp only at hresult
    · split at hresult
      · rename_i hdebug
        rcases hshown : Display.value s.math s.precision (.number z) with φ | text <;> rw [hshown] at hresult
        · cases Display.value_eq_error hshown
          refine .inr ⟨hresult, hdebug, z, hre, him, fun text htext => ?_⟩
          rw [hshown] at htext
          cases htext
        · exact .inl hresult
      · exact .inl hresult
    · exact .inr ⟨hresult, hfail⟩

end Settles

/-! ## Expressions -/

/-- The expression is put together from numbers and the constant `i` by signs, sums and differences, and
has the value `z`. The components of the values on the way are in `p`. -/
inductive Reckons (p : Float → Prop) : Expr → Number → Prop
  | num {z : Number} : p z.re → p z.im → Reckons p (.num z) z
  | unit : p Number.i.re → p Number.i.im → Reckons p (.name "i") .i
  | neg {e : Expr} {z : Number} : Reckons p e z → p (-z).re → p (-z).im →
      Reckons p (.unary .neg e) (-z)
  | add {d e : Expr} {y z : Number} : Reckons p d y → Reckons p e z → p (y + z).re → p (y + z).im →
      Reckons p (.binary .add d e) (y + z)
  | sub {d e : Expr} {y z : Number} : Reckons p d y → Reckons p e z → p (y - z).re → p (y - z).im →
      Reckons p (.binary .sub d e) (y - z)

theorem Workspace.reading_congr {w w' : Workspace} (hm : w'.memory = w.memory)
    (ht : w'.table = w.table) (x : String) : w'.reading x = w.reading x :=
  reading_of_eq hm (congrArg Table.scope ht) x

/-- What is reckoned from constants is what evaluation gives. -/
theorem Reckons.eval {p : Float → Prop} {e : Expr} {z : Number} (h : Reckons p e z) (s : Settings)
    {w : Workspace} (hi : w.reading "i" = some (.number .i, true)) :
    Settles s p (e.eval s) w (.number z) := by
  induction h generalizing w with
  | num hre him => exact .eval hre him (.pure _)
  | unit hre him =>
    refine .eval hre him ?_
    have hname : Rule.name "i" ((Expr.name "i").enter w) =
        (.ok (.number .i), (Expr.name "i").enter w) := by
      rw [name_apply, Workspace.reading_congr (Expr.memory_enter _ w) (Expr.table_enter _ w), hi]
    refine ⟨?_, ?_, ?_, .inl ?_⟩ <;> rw [Expr.rule, hname]
  | neg _ hre him ih =>
    refine .eval hre him ?_
    rw [← Workspace.reading_congr (Expr.memory_enter _ w) (Expr.table_enter _ w)] at hi
    exact (ih hi).expectNumber.bind fun _ _ _ => .pure _
  | add _ _ hre him ihd ihe | sub _ _ hre him ihd ihe =>
    refine .eval hre him ?_
    rw [← Workspace.reading_congr (Expr.memory_enter _ w) (Expr.table_enter _ w)] at hi
    refine ((ihd hi).operands fun w' hm ht => ihe ?_).bind fun _ _ _ => .pure _
    rw [Workspace.reading_congr hm ht, hi]

end ComplexCalc
