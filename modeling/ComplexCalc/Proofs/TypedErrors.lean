import ComplexCalc.Proofs.Escapes
import ComplexCalc.Proofs.Standard
/-!
# Which lines end with a fault

The language foresees every failure but those of three operations: division by a number that is zero
and NaN in one, the inverse tangents of a number whose component has no square, and the display of a
value in the journal. A line ends with a fault exactly if its evaluation comes to one of them.
-/
namespace ComplexCalc

/-- The evaluation of an expression, begun in the state `w`, comes to an operation that fails with a
fault, other than in one of the parts. -/
inductive Hazard (s : Settings) (e : Expr) (w : Workspace) : Fault → Prop
  | breaks {x : Fault} : Breaks s e (e.enter w) x → Hazard s e w x
  | shown {v : Value} {x : Fault} : w.journal.enabled = true → (e.rule s (e.enter w)).1 = .ok v →
      Display.value s.math s.precision v = .error (.fault x) → Hazard s e w x

/-- The builtin functions are functions of the language. -/
theorem EvalM.isOwn_of_builtins {f : String} {c : Callable} (h : builtins.get? f = some c) :
    c.IsOwn := by
  rcases builtins_cases h with ⟨g, -, rfl⟩ | ⟨-, rfl⟩ | ⟨-, rfl⟩ | ⟨-, rfl⟩ | ⟨-, rfl⟩ <;>
    exact trivial

section Evaluations
variable {s : Settings} {e : Expr} {w : Workspace} {φ : Failure}

theorem failsWith_eval : FailsWith (e.eval s) w φ ↔ FailsWith (e.rule s) (e.enter w) φ ∨
    w.journal.enabled = true ∧ ∃ v, (e.rule s (e.enter w)).1 = .ok v ∧
      Display.value s.math s.precision v = .error φ := by
  unfold FailsWith
  rw [(Expr.eval_apply s e w).1]
  rcases (e.rule s (e.enter w)).1 with ψ | v
  · simp
  · by_cases h : w.journal.enabled = true
    · cases hd : Display.value s.math s.precision v <;> simp [h, hd, Except.map]
    · simp [h]

theorem failsWith_eval_of_standard (hφ : φ.Other) (hw : w.Standard) :
    FailsWith (e.eval s) w φ ↔
      FailsInPart s e (e.enter w) φ ∨ ∃ x, φ = .fault x ∧ Hazard s e w x := by
  have hown : ∀ f c, (e.enter w).table.functions.get? f = some c → c.IsOwn := by
    intro f c h
    rw [Expr.table_enter, hw.functions] at h
    exact EvalM.isOwn_of_builtins h
  rw [failsWith_eval, failsWith_rule hφ e fun f _ c _ hc => hown f c hc, or_assoc]
  refine or_congr .rfl ⟨?_, ?_⟩
  · rintro (⟨x, hx, h⟩ | ⟨hon, v, hv, h⟩)
    · exact ⟨x, hx, .breaks h⟩
    · obtain rfl := Display.value_eq_error h
      exact ⟨_, rfl, .shown hon hv h⟩
  · rintro ⟨x, rfl, h⟩
    cases h with
    | breaks h => exact .inl ⟨x, rfl, h⟩
    | shown hon hv h => exact .inr ⟨hon, _, hv, h⟩

/-- An evaluation fails unforeseen exactly if it comes to a hazard. -/
theorem eval_fails_iff (hφ : φ.Other) (e : Expr) {w : Workspace} (hw : w.Standard) :
    FailsWith (e.eval s) w φ ↔
      ∃ loops e' w' x, Visits s e w loops e' w' ∧ φ = .fault x ∧ Hazard s e' w' x := by
  rw [failsWith_eval_of_standard hφ hw]
  constructor
  · rintro (⟨loops, e', w', hstart, h⟩ | ⟨x, hx, h⟩)
    -- The induction is on the expression: a rule begins with smaller parts only.
    · have hlt := hstart.sizeOf_lt
      obtain ⟨loops', e'', w'', x, hv, hx, hz⟩ :=
        (eval_fails_iff hφ e' (Visits.standard (.part hstart .here) hw)).1 h
      exact ⟨_, e'', w'', x, .part hstart hv, hx, hz⟩
    · exact ⟨[], e, w, x, .here, hx, h⟩
  · rintro ⟨loops, e', w', x, hv, hx, hz⟩
    cases hv with
    | here => exact .inr ⟨x, hx, hz⟩
    | part hstart hv =>
      have hlt := hstart.sizeOf_lt
      exact .inl ⟨_, _, _, hstart, (eval_fails_iff hφ _ (Visits.standard (.part hstart .here) hw)).2
        ⟨_, e', w', x, hv, hx, hz⟩⟩
termination_by e

end Evaluations

theorem Breaks.fault_cases {s : Settings} {e : Expr} {w : Workspace} {x : Fault}
    (h : Breaks s e w x) : x = .zeroDivision ∨ x = .overflow := by
  cases h with
  | quotient => exact .inl rfl
  | function _ _ hg =>
    cases hg with
    | tan | tanh => exact .inl rfl
    | atan | atanh => exact .inr rfl

theorem Hazard.fault_cases {s : Settings} {e : Expr} {w : Workspace} {x : Fault}
    (h : Hazard s e w x) : x = .zeroDivision ∨ x = .overflow := by
  cases h with
  | breaks h => exact h.fault_cases
  | shown _ _ h => exact .inl (Failure.fault.inj (Display.value_eq_error h))

/-! ## Lines -/

/-- Parsing fails in no other way than that the text is no expression. -/
theorem EvalM.parse_eq_error {text : String} {w w' : Workspace} {φ : Failure}
    (h : parse text w = (.error φ, w')) : ∃ e, φ = .noExpression e := by
  rcases Action.bind_cases h with ⟨⟨e, rest⟩, u, -, h⟩ | ⟨ψ, h, hφ⟩
  · dsimp only at h
    split at h <;> cases h
    exact ⟨_, rfl⟩
  · cases hφ
    unfold parsePrefix at h
    split at h <;> cases h
    exact ⟨_, rfl⟩

/-- A line fails with a fault exactly if its text is an expression whose evaluation does. -/
theorem evalText_fault {s : Settings} {text : String} {w : Workspace} {x : Fault} :
    (EvalM.evalText s text w).1 = .error (.fault x) ↔
      ∃ e w₁, EvalM.parse text w = (.ok e, w₁) ∧ FailsWith (e.eval s) w₁ (.fault x) := by
  have hφ : (Failure.fault x).Other := fun e h => by cases h
  refine failsWith_bind.trans ⟨?_, ?_⟩
  · rintro (h | ⟨e, w₁, hp, h⟩)
    · obtain ⟨e, he⟩ := EvalM.parse_eq_error (Prod.ext h rfl)
      cases he
    · refine ⟨e, w₁, hp, (failsWith_bind_left fun v w₂ h => ?_).1 h⟩
      exact not_failsWith_assign hφ "Ans" v (failsWith_map.1 h)
  · rintro ⟨e, w₁, hp, h⟩
    exact .inr ⟨e, w₁, hp, failsWith_bind.2 (.inl h)⟩

/-- On every table that lines lead to from a new one, a line ends with a fault exactly if its
evaluation comes to a hazard; in all other cases it gives a value or fails as the language foresees.
The fault is a division by zero or an overflow. -/
theorem line_fault_iff_hazard {s : Settings} {w : Workspace} (h : Reached s w) (text : String)
    (x : Fault) : ((EvalM.evalText s text w).1 = .error (.fault x) ↔
      ∃ e w₁ loops e' w', EvalM.parse text w = (.ok e, w₁) ∧ Visits s e w₁ loops e' w' ∧
        Hazard s e' w' x) ∧
    ((EvalM.evalText s text w).1 = .error (.fault x) → x = .zeroDivision ∨ x = .overflow) := by
  have hφ : (Failure.fault x).Other := fun e h => by cases h
  have hstandard : ∀ e w₁, EvalM.parse text w = (.ok e, w₁) → w₁.Standard := fun e w₁ hp =>
    EvalM.parse_standard hp h.standard
  have hiff : (EvalM.evalText s text w).1 = .error (.fault x) ↔
      ∃ e w₁ loops e' w', EvalM.parse text w = (.ok e, w₁) ∧ Visits s e w₁ loops e' w' ∧
        Hazard s e' w' x := by
    rw [evalText_fault]
    constructor
    · rintro ⟨e, w₁, hp, hf⟩
      obtain ⟨loops, e', w', y, hv, hy, hz⟩ := (eval_fails_iff hφ e (hstandard e w₁ hp)).1 hf
      cases hy
      exact ⟨e, w₁, loops, e', w', hp, hv, hz⟩
    · rintro ⟨e, w₁, loops, e', w', hp, hv, hz⟩
      exact ⟨e, w₁, hp, (eval_fails_iff hφ e (hstandard e w₁ hp)).2 ⟨loops, e', w', x, hv, rfl, hz⟩⟩
  refine ⟨hiff, fun hf => ?_⟩
  obtain ⟨_, _, _, _, _, -, -, hz⟩ := hiff.1 hf
  exact hz.fault_cases

theorem line_fault_iff_hazard_on_new_table :
    Reached .standard (.fresh default true (.fresh false)) ∧
    ((EvalM.evalText .standard "atan(1e200i)" (.fresh default true (.fresh false))).1 =
        .error (.fault .overflow) ↔
      ∃ e w₁ loops e' w',
        EvalM.parse "atan(1e200i)" (.fresh default true (.fresh false)) = (.ok e, w₁) ∧
        Visits .standard e w₁ loops e' w' ∧ Hazard .standard e' w' .overflow) :=
  ⟨.fresh default _, (line_fault_iff_hazard (.fresh default _) "atan(1e200i)" .overflow).1⟩

/-- The fault that a result is. -/
def faultOf {α : Type} : Except Failure α → Option Fault
  | .error (.fault x) => some x
  | _ => none

theorem faultOf_eq_some {α : Type} {r : Except Failure α} {x : Fault} :
    faultOf r = some x ↔ r = .error (.fault x) := by
  rcases r with (_ | _ | _) | _ <;> simp [faultOf]

/-- The inverse tangent of a large imaginary number squares it, and a quotient by a number that is zero
and NaN in one divides by the zero. -/
theorem line_faults_on_new_table :
    Reached .standard (.fresh default true (.fresh false)) ∧
    (EvalM.evalText .standard "atan(1e200i)" (.fresh default true (.fresh false))).1 =
      .error (.fault .overflow) ∧
    (EvalM.evalText .standard "1 / (1e999i - 1e999i)" (.fresh default true (.fresh false))).1 =
      .error (.fault .zeroDivision) :=
  ⟨.fresh default _, faultOf_eq_some.1 (by decide +kernel), faultOf_eq_some.1 (by decide +kernel)⟩

end ComplexCalc
