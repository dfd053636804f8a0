import ComplexCalc.Proofs.Escapes
import ComplexCalc.Proofs.Protection
/-!
# What is refused

An assignment to a constant is refused wherever it stands in an expression, and so is a sum over the
name of one. The refusal of a part is that of the whole, and the constant is still there when the part
is reached, since nothing that comes before changes it.
-/
namespace ComplexCalc

/-! ## Failures of parts -/

section Parts
variable {s : Settings} {args : List Argument} {e e' : Expr} {w w' : Workspace} {loops : List String}
  {φ : Failure}

theorem FailsWith.firstBound (h : FailsWith (Rule.integerArgument args 0) w φ)
    (hlen : args.length ≤ 2) : FailsWith (Rule.randomInteger args) w φ := by
  unfold Rule.randomInteger
  dsimp only
  rw [if_neg (by omega)]
  exact failsWith_bind.2 (.inl h)

theorem FailsWith.secondBound {low : Int} (h : FailsWith (Rule.integerArgument args 1) w' φ)
    (hlen : args.length = 2) (hlow : Rule.integerArgument args 0 w = (.ok low, w')) :
    FailsWith (Rule.randomInteger args) w φ := by
  unfold Rule.randomInteger
  dsimp only
  rw [if_neg (by omega), failsWith_bind_ok hlow, if_pos hlen]
  exact failsWith_bind.2 (.inl h)

theorem FailsWith.binary {m : RealFunctions} {op : BinaryOp} {left right : EvalM Value} (hop : op ≠ .mod)
    (h : FailsWith (Rule.operands left right) w φ) :
    FailsWith (Rule.binary m op left right) w φ := by
  cases op with
  | mod => exact absurd rfl hop
  | _ => exact failsWith_bind.2 (.inl h)

/-- A call fails with what an argument that it counts on for a value fails with. -/
theorem FailsWith.apply {m : RealFunctions} {c : Callable} {k : Nat} {a : Argument} {zs : List Number}
    (h : FailsWith a.value w' φ) (hlen : c.arity? = some args.length) (ha : args[k]? = some a)
    (hzs : Rule.numberArguments (args.take k) w = (.ok zs, w')) :
    FailsWith (Rule.apply m c args) w φ := by
  have hcount : ∀ {n : Nat}, some n = some args.length → Rule.checkCount args n w = (.ok (), w) :=
    fun hn => checkCount_apply w (Option.some.inj hn).symm
  -- The only argument of a function of one is the first thing that the function evaluates.
  have hone : some 1 = some args.length → FailsWith a.value w φ ∧
      Rule.argumentAt args 0 w = (.ok a, w) := by
    intro hn
    have hk : k = 0 := by
      have hlt := (List.getElem?_eq_some_iff.1 ha).1
      have hn := Option.some.inj hn
      omega
    subst hk
    cases hzs
    exact ⟨h, argumentAt_apply (k := 0) ha⟩
  cases c with
  | elementary g =>
    obtain ⟨h, hat⟩ := hone hlen
    unfold Rule.apply
    dsimp only
    rw [failsWith_bind_ok (hcount hlen), failsWith_bind_ok hat]
    exact failsWith_bind.2 (.inl h.expectNumber)
  | unary g builtin =>
    obtain ⟨h, hat⟩ := hone hlen
    unfold Rule.apply
    dsimp only
    rw [failsWith_bind_ok (hcount hlen), failsWith_bind_ok hat]
    exact failsWith_bind.2 (.inl h)
  | polar | native _ _ _ =>
    unfold Rule.apply
    dsimp only
    rw [failsWith_bind_ok (hcount hlen)]
    exact failsWith_bind.2 (.inl (h.numberArguments ha hzs))
  | random =>
    have hnil : args = [] := List.length_eq_zero_iff.1 (Option.some.inj hlen).symm
    rw [hnil] at ha
    cases ha
  | randomInteger | sum => cases hlen

/-- A rule fails with what a part fails with. -/
theorem Starts.failsWith (h : Starts s e w loops e' w') (hf : FailsWith (e'.eval s) w' φ) :
    FailsWith (e.rule s) w φ := by
  have hget : ∀ {es : List Expr} {k : Nat} {a : Expr}, es[k]? = some a →
      (es.map (Expr.argument s))[k]? = some (a.argument s) := by
    intro es k a ha
    rw [List.getElem?_map, ha]
    rfl
  have hcall : ∀ {f : String} {es : List Expr} {c : Callable}, w.table.functions.get? f = some c →
      FailsWith (Rule.apply s.math c (es.map (Expr.argument s))) w φ →
      FailsWith ((Expr.call f es).rule s) w φ := by
    intro f es c hc hf
    refine (failsWith_bind_ok (EvalM.findFunction?_apply _ _)).2 ?_
    rw [hc]
    exact hf
  cases h with
  | assigned => exact failsWith_bind.2 (.inl hf)
  | @operand op a _ =>
    cases op with
    | neg | abs => exact failsWith_bind.2 (.inl hf.expectNumber)
    | fact => exact failsWith_bind.2 (.inl hf.expectInteger)
  | @left op l r _ =>
    by_cases hop : op = .mod
    · subst hop
      exact failsWith_bind.2 (.inl hf.expectInteger)
    · exact .binary hop (failsWith_bind.2 (.inl hf.expectNumber))
  | right hop hz =>
    exact .binary hop (failsWith_bind.2 (.inr ⟨_, _, hz, failsWith_bind.2 (.inl hf.expectNumber)⟩))
  | divisor hn =>
    exact failsWith_bind.2 (.inr ⟨_, _, hn, failsWith_bind.2 (.inl hf.expectInteger)⟩)
  | argument hc hlen ha hzs =>
    have hlen := hlen.trans (congrArg some (List.length_map (Expr.argument s)).symm)
    exact hcall hc (FailsWith.apply hf hlen (hget ha) hzs)
  | @firstBound f es c _ _ hc hlen ha =>
    have hfirst := FailsWith.integerArgument (k := 0) (hget ha) hf
    cases c with
    | randomInteger => exact hcall hc (hfirst.firstBound (by rw [List.length_map]; exact hlen))
    | sum => exact hcall hc (FailsAtBound.sum (.inl hfirst) (by rw [List.length_map]; exact hlen))
    | _ => exact hlen.elim
  | @secondBound f es c _ _ _ _ hc hlen ha hlow =>
    have hsecond := FailsWith.integerArgument (k := 1) (hget ha) hf
    cases c with
    | randomInteger =>
      have hle : es.length ≤ 2 := hlen
      have hlt := (List.getElem?_eq_some_iff.1 ha).1
      exact hcall hc (hsecond.secondBound (by rw [List.length_map]; omega) hlow)
    | sum =>
      exact hcall hc (FailsAtBound.sum (.inr ⟨_, _, hlow, hsecond⟩) (by rw [List.length_map]; exact hlen))
    | _ => exact hlen.elim
  | body hc hlow hhigh hle hcopy hd hit =>
    have hloop := Loops.intro rfl rfl rfl rfl hlow hhigh hle hcopy hd hit
    exact hcall hc (hloop.failsWith hf)

theorem FailsWith.eval (h : FailsWith (e.rule s) (e.enter w) φ) : FailsWith (e.eval s) w φ := by
  have h₁ : (e.rule s (e.enter w)).1 = .error φ := h
  unfold FailsWith
  rw [(Expr.eval_apply s e w).1, h₁]

/-- An evaluation fails with what a part that it comes to fails with. -/
theorem Visits.failsWith (h : Visits s e w loops e' w') (hf : FailsWith (e'.eval s) w' φ) :
    FailsWith (e.eval s) w φ := by
  induction h with
  | here => exact hf
  | part hstart _ ih => exact (hstart.failsWith (ih hf)).eval

end Parts

/-! ## Constants -/

/-- The name is bound to this constant, and every name has a variable. -/
structure Workspace.Fixes (x : String) (id : Nat) (v : Variable) (w : Workspace) : Prop where
  sound : w.Sound
  found : w.table.locate? w.memory x = some (id, v)
  constant : v.constant = true

namespace Workspace.Fixes

variable {x : String} {id : Nat} {v : Variable} {w : Workspace}

theorem lasting : Workspace.Lasting (Fixes x id v) where
  sound h := h.sound
  frame h hframe := by
    have hguarded : Guarded (fun _ => True) _ _ := .of_frame hframe
    exact ⟨hframe.sound h.sound, hguarded.locate? h.found h.constant, h.constant⟩
  inTable h hs _ := by
    refine ⟨h.sound.inTable hs, ?_, h.constant⟩
    rw [← h.found]
    simp only [Table.locate?, hs]
  define h hd := by
    refine ⟨h.sound.define hd, ?_, h.constant⟩
    rename_i w w' u
    have hguarded := Guarded.define u w
    rw [hd] at hguarded
    exact hguarded.locate? h.found h.constant

theorem assign (h : Fixes x id v w) (a : Value) :
    EvalM.assign x a w = (.error (.noValue (.constantVariable x)), w) := by
  obtain ⟨hx, hv⟩ := Table.locate?_eq_some.1 h.found
  rcases EvalM.assign_cases h.sound x a with ⟨ha, -⟩ | ⟨id', v', hx', hv', -, hk, -⟩ | ⟨hnone, -⟩
  · exact ha
  · cases hx.symm.trans hx'
    cases hv.symm.trans hv'
    rw [h.constant] at hk
    cases hk
  · cases hx.symm.trans hnone

theorem bindTo (hv : w.table.locate? w.memory x = some (id, v)) (hk : v.constant = true) (j : Nat) :
    EvalM.bindTo x j w = (.error (.noValue (.constantVariable x)), w) := by
  rcases EvalM.bindTo_cases w x j with ⟨_, _, -, -, h⟩ | ⟨hvar, -⟩
  · exact h
  · rw [hvar id v hv] at hk
    cases hk

theorem define (h : Fixes x id v w) {u : Variable} (hu : u.name = x) :
    FailsWith (EvalM.define u) w (.noValue (.constantVariable x)) := by
  obtain ⟨hx, hv⟩ := Table.locate?_eq_some.1 h.found
  have hfound : w.table.locate? (w.memory.push u) x = some (id, v) :=
    Table.locate?_eq_some.2 ⟨hx, Memory.getElem?_push_of_some hv u⟩
  unfold FailsWith
  rw [EvalM.define_eq, hu, bindTo (w := { w with memory := w.memory.push u }) hfound h.constant]

end Workspace.Fixes

/-! ## Attempts -/

/-- The evaluation of a text comes to a change of the name: to an assignment with its value, to a sum
over the name with its bounds, or to binding the answer. -/
inductive Attempts (s : Settings) (text : String) (w : Workspace) : String → Prop
  | assigned {e v : Expr} {x : String} {a : Value} {loops : List String} {w₀ w₁ w₂ : Workspace} :
      EvalM.parse text w = (.ok e, w₀) → Visits s e w₀ loops (.assign x v) w₁ →
      v.eval s ((Expr.assign x v).enter w₁) = (.ok a, w₂) → Attempts s text w x
  | looped {e low high body : Expr} {f x : String} {i j : Int} {loops : List String}
      {w₀ w₁ w₂ w₃ : Workspace} :
      EvalM.parse text w = (.ok e, w₀) →
      Visits s e w₀ loops (.call f [low, high, .name x, body]) w₁ →
      w₁.table.functions.get? f = some .sum →
      Rule.integerArgument ([low, high, .name x, body].map (Expr.argument s)) 0
        ((Expr.call f [low, high, .name x, body]).enter w₁) = (.ok i, w₂) →
      Rule.integerArgument ([low, high, .name x, body].map (Expr.argument s)) 1 w₂ = (.ok j, w₃) →
      i ≤ j → Attempts s text w x
  | answered {e : Expr} {a : Value} {w₀ w₁ : Workspace} :
      EvalM.parse text w = (.ok e, w₀) → e.eval s w₀ = (.ok a, w₁) → Attempts s text w "Ans"

section Attempts
variable {s : Settings} {text x : String} {id : Nat} {v : Variable} {w : Workspace}

theorem assign_refused {e : Expr} {a : Value} {w₁ : Workspace} (hw : w.Fixes x id v)
    (he : e.eval s ((Expr.assign x e).enter w) = (.ok a, w₁)) :
    FailsWith ((Expr.assign x e).eval s) w (.noValue (.constantVariable x)) := by
  have hw₁ : w₁.Fixes x id v :=
    (eval_keeps_all e _).lasting Workspace.Fixes.lasting he (Workspace.Fixes.lasting.enter hw)
  have hrefused : FailsWith (EvalM.assign x a) w₁ (.noValue (.constantVariable x)) :=
    congrArg Prod.fst (hw₁.assign a)
  exact FailsWith.eval (failsWith_bind.2 (.inr ⟨a, w₁, he, failsWith_bind.2 (.inl hrefused)⟩))

theorem sum_refused {f : String} {low high body : Expr} {i j : Int} {w₁ w₂ : Workspace}
    (hw : w.Fixes x id v) (hf : w.table.functions.get? f = some .sum)
    (hlow : Rule.integerArgument ([low, high, .name x, body].map (Expr.argument s)) 0
      ((Expr.call f [low, high, .name x, body]).enter w) = (.ok i, w₁))
    (hhigh : Rule.integerArgument ([low, high, .name x, body].map (Expr.argument s)) 1 w₁ =
      (.ok j, w₂)) (hle : i ≤ j) :
    FailsWith ((Expr.call f [low, high, .name x, body]).eval s) w
      (.noValue (.constantVariable x)) := by
  have hlasting : Workspace.Lasting (Workspace.Fixes x id v) := Workspace.Fixes.lasting
  have hw₁ := (integerArgument_keeps_all _ 0 _).lasting hlasting hlow (hlasting.enter hw)
  have hw₂ := (integerArgument_keeps_all _ 1 _).lasting hlasting hhigh hw₁
  rcases hcopy : EvalM.copy w₂ with ⟨_ | scope, w₃⟩
  · obtain ⟨_, _, h⟩ := EvalM.copy_apply w₂
    rw [h] at hcopy
    cases hcopy
  refine FailsWith.eval ((failsWith_bind_ok (EvalM.findFunction?_apply _ _)).2 ?_)
  rw [Expr.table_enter, hf]
  -- The bounds are found and the name is bound in a copy, where it has its constant too.
  have hsum := sum_apply rfl rfl rfl rfl hlow hhigh hle hcopy
  refine (congrArg Prod.fst hsum).trans (failsWith_inTable.2 (failsWith_bind.2 (.inl ?_)))
  exact (hlasting.copy hcopy hw₂).define rfl

/-- A change of a constant is refused wherever an evaluation comes to it. -/
theorem evalText_refused (h : Attempts s text w x) (hw : w.Fixes x id v) :
    FailsWith (EvalM.evalText s text) w (.noValue (.constantVariable x)) := by
  have hlasting : Workspace.Lasting (Workspace.Fixes x id v) := Workspace.Fixes.lasting
  have hparse : ∀ {e w₀}, EvalM.parse text w = (.ok e, w₀) → w₀.Fixes x id v := fun hp =>
    (EvalM.parse_keeps text w).lasting hlasting hp hw
  have heval : ∀ {e w₀}, EvalM.parse text w = (.ok e, w₀) →
      FailsWith (e.eval s) w₀ (.noValue (.constantVariable x)) →
      FailsWith (EvalM.evalText s text) w (.noValue (.constantVariable x)) := fun hp hf =>
    failsWith_bind.2 (.inr ⟨_, _, hp, failsWith_bind.2 (.inl hf)⟩)
  cases h with
  | assigned hp hv ha => exact heval hp (hv.failsWith (assign_refused (hv.lasting hlasting (hparse hp)) ha))
  | looped hp hv hf hlow hhigh hle =>
    exact heval hp (hv.failsWith (sum_refused (hv.lasting hlasting (hparse hp)) hf hlow hhigh hle))
  | answered hp he =>
    have hw₁ := (eval_keeps_all _ _).lasting hlasting he (hparse hp)
    refine failsWith_bind.2 (.inr ⟨_, _, hp, failsWith_bind.2 (.inr ⟨_, _, he, ?_⟩)⟩)
    exact failsWith_bind.2 (.inl (congrArg Prod.fst (hw₁.assign _)))

end Attempts

end ComplexCalc
