import ComplexCalc.Proofs.Escapes
/-!
# Two runs side by side

Two steps are alike for a relation on states if from related states they give the same result and lead
to related states. The rules of evaluation turn steps that are alike into steps that are alike.
-/
namespace ComplexCalc

/-- Begun in related states, the steps have the same result and end in related states. -/
def Alike {α : Type} (R : Workspace → Workspace → Prop) (m n : EvalM α) : Prop :=
  ∀ w u, R w u → (m w).1 = (n u).1 ∧ R (m w).2 (n u).2

/-- The loop of a sum over `x` from `i` up to `j`, with a variable of its own in a copy of the table in
use. -/
def Rule.scopedLoop (x : String) (body : EvalM Value) (i j : Int) : EvalM Value := do
  let scope ← EvalM.copy
  EvalM.inTable scope do
    EvalM.define ⟨x, .number (.ofInt i), false⟩
    return .number (← Rule.sumLoop x body (j - i).toNat i .zero)

/-! ## Rules -/

namespace Alike

variable {α β γ : Type} {R : Workspace → Workspace → Prop} {part part' left left' right right' : EvalM Value}

theorem lift (r : Except Failure α) : Alike R (EvalM.lift r) (EvalM.lift r) := fun _ _ h => ⟨rfl, h⟩

theorem pure (a : α) : Alike R (pure a : EvalM α) (pure a) := fun _ _ h => ⟨rfl, h⟩

theorem refuse (e : EvalError) : Alike R (EvalM.refuse e : EvalM α) (EvalM.refuse e) := lift _

theorem bind {m n : EvalM α} {f g : α → EvalM β} (hm : Alike R m n) (hf : ∀ a, Alike R (f a) (g a)) :
    Alike R (m >>= f) (n >>= g) := by
  intro w u h
  obtain ⟨hresult, h⟩ := hm w u h
  rcases hw : m w with ⟨e | a, w'⟩ <;> rcases hu : n u with ⟨e' | a', u'⟩ <;>
    rw [hw, hu] at hresult h <;> cases hresult
  · rw [Action.bind_error hw, Action.bind_error hu]
    exact ⟨rfl, h⟩
  · rw [Action.bind_ok hw, Action.bind_ok hu]
    exact hf a w' u' h

/-- What comes after a step that fails does not matter. -/
theorem bind_of_fails {m n : EvalM α} {f g : α → EvalM β} (hm : Alike R m n)
    (hfails : ∀ w a w', m w ≠ (.ok a, w')) : Alike R (m >>= f) (n >>= g) := by
  intro w u h
  obtain ⟨hresult, h⟩ := hm w u h
  rcases hw : m w with ⟨e | a, w'⟩
  · rcases hu : n u with ⟨e' | a', u'⟩ <;> rw [hw, hu] at hresult h <;> cases hresult
    rw [Action.bind_error hw, Action.bind_error hu]
    exact ⟨rfl, h⟩
  · exact absurd hw (hfails w a w')

theorem lift_bind {r : Except Failure α} {f g : α → EvalM β}
    (h : ∀ a, r = .ok a → Alike R (f a) (g a)) : Alike R (EvalM.lift r >>= f) (EvalM.lift r >>= g) := by
  cases r with
  | error e => exact (lift _).bind_of_fails fun _ _ _ h => by cases h
  | ok a =>
    intro w u hwu
    rw [Action.bind_ok (EvalM.lift_apply w _), Action.bind_ok (EvalM.lift_apply u _)]
    exact h a rfl w u hwu

theorem refuse_bind (e : EvalError) (f g : α → EvalM β) :
    Alike R (EvalM.refuse e >>= f) (EvalM.refuse e >>= g) := lift_bind fun _ h => by cases h

theorem expectNumber (h : Alike R part part') :
    Alike R (Rule.expectNumber part) (Rule.expectNumber part') := h.bind fun _ => lift _

theorem expectInteger (h : Alike R part part') :
    Alike R (Rule.expectInteger part) (Rule.expectInteger part') := h.bind fun _ => lift _

theorem operands (hl : Alike R left left') (hr : Alike R right right') :
    Alike R (Rule.operands left right) (Rule.operands left' right') :=
  hl.expectNumber.bind fun _ => hr.expectNumber.bind fun _ => pure _

theorem unary (op : UnaryOp) (h : Alike R part part') :
    Alike R (Rule.unary op part) (Rule.unary op part') := by
  cases op with
  | neg | abs => exact h.expectNumber.bind fun _ => pure _
  | fact =>
    refine h.expectInteger.bind fun n => ?_
    split
    · exact refuse _
    · exact pure _

theorem binary (m : RealFunctions) (op : BinaryOp) (hl : Alike R left left')
    (hr : Alike R right right') :
    Alike R (Rule.binary m op left right) (Rule.binary m op left' right') := by
  cases op with
  | add | sub | mul | pow => exact (hl.operands hr).bind fun _ => pure _
  | div => exact (hl.operands hr).bind fun _ => (lift _).bind fun _ => pure _
  | mod =>
    refine hl.expectInteger.bind fun b => hr.expectInteger.bind fun n => ?_
    exact (lift _).bind fun _ => pure _

/-! ### Calls -/

theorem checkCount {args args' : List Argument} (h : args.length = args'.length) (n : Nat) :
    Alike R (Rule.checkCount args n) (Rule.checkCount args' n) := by
  unfold Rule.checkCount
  rw [h]
  split
  · exact refuse _
  · split
    · exact refuse _
    · exact pure _

section Arguments
variable {bs : List γ} {F G : γ → Argument}

theorem argumentAt (bs : List γ) {k : Nat} {f g : Argument → EvalM β}
    (h : ∀ b, bs[k]? = some b → Alike R (f (F b)) (g (G b))) :
    Alike R (Rule.argumentAt (bs.map F) k >>= f) (Rule.argumentAt (bs.map G) k >>= g) := by
  rcases hk : bs[k]? with - | b
  · have hlen : bs.length ≤ k := List.getElem?_eq_none_iff.1 hk
    have hmissing : ∀ H : γ → Argument,
        Rule.argumentAt (bs.map H) k = EvalM.refuse (.missingArgument (k + 1)) := by
      intro H
      unfold Rule.argumentAt
      rw [if_pos (by rw [List.length_map]; omega)]
    rw [hmissing F, hmissing G]
    exact refuse_bind _ _ _
  · intro w u hwu
    have hat : ∀ (H : γ → Argument) (w : Workspace),
        Rule.argumentAt (bs.map H) k w = (.ok (H b), w) := fun H w =>
      argumentAt_apply (by rw [List.getElem?_map, hk]; rfl)
    rw [Action.bind_ok (hat F w), Action.bind_ok (hat G u)]
    exact h b hk w u hwu

theorem integerArgument {k : Nat} (h : ∀ b, bs[k]? = some b → Alike R (F b).value (G b).value) :
    Alike R (Rule.integerArgument (bs.map F) k) (Rule.integerArgument (bs.map G) k) := by
  refine argumentAt bs fun b hb => (h b hb).bind fun v => ?_
  cases v with
  | none => exact refuse _
  | number z =>
    dsimp only
    split
    · exact pure _
    · exact refuse _

theorem numberArguments (h : ∀ b ∈ bs, Alike R (F b).value (G b).value) :
    Alike R (Rule.numberArguments (bs.map F)) (Rule.numberArguments (bs.map G)) := by
  induction bs with
  | nil => exact pure _
  | cons b rest ih =>
    refine (h b (by simp)).expectNumber.bind fun z => ?_
    exact (ih fun b hb => h b (by simp [hb])).bind fun _ => pure _

theorem elementary (m : RealFunctions) (f : Elementary)
    (h : ∀ b ∈ bs, Alike R (F b).value (G b).value) :
    Alike R (Rule.apply m (.elementary f) (bs.map F)) (Rule.apply m (.elementary f) (bs.map G)) := by
  refine (checkCount (by simp) 1).bind fun _ => argumentAt (k := 0) bs fun b hb => ?_
  exact (h b (List.mem_of_getElem? hb)).expectNumber.bind fun _ => (lift _).bind fun _ => pure _

theorem polar (m : RealFunctions) (h : ∀ b ∈ bs, Alike R (F b).value (G b).value) :
    Alike R (Rule.apply m .polar (bs.map F)) (Rule.apply m .polar (bs.map G)) := by
  refine (checkCount (by simp) 2).bind fun _ => (numberArguments h).bind fun zs => ?_
  split
  · exact (lift _).bind fun _ => (lift _).bind fun _ => pure _
  · exact lift _

end Arguments

/-- Calls of `sum` with another count of arguments than four are refused. -/
theorem sum_of_length {args args' : List Argument} (h : args.length = args'.length)
    (hlen : args.length ≠ 4) : Alike R (Rule.sum args) (Rule.sum args') :=
  (checkCount h 4).bind_of_fails fun _ _ _ hok => hlen (checkCount_eq_ok hok).1

theorem sum {l r n b l' r' n' b' : Argument} (hl : Alike R l.value l'.value)
    (hr : Alike R r.value r'.value) (hn : n.name = n'.name)
    (hloop : ∀ x i j, n.name = .ok x →
      Alike R (Rule.scopedLoop x b.value i j) (Rule.scopedLoop x b'.value i j)) :
    Alike R (Rule.sum [l, r, n, b]) (Rule.sum [l', r', n', b']) := by
  let bs := [(l, l'), (r, r'), (n, n'), (b, b')]
  have hlow : Alike R (Rule.integerArgument (bs.map Prod.fst) 0)
      (Rule.integerArgument (bs.map Prod.snd) 0) := integerArgument (k := 0) fun _ hb => by
    cases hb
    exact hl
  have hhigh : Alike R (Rule.integerArgument (bs.map Prod.fst) 1)
      (Rule.integerArgument (bs.map Prod.snd) 1) := integerArgument (k := 1) fun _ hb => by
    cases hb
    exact hr
  unfold Rule.sum
  dsimp only
  refine (checkCount rfl 4).bind fun _ => hlow.bind fun low => hhigh.bind fun high => ?_
  split
  · exact refuse_bind _ _ _
  refine argumentAt (k := 2) bs (F := Prod.fst) (G := Prod.snd) fun _ hb => ?_
  cases hb
  dsimp only
  rw [← hn]
  refine lift_bind fun x hx => ?_
  refine argumentAt (k := 3) bs (F := Prod.fst) (G := Prod.snd) fun _ hb => ?_
  cases hb
  exact hloop x low high hx

end Alike

end ComplexCalc
