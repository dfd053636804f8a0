import ComplexCalc.Proofs.TokenStream
/-!
# More fuel

Fuel bounds the depth of the parser. More of it changes nothing but a failure for want of fuel: the
steps of the parser are compared part by part, each with the same step on more fuel.
-/
namespace ComplexCalc.Parser

variable {α β : Type}

/-- The step `m'` does what `m` does, unless `m` runs out of fuel. -/
def Extends (m' m : ParserM α) : Prop := ∀ p, (m p).1 ≠ .error .tooDeep → m' p = m p

namespace Extends

variable {m m' : ParserM α} {f f' : α → ParserM β}

theorem refl (m : ParserM α) : Extends m m := fun _ _ => rfl

theorem tooDeep (m' : ParserM α) : Extends m' (throw .tooDeep) := fun _ h => absurd rfl h

theorem bind (hm : Extends m' m) (hf : ∀ a, Extends (f' a) (f a)) :
    Extends (m' >>= f') (m >>= f) := by
  intro p h
  rcases hp : m p with ⟨e | a, q⟩
  · rw [Action.bind_error hp] at h ⊢
    have hp' : m' p = (.error e, q) := by rw [hm p (by simpa [hp] using h), hp]
    exact Action.bind_error hp'
  · rw [Action.bind_ok hp] at h ⊢
    have hp' : m' p = (.ok a, q) := by rw [hm p (by rw [hp]; simp), hp]
    rw [Action.bind_ok hp']
    exact hf a q h

theorem traced (signature : Parser → String) (explain : SyntaxError → String)
    (describe : α → String) (hm : Extends m' m) :
    Extends (traced signature explain (fun a => .ok (describe a)) m')
      (traced signature explain (fun a => .ok (describe a)) m) := by
  intro p h
  unfold ComplexCalc.traced at h ⊢
  split
  · rename_i hon
    rw [if_pos hon] at h
    simp only at h ⊢
    rw [hm]
    intro he
    rcases hr : m (Journaled.update (fun j => (j.record (.call (signature p))).deeper) p) with ⟨e | a, q⟩
    · rw [hr] at he h
      exact h he
    · rw [hr] at he
      cases he
  · rename_i hoff
    rw [if_neg hoff] at h
    exact hm p h

end Extends

section Words
variable {m m' : ParserM α} {w : List Token} {x : Reply}

theorem Reads.extend {a : α} (hm : Extends m' m) (h : Reads m w x a) : Reads m' w x a := by
  intro p s hs
  obtain ⟨p', hp, hl⟩ := h p s hs
  exact ⟨p', by rw [hm p (by rw [hp]; simp), hp], hl⟩

theorem Fails.extend {e : SyntaxError} (hm : Extends m' m) (he : e ≠ .tooDeep)
    (h : Fails m w x e) : Fails m' w x e := by
  intro p s hs
  obtain ⟨p', hp, hl⟩ := h p s hs
  exact ⟨p', by rw [hm p (by rw [hp]; simpa using he), hp], hl⟩

end Words

/-! ## Steps of the parser -/

section Steps
variable {nested nested' : Nested Parser}

theorem operand_extends (h : ∀ limit, Extends (nested' limit) (nested limit)) (t : Token) :
    Extends (operand nested' t) (operand nested t) := by
  rcases ht : t.kind <;> simp only [operand, ht]
  case leftParen | minus | pipe => exact (h _).bind fun _ => .refl _
  all_goals exact .refl _

theorem moreArguments_extends (h : ∀ limit, Extends (nested' limit) (nested limit)) {n k : Nat}
    (hk : n ≤ k) : Extends (moreArguments nested' k) (moreArguments nested n) := by
  induction n generalizing k with
  | zero => exact .tooDeep _
  | succ n ih =>
    obtain ⟨k, rfl⟩ : ∃ j, k = j + 1 := ⟨k - 1, by omega⟩
    rw [moreArguments_succ, moreArguments_succ]
    refine (Extends.refl _).bind fun comma => ?_
    cases comma with
    | true => exact (h none).bind fun _ => (ih (by omega)).bind fun _ => .refl _
    | false => exact .refl _

theorem arguments_extends (h : ∀ limit, Extends (nested' limit) (nested limit)) {n k : Nat}
    (hk : n ≤ k) : Extends (arguments nested' k) (arguments nested n) := by
  refine (Extends.refl _).bind fun close => ?_
  cases close with
  | true => exact .refl _
  | false => exact (h none).bind fun _ => (moreArguments_extends h hk).bind fun _ => .refl _

theorem operator_extends (h : ∀ limit, Extends (nested' limit) (nested limit)) {n k : Nat}
    (hk : n ≤ k) (left : Expr) (t : Token) :
    Extends (operator nested' k left t) (operator nested n left t) := by
  rcases ht : t.kind <;> simp only [operator, ht]
  case assign =>
    cases left.name? with
    | some x => exact (h _).bind fun _ => .refl _
    | none => exact .refl _
  case leftParen =>
    cases left.name? with
    | some f => exact (arguments_extends h hk).bind fun _ => .refl _
    | none => exact .refl _
  case plus | minus | asterisk | slash | mod | exponent => exact (h _).bind fun _ => .refl _
  all_goals exact .refl _

theorem operators_extends (h : ∀ limit, Extends (nested' limit) (nested limit)) {n k : Nat}
    (hk : n ≤ k) (limit : Nat) (left : Expr) :
    Extends (operators nested' limit k left) (operators nested limit n left) := by
  induction n generalizing k left with
  | zero => exact .tooDeep _
  | succ n ih =>
    obtain ⟨k, rfl⟩ : ∃ j, k = j + 1 := ⟨k - 1, by omega⟩
    rw [operators_succ, operators_succ]
    refine (Extends.refl _).bind fun precedence => ?_
    split
    · refine (Extends.refl _).bind fun t => ?_
      exact (operator_extends h (by omega) left t).bind fun e => ih (by omega) e
    · exact .refl _

end Steps

/-- An expression is read the same way with more fuel. -/
theorem expression_extends {n k : Nat} (hk : n ≤ k) (limit : Option Nat) :
    Extends (expression k limit) (expression n limit) := by
  induction n generalizing k limit with
  | zero => exact .tooDeep _
  | succ n ih =>
    obtain ⟨k, rfl⟩ : ∃ j, k = j + 1 := ⟨k - 1, by omega⟩
    refine Extends.traced _ _ _ ((Extends.refl _).bind fun t => ?_)
    refine (operand_extends (fun limit => ih (by omega) limit) t).bind fun left => ?_
    exact operators_extends (fun limit => ih (by omega) limit) (by omega) _ left

end ComplexCalc.Parser
