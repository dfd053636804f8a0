import ComplexCalc.Proofs.Fuel
import ComplexCalc.Proofs.Queue
import ComplexCalc.Proofs.Spelling
/-!
# Parsers before the same tokens

Two parsers before tokens of the same kinds and texts do the same: they come to the same expression, or
they fail with the same error at tokens of the same index. Nothing but the places in the errors depends
on where the tokens stand. The steps of the parser are compared one by one, each with the same step of
the other parser.
-/
namespace ComplexCalc

/-- The same error at another place. -/
def SyntaxError.moved (offset : Nat) : SyntaxError → SyntaxError
  | unknownCharacter c _ => .unknownCharacter c offset
  | noExpression text _ => .noExpression text offset
  | expected wanted got _ => .expected wanted got offset
  | target _ => .target offset
  | callee _ => .callee offset
  | literal text cause _ => .literal text cause offset
  | trailing word _ => .trailing word offset
  | tooDeep => .tooDeep

namespace Parser

/-- Streams of tokens that are of the same kinds and texts one by one. -/
def SameStream (S S' : TokenStream) : Prop :=
  ∀ i, ∃ t t', S.get i = .ok t ∧ S'.get i = .ok t' ∧ t'.unplaced = t.unplaced

/-- The tokens of two streams at the same index. -/
def Counterparts (S S' : TokenStream) (t t' : Token) : Prop :=
  ∃ i, S.get i = .ok t ∧ S'.get i = .ok t'

/-- The results of two steps are related, and the parsers are before tokens of the same index again; or
both steps fail with the same error, each at its token of the same index. -/
inductive Alike {α β : Type} (S S' : TokenStream) (R : α → β → Prop) :
    Except SyntaxError α × Parser → Except SyntaxError β × Parser → Prop
  | ok {a : α} {b : β} {q q' : Parser} {n : Nat} : R a b → q.stream = S.drop n →
      q'.stream = S'.drop n → Alike S S' R (.ok a, q) (.ok b, q')
  | error {e : SyntaxError} {t t' : Token} {q q' : Parser} : Counterparts S S' t t' →
      e.offset = t.offset → Alike S S' R (.error e, q) (.error (e.moved t'.offset), q')
  | tooDeep {q q' : Parser} : Alike S S' R (.error .tooDeep, q) (.error .tooDeep, q')

/-- Wherever they begin, as long as it is before tokens of the same index, the steps do the same. -/
def InStep {α β : Type} (S S' : TokenStream) (R : α → β → Prop) (m : ParserM α) (m' : ParserM β) :
    Prop :=
  ∀ n p p', p.stream = S.drop n → p'.stream = S'.drop n → Alike S S' R (m p) (m' p')

section Steps
variable {S S' : TokenStream} {α β γ δ : Type}

theorem Counterparts.same {t t' : Token} (hS : SameStream S S') (h : Counterparts S S' t t') :
    t'.kind = t.kind ∧ t'.text = t.text := by
  obtain ⟨i, hi, hi'⟩ := h
  obtain ⟨u, u', hu, hu', hsame⟩ := hS i
  cases hi.symm.trans hu
  cases hi'.symm.trans hu'
  have hkind : t'.unplaced.kind = t.unplaced.kind := congrArg Token.kind hsame
  have htext : t'.unplaced.text = t.unplaced.text := congrArg Token.text hsame
  exact ⟨hkind, htext⟩

namespace InStep

theorem pure {R : α → β → Prop} {a : α} {b : β} (h : R a b) :
    InStep S S' R (Pure.pure a) (Pure.pure b) :=
  fun _ _ _ hp hp' => .ok h hp hp'

theorem throw {R : α → β → Prop} {t t' : Token} {e : SyntaxError} (h : Counterparts S S' t t')
    (he : e.offset = t.offset) : InStep S S' R (throw e) (throw (e.moved t'.offset)) :=
  fun _ _ _ _ _ => .error h he

theorem tooDeep {R : α → β → Prop} :
    InStep S S' R (MonadExcept.throw SyntaxError.tooDeep) (MonadExcept.throw SyntaxError.tooDeep) :=
  fun _ _ _ _ _ => .tooDeep

theorem bind {R : α → β → Prop} {Q : γ → δ → Prop} {m : ParserM α} {m' : ParserM β}
    {f : α → ParserM γ} {f' : β → ParserM δ} (hm : InStep S S' R m m')
    (hf : ∀ a b, R a b → InStep S S' Q (f a) (f' b)) : InStep S S' Q (m >>= f) (m' >>= f') := by
  intro n p p' hp hp'
  have h := hm n p p' hp hp'
  rcases hr : m p with ⟨e | a, q⟩ <;> rcases hr' : m' p' with ⟨e' | b, q'⟩ <;> rw [hr, hr'] at h
  · rw [Action.bind_error hr, Action.bind_error hr']
    cases h with
    | error ht he => exact .error ht he
    | tooDeep => exact .tooDeep
  · cases h
  · cases h
  · rw [Action.bind_ok hr, Action.bind_ok hr']
    cases h with
    | ok hR hq hq' => exact hf a b hR _ q q' hq hq'

/-- Where the results are the same, so are the steps that go on with them. -/
theorem bind_eq {Q : γ → δ → Prop} {m m' : ParserM α} {f : α → ParserM γ} {f' : α → ParserM δ}
    (hm : InStep S S' Eq m m') (hf : ∀ a, InStep S S' Q (f a) (f' a)) :
    InStep S S' Q (m >>= f) (m' >>= f') :=
  hm.bind fun a _ h => h ▸ hf a

theorem traced {m m' : ParserM α} (signature : Parser → String) (explain : SyntaxError → String)
    (describe : α → String) (h : InStep S S' Eq m m') :
    InStep S S' Eq (traced signature explain (fun a => .ok (describe a)) m)
      (traced signature explain (fun a => .ok (describe a)) m') := by
  intro n p p' hp hp'
  obtain ⟨f, g, htraced⟩ := traced_apply signature explain describe m p
  obtain ⟨f', g', htraced'⟩ := traced_apply signature explain describe m' p'
  have := h n (Journaled.update f p) (Journaled.update f' p') hp hp'
  rw [htraced, htraced']
  rcases hr : m (Journaled.update f p) with ⟨r, q⟩
  rcases hr' : m' (Journaled.update f' p') with ⟨r', q'⟩
  rw [hr, hr'] at this
  cases this with
  | ok hR hq hq' => exact .ok hR hq hq'
  | error ht he => exact .error ht he
  | tooDeep => exact .tooDeep

end InStep

/-! ## Tokens -/

variable (hS : SameStream S S')
include hS

theorem lookAhead_inStep : InStep S S' (Counterparts S S') (lookAhead 0) (lookAhead 0) := by
  intro n p p' hp hp'
  obtain ⟨t, t', ht, ht', -⟩ := hS n
  obtain ⟨q, hq, hl⟩ := lookAhead_zero p
  obtain ⟨q', hq', hl'⟩ := lookAhead_zero p'
  have hhead : p.stream.head = .ok t := by rw [hp, Stream'.head_drop, ht]
  have hhead' : p'.stream.head = .ok t' := by rw [hp', Stream'.head_drop, ht']
  rw [hq, hq', hhead, hhead']
  exact .ok ⟨n, ht, ht'⟩ (hl.1.trans hp) (hl'.1.trans hp')

theorem consume_inStep : InStep S S' (Counterparts S S') consume consume := by
  intro n p p' hp hp'
  obtain ⟨t, t', ht, ht', -⟩ := hS n
  obtain ⟨q, hq, hl⟩ := consume_spec p
  obtain ⟨q', hq', hl'⟩ := consume_spec p'
  have hhead : p.stream.head = .ok t := by rw [hp, Stream'.head_drop, ht]
  have hhead' : p'.stream.head = .ok t' := by rw [hp', Stream'.head_drop, ht']
  rw [behind_of_ok hhead, hp, Stream'.tail_drop'] at hl
  rw [behind_of_ok hhead', hp', Stream'.tail_drop'] at hl'
  rw [hq, hq', hhead, hhead']
  exact .ok ⟨n, ht, ht'⟩ hl.1 hl'.1

theorem expect_inStep (kind : TokenKind) :
    InStep S S' (Counterparts S S') (expect kind) (expect kind) := by
  refine (consume_inStep hS).bind fun t t' ht => ?_
  obtain ⟨hkind, -⟩ := ht.same hS
  by_cases hk : t.kind = kind
  · rw [if_pos hk, if_pos (hkind.trans hk)]
    exact .pure ht
  · rw [if_neg hk, if_neg (by rwa [hkind]), hkind]
    exact .throw ht rfl

theorem accept_inStep (kind : TokenKind) : InStep S S' Eq (accept kind) (accept kind) := by
  refine (lookAhead_inStep hS).bind fun t t' ht => ?_
  obtain ⟨hkind, -⟩ := ht.same hS
  by_cases hk : t.kind = kind
  · rw [if_pos hk, if_pos (hkind.trans hk)]
    exact (consume_inStep hS).bind fun _ _ _ => .pure rfl
  · rw [if_neg hk, if_neg (by rwa [hkind])]
    exact .pure rfl

theorem currentPrecedence_inStep : InStep S S' Eq currentPrecedence currentPrecedence :=
  (lookAhead_inStep hS).bind fun _ _ ht => .pure (by rw [(ht.same hS).1])

/-! ## Expressions -/

section Nested
variable {nested : Nested Parser} (hn : ∀ limit, InStep S S' Eq (nested limit) (nested limit))
include hn

theorem operand_inStep {t t' : Token} (ht : Counterparts S S' t t') :
    InStep S S' Eq (operand nested t) (operand nested t') := by
  obtain ⟨hkind, htext⟩ := ht.same hS
  rcases hk : t.kind <;> simp only [operand, hkind, htext, hk]
  case leftParen | pipe =>
    exact (hn none).bind_eq fun _ => (expect_inStep hS _).bind fun _ _ _ => .pure rfl
  case minus => exact (hn _).bind_eq fun _ => .pure rfl
  case literal =>
    rcases Literal.read t.text with cause | z
    · exact .throw ht rfl
    · exact .pure rfl
  case identifier => exact .pure rfl
  all_goals exact .throw ht rfl

theorem moreArguments_inStep (fuel : Nat) :
    InStep S S' Eq (moreArguments nested fuel) (moreArguments nested fuel) := by
  induction fuel with
  | zero => exact .tooDeep
  | succ fuel ih =>
    rw [moreArguments_succ]
    refine (accept_inStep hS _).bind_eq fun comma => ?_
    cases comma with
    | false => exact .pure rfl
    | true => exact (hn none).bind_eq fun _ => ih.bind_eq fun _ => .pure rfl

theorem arguments_inStep (fuel : Nat) :
    InStep S S' Eq (arguments nested fuel) (arguments nested fuel) := by
  refine (accept_inStep hS _).bind_eq fun close => ?_
  cases close with
  | true => exact .pure rfl
  | false =>
    refine (hn none).bind_eq fun _ => (moreArguments_inStep hS hn fuel).bind_eq fun _ => ?_
    exact (expect_inStep hS _).bind fun _ _ _ => .pure rfl

theorem operator_inStep (fuel : Nat) (left : Expr) {t t' : Token} (ht : Counterparts S S' t t') :
    InStep S S' Eq (operator nested fuel left t) (operator nested fuel left t') := by
  obtain ⟨hkind, htext⟩ := ht.same hS
  rcases hk : t.kind <;> simp only [operator, hkind, htext, hk]
  case plus | minus | asterisk | slash | mod | exponent =>
    exact (hn _).bind_eq fun _ => .pure rfl
  case exclamation => exact .pure rfl
  case assign =>
    cases left.name? with
    | none => exact .throw ht rfl
    | some x => exact (hn _).bind_eq fun _ => .pure rfl
  case leftParen =>
    cases left.name? with
    | none => exact .throw ht rfl
    | some f => exact (arguments_inStep hS hn fuel).bind_eq fun _ => .pure rfl
  all_goals exact .throw ht rfl

theorem operators_inStep (limit fuel : Nat) (left : Expr) :
    InStep S S' Eq (operators nested limit fuel left) (operators nested limit fuel left) := by
  induction fuel generalizing left with
  | zero => exact .tooDeep
  | succ fuel ih =>
    rw [operators_succ]
    refine (currentPrecedence_inStep hS).bind_eq fun precedence => ?_
    split
    · refine (consume_inStep hS).bind fun t t' ht => ?_
      exact (operator_inStep hS hn fuel left ht).bind_eq ih
    · exact .pure rfl

end Nested

/-- Reading an expression does not depend on the places of the tokens. -/
theorem expression_inStep (fuel : Nat) (limit : Option Nat) :
    InStep S S' Eq (expression fuel limit) (expression fuel limit) := by
  induction fuel generalizing limit with
  | zero => exact .tooDeep
  | succ fuel ih =>
    refine InStep.traced _ _ _ ((consume_inStep hS).bind fun t t' ht => ?_)
    refine (operand_inStep hS ih ht).bind_eq fun left => ?_
    exact operators_inStep hS ih _ fuel left

end Steps
end Parser
end ComplexCalc
