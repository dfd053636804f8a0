import ComplexCalc.Proofs.Evaluation
/-!
# What the parts hand on to the whole

Parsing is put together from looking at the next token and taking it, and a rule of evaluation from the
evaluations of its parts, from assignments and sums in scopes of their own, and from steps that change
nothing that can be named. A property that is kept wherever steps are put together holds of all parsing,
and of a rule if it holds of these, each in the state in which the rule begins it.
-/
namespace ComplexCalc

/-! ## Parsing -/

namespace Parser

section Related
variable {σ τ : Type} [Journaled σ] [ParserState σ] [Journaled τ] [ParserState τ]

/-- The relation between steps on two states holds of looking at the next token and of taking it, and is
kept when steps of parsing are put together and by the calls of `expression`, which begin with taking a
token and come to nothing if it is the end of the text. -/
structure Related (R : (α : Type) → Action σ SyntaxError α → Action τ SyntaxError α → Prop) :
    Prop where
  look : R Token (lookAhead 0) (lookAhead 0)
  consume : R Token consume consume
  pure : ∀ {α : Type} (a : α), R α (pure a) (pure a)
  throw : ∀ {α : Type} (e : SyntaxError), R α (throw e) (throw e)
  bind : ∀ {α β : Type} {m : Action σ SyntaxError α} {m' : Action τ SyntaxError α}
    {f : α → Action σ SyntaxError β} {f' : α → Action τ SyntaxError β},
    R α m m' → (∀ a, R β (f a) (f' a)) → R β (m >>= f) (m' >>= f')
  call : ∀ {f : Token → Action σ SyntaxError Expr} {f' : Token → Action τ SyntaxError Expr}
    (limit : Option Nat), (∀ t, R Expr (f t) (f' t)) →
    (∀ t, t.kind = .eof → ∃ e, f t = MonadExcept.throw e) →
    R Expr (traced (callText limit ∘ ParserState.parser) SyntaxError.message (fun e => .ok e.debugText)
        (Parser.consume >>= f))
      (traced (callText limit ∘ ParserState.parser) SyntaxError.message (fun e => .ok e.debugText)
        (Parser.consume >>= f'))

namespace Related

variable {R : (α : Type) → Action σ SyntaxError α → Action τ SyntaxError α → Prop} (hR : Related R)
include hR

theorem accept (kind : TokenKind) : R Bool (accept kind) (accept kind) := by
  refine hR.bind hR.look fun t => ?_
  split
  · exact hR.bind hR.consume fun _ => hR.pure _
  · exact hR.pure _

theorem expect (kind : TokenKind) : R Token (expect kind) (expect kind) := by
  refine hR.bind hR.consume fun t => ?_
  split
  · exact hR.pure _
  · exact hR.throw _

theorem currentPrecedence : R Nat currentPrecedence currentPrecedence :=
  hR.bind hR.look fun _ => hR.pure _

section Nested
variable {nested : Nested σ} {nested' : Nested τ} (h : ∀ limit, R Expr (nested limit) (nested' limit))
include h

theorem operand (t : Token) : R Expr (operand nested t) (operand nested' t) := by
  rcases ht : t.kind <;> simp only [Parser.operand, ht]
  case leftParen | pipe => exact hR.bind (h _) fun _ => hR.bind (hR.expect _) fun _ => hR.pure _
  case minus => exact hR.bind (h _) fun _ => hR.pure _
  case literal =>
    split
    · exact hR.pure _
    · exact hR.throw _
  case identifier => exact hR.pure _
  all_goals exact hR.throw _

theorem argumentRound : R (Option Expr) (argumentRound nested) (argumentRound nested') := by
  refine hR.bind (hR.accept _) fun comma => ?_
  split
  · exact hR.bind (h _) fun _ => hR.pure _
  · exact hR.pure _

theorem moreArguments (fuel : Nat) :
    R (List Expr) (moreArguments nested fuel) (moreArguments nested' fuel) := by
  induction fuel with
  | zero => exact hR.throw _
  | succ fuel ih =>
    refine hR.bind (hR.argumentRound h) fun next => ?_
    cases next with
    | some e => exact hR.bind ih fun _ => hR.pure _
    | none => exact hR.pure _

theorem arguments (fuel : Nat) : R (List Expr) (arguments nested fuel) (arguments nested' fuel) := by
  refine hR.bind (hR.accept _) fun close => ?_
  split
  · exact hR.pure _
  · exact hR.bind (h _) fun _ => hR.bind (hR.moreArguments h fuel) fun _ =>
      hR.bind (hR.expect _) fun _ => hR.pure _

theorem operator (fuel : Nat) (left : Expr) (t : Token) :
    R Expr (operator nested fuel left t) (operator nested' fuel left t) := by
  rcases ht : t.kind <;> simp only [Parser.operator, ht]
  case plus | minus | asterisk | slash | mod | exponent => exact hR.bind (h _) fun _ => hR.pure _
  case exclamation => exact hR.pure _
  case assign =>
    split
    · exact hR.bind (h _) fun _ => hR.pure _
    · exact hR.throw _
  case leftParen =>
    split
    · exact hR.bind (hR.arguments h fuel) fun _ => hR.pure _
    · exact hR.throw _
  all_goals exact hR.throw _

theorem operatorRound (limit fuel : Nat) (left : Expr) :
    R (Option Expr) (operatorRound nested limit fuel left) (operatorRound nested' limit fuel left) := by
  refine hR.bind hR.currentPrecedence fun _ => ?_
  split
  · exact hR.bind hR.consume fun t => hR.bind (hR.operator h fuel left t) fun _ => hR.pure _
  · exact hR.pure _

theorem operators (limit fuel : Nat) (left : Expr) :
    R Expr (operators nested limit fuel left) (operators nested' limit fuel left) := by
  induction fuel generalizing left with
  | zero => exact hR.throw _
  | succ fuel ih =>
    refine hR.bind (hR.operatorRound h limit fuel left) fun next => ?_
    cases next with
    | some e => exact ih e
    | none => exact hR.pure _

end Nested

theorem expression (fuel : Nat) (limit : Option Nat) :
    R Expr (expression fuel limit) (expression fuel limit) := by
  induction fuel generalizing limit with
  | zero => exact hR.throw _
  | succ fuel ih =>
    refine hR.call limit (fun t => ?_) fun t ht => ?_
    · exact hR.bind (hR.operand ih t) fun left => hR.operators ih _ fuel left
    · exact ⟨.noExpression t.text t.offset, by simp only [Parser.operand, ht]; rfl⟩

end Related
end Related

section Assembled
variable {σ : Type} [Journaled σ] [ParserState σ]

/-- The property holds of looking at the next token and of taking it, and is kept when steps of parsing
are put together and by the calls of `expression`, which begin with taking a token and come to nothing if
it is the end of the text. -/
structure Assembled (P : (α : Type) → Action σ SyntaxError α → Prop) : Prop where
  look : P Token (lookAhead 0)
  consume : P Token consume
  pure : ∀ {α : Type} (a : α), P α (pure a)
  throw : ∀ {α : Type} (e : SyntaxError), P α (throw e)
  bind : ∀ {α β : Type} {m : Action σ SyntaxError α} {f : α → Action σ SyntaxError β}, P α m →
    (∀ a, P β (f a)) → P β (m >>= f)
  call : ∀ {f : Token → Action σ SyntaxError Expr} (limit : Option Nat), (∀ t, P Expr (f t)) →
    (∀ t, t.kind = .eof → ∃ e, f t = MonadExcept.throw e) →
    P Expr (traced (callText limit ∘ ParserState.parser) SyntaxError.message (fun e => .ok e.debugText)
      (Parser.consume >>= f))

namespace Assembled

variable {P : (α : Type) → Action σ SyntaxError α → Prop} (hP : Assembled P)
include hP

/-- A property of steps relates each step that has it to itself. -/
theorem related : Related fun α (m m' : Action σ SyntaxError α) => m = m' ∧ P α m where
  look := ⟨rfl, hP.look⟩
  consume := ⟨rfl, hP.consume⟩
  pure a := ⟨rfl, hP.pure a⟩
  throw e := ⟨rfl, hP.throw e⟩
  bind := by
    rintro α β m _ f f' ⟨rfl, hm⟩ hf
    obtain rfl : f = f' := funext fun a => (hf a).1
    exact ⟨rfl, hP.bind hm fun a => (hf a).2⟩
  call := by
    intro f f' limit hf heof
    obtain rfl : f = f' := funext fun t => (hf t).1
    exact ⟨rfl, hP.call limit (fun t => (hf t).2) heof⟩

theorem accept (kind : TokenKind) : P Bool (accept kind) := (hP.related.accept kind).2

theorem expect (kind : TokenKind) : P Token (expect kind) := (hP.related.expect kind).2

theorem currentPrecedence : P Nat currentPrecedence := hP.related.currentPrecedence.2

theorem operator {nested : Nested σ} (h : ∀ limit, P Expr (nested limit)) (fuel : Nat) (left : Expr)
    (t : Token) : P Expr (operator nested fuel left t) :=
  (hP.related.operator (fun limit => ⟨rfl, h limit⟩) fuel left t).2

theorem expression (fuel : Nat) (limit : Option Nat) : P Expr (expression fuel limit) :=
  (hP.related.expression fuel limit).2

end Assembled
end Assembled

section Closed
variable {σ : Type} [Journaled σ] [ParserState σ]

/-- The property holds of looking at the next token and of taking it, and is kept when steps of parsing
are put together and when they are traced. -/
structure Closed (P : (α : Type) → Action σ SyntaxError α → Prop) : Prop where
  look : P Token (lookAhead 0)
  consume : P Token consume
  pure : ∀ {α : Type} (a : α), P α (pure a)
  throw : ∀ {α : Type} (e : SyntaxError), P α (throw e)
  bind : ∀ {α β : Type} {m : Action σ SyntaxError α} {f : α → Action σ SyntaxError β}, P α m →
    (∀ a, P β (f a)) → P β (m >>= f)
  traced : ∀ {α : Type} {m : Action σ SyntaxError α} (signature : σ → String)
    (explain : SyntaxError → String) (describe : α → String), P α m →
      P α (traced signature explain (fun a => .ok (describe a)) m)

namespace Closed

variable {P : (α : Type) → Action σ SyntaxError α → Prop} (hP : Closed P)
include hP

theorem assembled : Assembled P where
  look := hP.look
  consume := hP.consume
  pure := hP.pure
  throw := hP.throw
  bind := hP.bind
  call _ hf _ := hP.traced _ _ _ (hP.bind hP.consume hf)

theorem expression (fuel : Nat) (limit : Option Nat) : P Expr (expression fuel limit) :=
  hP.assembled.expression fuel limit

end Closed
end Closed
end Parser

/-! ## Steps of evaluation -/

/-- The step neither reads the journal nor writes to it. -/
def Oblivious {σ ε α : Type} [Journaled σ] (m : Action σ ε α) : Prop :=
  ∀ s j, m (Journaled.withJournal s j) = ((m s).1, Journaled.withJournal (m s).2 j)

namespace Oblivious

variable {σ ε α β : Type} [Journaled σ] {m : Action σ ε α}

theorem pure (a : α) : Oblivious (pure a : Action σ ε α) := fun _ _ => rfl

theorem bind {f : α → Action σ ε β} (hm : Oblivious m) (hf : ∀ a, Oblivious (f a)) :
    Oblivious (m >>= f) := by
  intro s j
  have h := hm s j
  rcases hr : m s with ⟨e | a, t⟩ <;> rw [hr] at h
  · rw [Action.bind_error h, Action.bind_error hr]
  · rw [Action.bind_ok h, Action.bind_ok hr, hf a t j]

end Oblivious

namespace EvalM

variable {α β : Type}

theorem oblivious_lift (r : Except Failure α) : Oblivious (lift r) := fun _ _ => rfl

theorem oblivious_define (v : Variable) : Oblivious (define v) := by
  refine Oblivious.bind (fun _ _ => rfl) fun id => Oblivious.bind (fun _ _ => rfl) fun found => ?_
  split
  · split
    · exact oblivious_lift _
    · exact fun _ _ => rfl
  · exact fun _ _ => rfl

theorem oblivious_assign (x : String) (a : Value) : Oblivious (assign x a) := by
  refine Oblivious.bind (fun _ _ => rfl) fun found => ?_
  split
  · exact oblivious_define _
  · split
    · exact oblivious_lift _
    · exact fun _ _ => rfl

/-- The step leaves the journal, the variables, the names and the functions alone. -/
structure Inert (m : EvalM α) : Prop where
  oblivious : Oblivious m
  memory : ∀ w, (m w).2.memory = w.memory
  scope : ∀ w, (m w).2.table.scope = w.table.scope
  functions : ∀ w, (m w).2.table.functions = w.table.functions

namespace Inert

/-- A step that leaves everything as it is, whatever the journal. -/
theorem of_same {m : EvalM α} (hm : Oblivious m) (h : ∀ w, (m w).2 = w) : Inert m :=
  ⟨hm, fun w => by rw [h], fun w => by rw [h], fun w => by rw [h]⟩

theorem lift (r : Except Failure α) : Inert (EvalM.lift r) := of_same (oblivious_lift r) fun _ => rfl

theorem draw (f : RandomSource → α × RandomSource) : Inert (EvalM.draw f) :=
  ⟨fun _ _ => rfl, fun _ => rfl, fun _ => rfl, fun _ => rfl⟩

theorem copy : Inert EvalM.copy := ⟨fun _ _ => rfl, fun _ => rfl, fun _ => rfl, fun _ => rfl⟩

theorem table : Inert EvalM.table := of_same (fun _ _ => rfl) fun _ => rfl

theorem find? (x : String) : Inert (EvalM.find? x) := of_same (fun _ _ => rfl) fun _ => rfl

theorem findFunction? (f : String) : Inert (EvalM.findFunction? f) :=
  of_same (fun _ _ => rfl) fun _ => rfl

theorem checkCount (args : List Argument) (n : Nat) : Inert (Rule.checkCount args n) := by
  unfold Rule.checkCount
  split
  · exact .lift _
  · split
    · exact .lift _
    · exact .lift (.ok ())

theorem argumentAt (args : List Argument) (index : Int) : Inert (Rule.argumentAt args index) := by
  unfold Rule.argumentAt
  split
  · exact .lift _
  · generalize (if index < 0 then index + args.length else index) = k
    dsimp only
    split
    · exact .lift _
    · cases args[k.toNat]? with
      | some a => exact .lift (.ok a)
      | none => exact .lift _

end Inert

/-- The loop of a sum, in a scope in which its variable is a new one. -/
def loopIn (scope : Table) (x : String) (body : EvalM Value) (count : Nat) (low : Int) :
    EvalM Value :=
  inTable scope do
    define ⟨x, .number (.ofInt low), false⟩
    return .number (← Rule.sumLoop x body count low .zero)

/-! ## Rules of evaluation -/

/-- The property holds of all steps that are inert, and is kept when steps are put together, each in the
state that the one before has left. -/
structure Composes (P : (α : Type) → EvalM α → Workspace → Prop) : Prop where
  inert : ∀ {α : Type} {m : EvalM α} {w : Workspace}, Inert m → P α m w
  bind : ∀ {α β : Type} {m : EvalM α} {f : α → EvalM β} {w : Workspace}, P α m w →
    (∀ a w', m w = (.ok a, w') → P β (f a) w') → P β (m >>= f) w

namespace Composes

variable {P : (α : Type) → EvalM α → Workspace → Prop} (hP : Composes P)
variable {w : Workspace} {part : EvalM Value} {args : List Argument}
include hP

theorem lift (r : Except Failure α) : P α (lift r) w := hP.inert (.lift r)

theorem pure (a : α) : P α (pure a) w := hP.lift (.ok a)

/-- What comes after a refusal does not matter. -/
theorem refuse_bind (e : EvalError) (f : α → EvalM β) : P β (refuse e >>= f) w :=
  hP.bind (hP.lift _) fun _ _ h => by cases h

/-- A step whose result is put into another one. -/
theorem map {m : EvalM α} (h : P α m w) (g : α → β) : P β (m >>= fun a => Pure.pure (g a)) w :=
  hP.bind h fun _ _ _ => hP.pure _

theorem expectNumber (h : P Value part w) : P Number (Rule.expectNumber part) w :=
  hP.bind h fun _ _ _ => hP.lift _

theorem expectInteger (h : P Value part w) : P Int (Rule.expectInteger part) w :=
  hP.bind h fun _ _ _ => hP.lift _

/-- After the count of the arguments has been checked it is known. -/
theorem checkCount {n : Nat} {f : Unit → EvalM β} (h : args.length = n → P β (f ()) w) :
    P β (Rule.checkCount args n >>= f) w := by
  refine hP.bind (hP.inert (.checkCount args n)) fun _ w' hcount => ?_
  obtain ⟨hlen, rfl⟩ := checkCount_eq_ok hcount
  exact h hlen

/-- What goes on with an argument goes on with the one at the index. -/
theorem argumentAt {k : Nat} {f : Argument → EvalM β}
    (h : ∀ a, args[k]? = some a → P β (f a) w) : P β (Rule.argumentAt args k >>= f) w := by
  refine hP.bind (hP.inert (.argumentAt args k)) fun a w' hat => ?_
  obtain ⟨ha, rfl⟩ := argumentAt_eq_ok hat
  exact h a ha

theorem integerArgument {k : Nat} (h : ∀ a, args[k]? = some a → P Value a.value w) :
    P Int (Rule.integerArgument args k) w := by
  refine hP.argumentAt fun a ha => hP.bind (h a ha) fun v _ _ => ?_
  cases v with
  | none => exact hP.lift _
  | number z =>
    dsimp only
    split
    · exact hP.pure _
    · exact hP.lift _

theorem numberArguments (h : ∀ (k : Nat) (a : Argument) zs w', args[k]? = some a →
      Rule.numberArguments (args.take k) w = (.ok zs, w') → P Value a.value w') :
    P (List Number) (Rule.numberArguments args) w := by
  induction args generalizing w with
  | nil => exact hP.pure _
  | cons a rest ih =>
    refine hP.bind (hP.expectNumber (h 0 a [] w rfl rfl)) fun z w₁ hz => ?_
    refine hP.map (ih fun k b zs w' hb hzs => h (k + 1) b (z :: zs) w' hb ?_) _
    rw [List.take_succ_cons, Rule.numberArguments, Action.bind_ok hz, Action.bind_ok hzs]
    rfl

theorem sumLoop {x : String} {body : EvalM Value} {count : Nat} {i : Int} {total : Number}
    (hassign : ∀ a w', P Unit (assign x a) w')
    (h : ∀ w', Iterates x body count i w w' → P Value body w') :
    P Number (Rule.sumLoop x body count i total) w := by
  induction count generalizing w i total with
  | zero => exact hP.pure _
  | succ count ih =>
    refine hP.bind (hassign _ w) fun _ w₁ ha => ?_
    refine hP.bind (hP.expectNumber (h w₁ (.here ha))) fun z w₂ hz => ?_
    exact ih fun w' hw => h w' (.later ha hz hw)

theorem randomInteger (h₀ : ∀ a, args.length ≤ 2 → args[0]? = some a → P Value a.value w)
    (h₁ : ∀ a low w', args.length ≤ 2 → args[1]? = some a →
      Rule.integerArgument args 0 w = (.ok low, w') → P Value a.value w') :
    P Value (Rule.randomInteger args) w := by
  have hbetween : ∀ (b : Int × Int) w', P Value (if b.2 ≤ b.1 then do
        refuse (.emptyRange b.1 b.2)
        let n ← EvalM.draw fun r => r.integer b.1 b.2
        return Value.number (.ofInt n)
      else do
        let n ← EvalM.draw fun r => r.integer b.1 b.2
        return Value.number (.ofInt n)) w' := by
    intro b w'
    split
    · exact hP.refuse_bind _ _
    · exact hP.map (hP.inert (.draw _)) _
  unfold Rule.randomInteger
  dsimp only
  split
  · exact hP.refuse_bind _ _
  refine hP.bind (hP.integerArgument (k := 0) fun a => h₀ a (by omega)) fun first w₁ hfirst => ?_
  split
  · refine hP.bind (hP.integerArgument (k := 1) fun a ha => h₁ a first w₁ (by omega) ha hfirst) ?_
    exact fun high w₂ _ => hP.bind (hP.pure _) fun b w₃ _ => hbetween b w₃
  split
  · exact hP.bind (hP.pure _) fun b w₂ _ => hbetween b w₂
  split
  · exact hP.refuse_bind _ _
  · exact hP.bind (hP.pure _) fun b w₂ _ => hbetween b w₂

theorem sum (h₀ : ∀ a, args.length = 4 → args[0]? = some a → P Value a.value w)
    (h₁ : ∀ a low w', args.length = 4 → args[1]? = some a →
      Rule.integerArgument args 0 w = (.ok low, w') → P Value a.value w')
    (hloop : ∀ v b x low high scope w₁ w₂ w₃, args.length = 4 → args[2]? = some v →
      v.name = .ok x → args[3]? = some b → Rule.integerArgument args 0 w = (.ok low, w₁) →
      Rule.integerArgument args 1 w₁ = (.ok high, w₂) → low ≤ high → copy w₂ = (.ok scope, w₃) →
      P Value (loopIn scope x b.value (high - low).toNat low) w₃) :
    P Value (Rule.sum args) w := by
  unfold Rule.sum
  dsimp only
  refine hP.checkCount fun hlen => ?_
  refine hP.bind (hP.integerArgument (k := 0) fun a => h₀ a hlen) fun low w₁ hlow => ?_
  refine hP.bind (hP.integerArgument (k := 1) fun a ha => h₁ a low w₁ hlen ha hlow) ?_
  intro high w₂ hhigh
  split
  · exact hP.refuse_bind _ _
  refine hP.argumentAt (k := 2) fun v hv => hP.bind (hP.lift v.name) fun x w hname => ?_
  obtain ⟨hx, rfl⟩ := Prod.mk.inj hname
  refine hP.argumentAt (k := 3) fun b hb => hP.bind (hP.inert .copy) fun scope w₃ hcopy => ?_
  exact hloop v b x low high scope w₁ w₂ w₃ hlen hv hx hb hlow hhigh (by omega) hcopy

theorem apply {m : RealFunctions} {c : Callable}
    (hargs : ∀ (k : Nat) (a : Argument) zs w', c.arity? = some args.length → args[k]? = some a →
      Rule.numberArguments (args.take k) w = (.ok zs, w') → P Value a.value w')
    (h₀ : ∀ a, c.takesBounds args.length → args[0]? = some a → P Value a.value w)
    (h₁ : ∀ a low w', c.takesBounds args.length → args[1]? = some a →
      Rule.integerArgument args 0 w = (.ok low, w') → P Value a.value w')
    (hloop : ∀ v b x low high scope w₁ w₂ w₃, c = .sum → args.length = 4 → args[2]? = some v →
      v.name = .ok x → args[3]? = some b → Rule.integerArgument args 0 w = (.ok low, w₁) →
      Rule.integerArgument args 1 w₁ = (.ok high, w₂) → low ≤ high → copy w₂ = (.ok scope, w₃) →
      P Value (loopIn scope x b.value (high - low).toNat low) w₃) :
    P Value (Rule.apply m c args) w := by
  cases c with
  | elementary g =>
    refine hP.checkCount fun hlen => hP.argumentAt (k := 0) fun a ha => ?_
    refine hP.bind (hP.expectNumber (hargs 0 a [] w (by rw [hlen]; rfl) ha rfl)) fun z _ _ => ?_
    exact hP.map (hP.lift _) _
  | polar =>
    refine hP.checkCount fun hlen => ?_
    refine hP.bind (hP.numberArguments fun k a zs w' => hargs k a zs w' (by rw [hlen]; rfl)) ?_
    intro zs w' _
    split
    · exact hP.bind (hP.lift _) fun _ _ _ => hP.map (hP.lift _) _
    · exact hP.lift _
  | random => exact hP.checkCount fun _ => hP.map (hP.inert (.draw _)) _
  | randomInteger => exact hP.randomInteger h₀ h₁
  | sum =>
    exact hP.sum h₀ h₁ fun v b x low high scope w₁ w₂ w₃ =>
      hloop v b x low high scope w₁ w₂ w₃ rfl
  | native arity f builtin =>
    refine hP.checkCount fun hlen => ?_
    refine hP.bind (hP.numberArguments fun k a zs w' => hargs k a zs w' (by rw [hlen]; rfl)) ?_
    exact fun _ _ _ => hP.lift _
  | unary f builtin =>
    refine hP.checkCount fun hlen => hP.argumentAt (k := 0) fun a ha => ?_
    refine hP.bind (hargs 0 a [] w (by rw [hlen]; rfl) ha rfl) fun v _ _ => ?_
    exact hP.bind (hP.inert .table) fun _ _ _ => hP.lift _

variable {s : Settings}

theorem call {f : String} {args : List Expr}
    (h : ∀ e' w', Starts s (.call f args) w [] e' w' → P Value (e'.eval s) w')
    (hloop : ∀ x body count low scope w₂ w₃, copy w₂ = (.ok scope, w₃) →
      (∀ w₄ w', define ⟨x, .number (.ofInt low), false⟩ { w₃ with table := scope } = (.ok (), w₄) →
        Iterates x (body.eval s) count low w₄ w' → Starts s (.call f args) w [x] body w') →
      P Value (loopIn scope x (body.eval s) count low) w₃) :
    P Value (Rule.call s.math f (args.map (Expr.argument s))) w := by
  refine hP.bind (hP.inert (.findFunction? f)) fun c w₀ hc => ?_
  rw [findFunction?_apply] at hc
  obtain ⟨hfun, rfl⟩ := Prod.mk.inj hc
  cases c with
  | none => exact hP.lift _
  | some c =>
    have hf := Except.ok.inj hfun
    refine hP.apply ?_ ?_ ?_ ?_
    · intro k a zs w' hlen ha hzs
      obtain ⟨e, he, rfl⟩ := Expr.of_getElem?_arguments ha
      rw [List.length_map] at hlen
      exact h _ _ (.argument hf hlen he hzs)
    · intro a hlen ha
      obtain ⟨e, he, rfl⟩ := Expr.of_getElem?_arguments ha
      rw [List.length_map] at hlen
      exact h _ _ (.firstBound hf hlen he)
    · intro a low w' hlen ha hlow
      obtain ⟨e, he, rfl⟩ := Expr.of_getElem?_arguments ha
      rw [List.length_map] at hlen
      exact h _ _ (.secondBound hf hlen he hlow)
    · rintro v b x low high scope w₁ w₂ w₃ rfl hlen hv hx hb hlow hhigh hle hcopy
      obtain ⟨n, hn, rfl⟩ := Expr.of_getElem?_arguments hv
      obtain ⟨body, hbody, rfl⟩ := Expr.of_getElem?_arguments hb
      rw [List.length_map] at hlen
      obtain ⟨l, r, rfl⟩ := exists_eq_of_sum hlen hn hx hbody
      exact hloop _ _ _ _ _ _ _ hcopy fun _ _ hd hit => .body hf hlow hhigh hle hcopy hd hit

/-- What holds of the parts, the assignments and the loops of a rule, each where the rule begins it,
holds of the rule. -/
theorem rule {e : Expr} (h : ∀ e' w', Starts s e w [] e' w' → P Value (e'.eval s) w')
    (hassign : ∀ x v a w', e = .assign x v → v.eval s w = (.ok a, w') → P Unit (assign x a) w')
    (hloop : ∀ x body count low scope w₂ w₃, copy w₂ = (.ok scope, w₃) →
      (∀ w₄ w', define ⟨x, .number (.ofInt low), false⟩ { w₃ with table := scope } = (.ok (), w₄) →
        Iterates x (body.eval s) count low w₄ w' → Starts s e w [x] body w') →
      P Value (loopIn scope x (body.eval s) count low) w₃) :
    P Value (e.rule s) w := by
  cases e with
  | num z => exact hP.pure _
  | name x =>
    refine hP.bind (hP.inert (.find? x)) fun found _ _ => ?_
    split
    · exact hP.pure _
    · exact hP.lift _
  | assign x v =>
    exact hP.bind (h _ _ .assigned) fun a w' ha => hP.map (hassign x v a w' rfl ha) _
  | unary op a =>
    have ha := h _ _ .operand
    cases op with
    | neg | abs => exact hP.map (hP.expectNumber ha) _
    | fact =>
      refine hP.bind (hP.expectInteger ha) fun n _ _ => ?_
      split
      · exact hP.lift _
      · exact hP.pure _
  | binary op l r =>
    have hl := h _ _ .left
    have hops : op ≠ .mod → P (Number × Number) (Rule.operands (l.eval s) (r.eval s)) w := by
      refine fun hop => hP.bind (hP.expectNumber hl) fun z w' hz => ?_
      exact hP.map (hP.expectNumber (h _ _ (.right hop hz))) _
    cases op with
    | add | sub | mul | pow => exact hP.map (hops (by decide)) _
    | div => exact hP.bind (hops (by decide)) fun _ _ _ => hP.map (hP.lift _) _
    | mod =>
      refine hP.bind (hP.expectInteger hl) fun n w' hn => ?_
      refine hP.bind (hP.expectInteger (h _ _ (.divisor hn))) fun _ _ _ => ?_
      exact hP.map (hP.lift _) _
  | call f args => exact hP.call h hloop

end Composes

/-! ## Evaluations -/

/-- The property holds of all steps that leave the journal alone, and is kept when steps are put
together and when they run in another table. -/
structure Closed (P : (α : Type) → EvalM α → Workspace → Prop) : Prop where
  oblivious : ∀ {α : Type} {m : EvalM α} {w : Workspace}, Oblivious m → P α m w
  bind : ∀ {α β : Type} {m : EvalM α} {f : α → EvalM β} {w : Workspace}, P α m w →
    (∀ a w', m w = (.ok a, w') → P β (f a) w') → P β (m >>= f) w
  inTable : ∀ {α : Type} {m : EvalM α} {t : Table} {w : Workspace}, P α m { w with table := t } →
    P α (inTable t m) w

namespace Closed

variable {P : (α : Type) → EvalM α → Workspace → Prop} (hP : Closed P) {s : Settings}
include hP

theorem composes : Composes P := ⟨fun hm => hP.oblivious hm.oblivious, hP.bind⟩

/-- What holds of the parts where the rule begins them holds of the rule. -/
theorem rule {e : Expr} {w : Workspace}
    (h : ∀ loops e' w', Starts s e w loops e' w' → P Value (e'.eval s) w') :
    P Value (e.rule s) w := by
  refine hP.composes.rule (h []) (fun x _ a _ _ _ => hP.oblivious (oblivious_assign x a)) ?_
  intro x body count low scope w₂ w₃ hcopy hstart
  refine hP.inTable (hP.bind (hP.oblivious (oblivious_define _)) fun _ w₄ hd => ?_)
  refine hP.composes.map (hP.composes.sumLoop (fun a _ => hP.oblivious (oblivious_assign x a)) ?_) _
  exact fun w' hit => h _ _ _ (hstart w₄ w' hd hit)

/-- What passes from the rule to the visit wherever an evaluation comes holds of the evaluation. -/
theorem eval {e : Expr} {w : Workspace} (h : ∀ loops e' w', Visits s e w loops e' w' →
      P Value (e'.rule s) (e'.enter w') → P Value (e'.eval s) w') :
    P Value (e.eval s) w := by
  refine h [] e w .here (hP.rule fun loops e' w' hstart => ?_)
  -- The induction is on the expression: a rule begins with smaller parts only.
  have hlt := hstart.sizeOf_lt
  exact eval fun loops' e'' w'' hv => h _ e'' w'' (.part hstart hv)
termination_by e

end Closed
end EvalM
end ComplexCalc
