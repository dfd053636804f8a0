import ComplexCalc.Proofs.Grammar
import ComplexCalc.Proofs.Outcomes
/-!
# What the parser reads

An expression that is read with a limit is of the layer of that limit, and it ends before a token
that binds no tighter. Where the parser fails instead, the tokens before the failure begin an
expression. Both come from one induction on the fuel, which the tokens that are left never exhaust.
-/
namespace ComplexCalc

namespace Level

/-- The layer that is read with a limit. -/
def ofLimit : Nat → Level
  | 0 => assignment
  | 1 => sum
  | 2 => product
  | 3 => power
  | _ => signed

/-- The strength of the tightest operator that may come after an expression of a layer. -/
def follow : Level → Nat
  | assignment => 0
  | sum => 2
  | product => 3
  | power => 3
  | signed => 5
  | applied => 7
  | primary => 7

theorem rank_ofLimit_le : ∀ k, (ofLimit k).rank ≤ k ∧ (ofLimit k).rank ≤ 4
  | 0 | 1 | 2 | 3 => by decide
  | k + 4 => ⟨by simp [ofLimit, rank], by simp [ofLimit, rank]⟩

end Level

/-- The token is what a lexer finds in the text of the token alone. -/
def Token.IsLexeme (t : Token) : Prop :=
  TokenKind.firstAmong TokenKind.all t.text = some (t.kind, t.text.length)

/-- The tokens begin an expression of the layer. -/
def Viable (l : Level) (u : List Token) : Prop :=
  ∃ v e, (∀ t ∈ v, t.IsLexeme) ∧ Derives l (u ++ v) e

theorem Derives.viable {l : Level} {w : List Token} {e : Expr} (h : Derives l w e) : Viable l w :=
  ⟨[], e, by simp, by simpa using h⟩

theorem Viable.loosen {l m : Level} {u : List Token} (h : l.rank ≤ m.rank) (hu : Viable m u) :
    Viable l u := by
  obtain ⟨v, e, hv, hd⟩ := hu
  exact ⟨v, e, hv, hd.loosen h⟩

/-- What completes an expression within a larger one completes the larger one, after which come the
tokens that are still due. -/
theorem Viable.surround {l m : Level} {u : List Token} (hu : Viable m u) (before due : List Token)
    (hdue : ∀ t ∈ due, t.IsLexeme)
    (h : ∀ w e, Derives m w e → ∃ d, Derives l (before ++ w ++ due) d) : Viable l (before ++ u) := by
  obtain ⟨v, e, hv, hd⟩ := hu
  obtain ⟨d, hd⟩ := h _ _ hd
  refine ⟨v ++ due, d, fun t ht => ?_, by simpa using hd⟩
  rcases List.mem_append.1 ht with ht | ht
  · exact hv t ht
  · exact hdue t ht

namespace Token

/-- A name, as an operand that is missing. -/
def someName : Token := ⟨.identifier, ['x'], 0⟩

/-- A closing parenthesis that is missing. -/
def closingParen : Token := ⟨.rightParen, [')'], 0⟩

/-- A closing bar that is missing. -/
def closingBar : Token := ⟨.pipe, ['|'], 0⟩

theorem isLexeme_someName : someName.IsLexeme := by unfold IsLexeme; decide

theorem isLexeme_closingParen : closingParen.IsLexeme := by unfold IsLexeme; decide

theorem isLexeme_closingBar : closingBar.IsLexeme := by unfold IsLexeme; decide

end Token

theorem viable_nil (l : Level) : Viable l [] :=
  ⟨[Token.someName], _, by simpa using Token.isLexeme_someName,
    (Derives.name rfl).loosen l.rank_le_primary⟩

theorem TokenKind.precedence_le (k : TokenKind) : k.precedence ≤ 7 := by cases k <;> decide

theorem Expr.eq_name_of_name? {e : Expr} {x : String} (h : e.name? = some x) : e = .name x := by
  cases e <;> simp_all [name?]

namespace Parser

/-- The reply is no token that binds tighter than the limit. -/
def Within (limit : Nat) (x : Reply) : Prop := ∀ t, x = .ok t → t.kind.precedence ≤ limit

/-- The reply is a token that does not bind tighter than the limit. -/
def Stops (limit : Nat) (x : Reply) : Prop := ∃ t, x = .ok t ∧ t.kind.precedence ≤ limit

theorem Stops.within {limit k : Nat} {x : Reply} (h : Stops limit x) (hk : limit ≤ k) :
    Within k x := by
  obtain ⟨t, rfl, ht⟩ := h
  intro u hu
  cases hu
  omega

theorem within_seven (x : Reply) : Within 7 x := fun t _ => t.kind.precedence_le

/-- The tokens are an expression that any operator at `x` may take on its left, within an expression
that is read with the limit. -/
def LeftOperand (limit : Nat) (w : List Token) (x : Reply) (e : Expr) : Prop :=
  ∃ m : Level, (Level.ofLimit limit).rank ≤ m.rank ∧ Derives m w e ∧ Within m.follow x

/-! ## Operands -/

/-- Nested expressions before fewer than `n` tokens read an expression of their layer. -/
def Explores (nested : Nested Parser) (n : Nat) (z : Reply) : Prop :=
  ∀ (limit : Option Nat) (ts : List Token), ts.length < n →
    Outcome (nested limit) ts z
      (fun w x e => Derives (.ofLimit (limit.getD 0)) w e ∧ Stops (limit.getD 0) x)
      (Viable (.ofLimit (limit.getD 0)))

section Steps
variable {nested : Nested Parser} {n : Nat} {z : Reply}

/-- A nested expression between the token `t` and a closing one is an operand. -/
theorem enclosed_outcome (hz : Final z) (hn : Explores nested n z) (limit : Nat) {t closing : Token}
    {ts : List Token} (hts : ts.length < n) (hlexeme : closing.IsLexeme)
    (hkind : closing.kind ≠ .eof) (f : Expr → Expr)
    (hd : ∀ {w : List Token} {e : Expr} {c : Token}, Derives .assignment w e →
      c.kind = closing.kind → Derives .primary (t :: w ++ [c]) (f e)) :
    Outcome (do let e ← nested none; let _ ← expect closing.kind; pure (f e)) ts z
      (fun w x e => LeftOperand limit (t :: w) x e) (fun u => Viable (.ofLimit limit) (t :: u)) := by
  have hl : (Level.ofLimit limit).rank ≤ Level.primary.rank :=
    Nat.le_trans (Level.rank_ofLimit_le limit).2 (by decide)
  have hg : ∀ u, Viable .assignment u → Viable (.ofLimit limit) (t :: u) := fun u hu =>
    hu.surround [t] [closing] (by simpa using hlexeme) fun w e he => ⟨f e, (hd he rfl).loosen hl⟩
  refine (hn none ts hts).bind hg ?_
  rintro w rest e rfl ⟨he, -⟩
  refine .expect hz hkind (by simpa using hg _ he.viable) fun c rest' _ hc => .pure ?_
  exact ⟨.primary, hl, by simpa using hd he hc, within_seven _⟩

theorem operand_outcome (hz : Final z) (hn : Explores nested n z) (limit : Nat) (t : Token)
    (ts : List Token) (hts : ts.length < n) :
    (∃ e, operand nested t = throw e ∧ Blames (.ok t) e) ∨
      Outcome (operand nested t) ts z (fun w x e => LeftOperand limit (t :: w) x e)
        (fun u => Viable (.ofLimit limit) (t :: u)) := by
  have hsigned : ∀ l : Level, Level.signed.rank ≤ l.rank → (Level.ofLimit limit).rank ≤ l.rank :=
    fun l hl => Nat.le_trans (Level.rank_ofLimit_le limit).2 hl
  rcases hk : t.kind
  case leftParen =>
    simp only [operand, hk]
    exact .inr (enclosed_outcome hz hn limit hts Token.isLexeme_closingParen (by decide) id
      fun hd hc => hd.group hk hc)
  case minus =>
    simp only [operand, hk]
    refine .inr ((hn (some 5) ts hts).bind (fun u hu => ?_) ?_)
    · exact hu.surround [t] [] (by simp) fun w e hd =>
        ⟨_, by simpa using (Derives.negation hk hd).loosen (hsigned _ (by decide))⟩
    · rintro w rest e rfl ⟨hd, hx⟩
      exact .pure ⟨.signed, hsigned _ (by decide), by simpa using hd.negation hk, hx.within (by decide)⟩
  case pipe =>
    simp only [operand, hk]
    exact .inr (enclosed_outcome hz hn limit hts Token.isLexeme_closingBar (by decide) (.unary .abs)
      fun hd hc => hd.absolute hk hc)
  case literal =>
    simp only [operand, hk]
    cases hr : Literal.read t.text with
    | ok a => exact .inr (.pure ⟨.primary, hsigned _ (by decide), .literal hk hr, within_seven _⟩)
    | error cause => exact .inl ⟨_, rfl, .literal hk hr⟩
  case identifier =>
    simp only [operand, hk]
    exact .inr (.pure ⟨.primary, hsigned _ (by decide), .name hk, within_seven _⟩)
  all_goals exact .inl ⟨_, by simp only [operand, hk], .start t⟩

/-! ## Arguments of calls -/

/-- The tokens begin further arguments and the parenthesis after them. -/
def ViableArguments (u : List Token) : Prop :=
  ∃ v w es c, (∀ t ∈ v, t.IsLexeme) ∧ u ++ v = w ++ [c] ∧ c.kind = .rightParen ∧
    Further (Derives .assignment) w es

theorem moreArguments_outcome (hz : Final z) (hn : Explores nested n z) (fuel : Nat)
    (ts : List Token) (hts : ts.length < n) (hf : ts.length < fuel) :
    Outcome (moreArguments nested fuel) ts z (fun w _ es => Further (Derives .assignment) w es)
      ViableArguments := by
  induction fuel generalizing ts with
  | zero => omega
  | succ fuel ih =>
    have hnil : ViableArguments [] := ⟨[.closingParen], [], [], .closingParen,
      by simpa using Token.isLexeme_closingParen, rfl, rfl, .nil⟩
    rw [moreArguments_succ]
    refine .accept hz (by decide) hnil ?_ fun _ _ _ => .pure .nil
    rintro t rest rfl ht
    simp only [List.length_cons] at hts hf
    refine (hn none rest (by omega)).bind ?_ ?_
    · rintro u ⟨v, e, hv, hd⟩
      refine ⟨v ++ [.closingParen], t :: (u ++ v) ++ [], [e], .closingParen, ?_, by simp, rfl,
        .cons ht hd .nil⟩
      simpa [or_imp, forall_and, Token.isLexeme_closingParen] using hv
    · rintro w rest' e rfl ⟨hd, -⟩
      simp only [List.length_append] at hts hf
      refine (ih rest' (by omega) (by omega)).bind ?_ ?_
      · rintro u ⟨v, w', es, c, hv, hu, hc, hes⟩
        exact ⟨v, t :: w ++ w', e :: es, c, hv, by simp [hu], hc, .cons ht hd hes⟩
      · rintro w' rest'' es rfl hes
        exact .pure (by simpa using Further.cons ht (show Derives .assignment w e from hd) hes)

/-- The arguments of a call of `f` and the parenthesis that closes it, where `n` and `o` stand
before them. -/
theorem arguments_outcome (hz : Final z) (hn : Explores nested n z) (fuel : Nat) (ts : List Token)
    (hts : ts.length < n) (hf : ts.length < fuel) {f : String} {l : List Token} {o : Token}
    (hl : Derives .primary l (.name f)) (ho : o.kind = .leftParen) :
    Outcome (arguments nested fuel) ts z
      (fun w _ es => Derives .applied (l ++ o :: w) (.call f es))
      (fun u => Viable .applied (l ++ o :: u)) := by
  have hclose : ∀ w e v es, Derives .assignment w e → Further (Derives .assignment) v es →
      Viable .applied (l ++ o :: (w ++ v)) := fun w e v es hw hv =>
    ⟨[.closingParen], _, by simpa using Token.isLexeme_closingParen,
      by simpa using Derives.callWith hl ho hw hv (c := .closingParen) rfl⟩
  refine .accept hz (by decide) ?_ ?_ ?_
  · exact ⟨[.closingParen], _, by simpa using Token.isLexeme_closingParen,
      by simpa using Derives.call hl ho (c := .closingParen) rfl⟩
  · rintro c rest rfl hc
    exact .pure (hl.call ho hc)
  · intro t _ _
    refine (hn none ts hts).bind ?_ ?_
    · rintro u ⟨v, e, hv, hd⟩
      have hdue : ∀ t ∈ v ++ [Token.closingParen], t.IsLexeme := by
        simpa [or_imp, forall_and, Token.isLexeme_closingParen] using hv
      exact ⟨_, _, hdue, by simpa using Derives.callWith hl ho hd .nil (c := .closingParen) rfl⟩
    · rintro w rest e rfl ⟨hd, -⟩
      simp only [List.length_append] at hts hf
      refine (moreArguments_outcome hz hn fuel rest (by omega) (by omega)).bind ?_ ?_
      · rintro u ⟨v, w', es, c, hv, hu, hc, hes⟩
        exact ⟨v, _, hv, by simpa [hu] using Derives.callWith hl ho hd hes hc⟩
      · rintro v rest' es rfl hes
        refine .expect hz (by decide) (by simpa using hclose w e v es hd hes) fun c _ _ hc => .pure ?_
        simpa using Derives.callWith hl ho hd hes hc

/-! ## Operators -/

/-- The token is an operator that makes one expression of the layer `m` of the expression `left` of
the tokens `w` and of what is read with the limit `k` after the operator. -/
theorem infixed_outcome (hn : Explores nested n z) {limit : Nat} (m : Level) {op : BinaryOp} {k : Nat}
    {t : Token} {ts w : List Token} {left : Expr} (hts : ts.length < n)
    (hm : ∀ v e, Derives (.ofLimit k) v e → Derives m (w ++ t :: v) (.binary op left e))
    (hl : (Level.ofLimit limit).rank ≤ m.rank) (hk : k ≤ m.follow) :
    Outcome (infixed nested op k left) ts z (fun v x e => LeftOperand limit (w ++ t :: v) x e)
      (fun u => Viable (.ofLimit limit) (w ++ t :: u)) := by
  refine (hn (some k) ts hts).bind (fun u hu => ?_) ?_
  · refine Viable.loosen hl ?_
    simpa using hu.surround (w ++ [t]) [] (by simp) fun v e hv => ⟨_, by simpa using hm v e hv⟩
  · rintro v rest e rfl ⟨hv, hx⟩
    exact .pure ⟨m, hl, by simpa using hm v e hv, hx.within hk⟩

/-- An operator that chains a layer reads what binds tighter than the operator on its right. -/
theorem operator_of_chain {l : Level} {t : Token} {op : BinaryOp}
    (h : l.operator? t.kind = some op) : t.kind.precedence = l.follow ∧
      ∀ (nested : Nested Parser) fuel left,
        operator nested fuel left t = infixed nested op l.follow left := by
  rcases hk : t.kind <;> rw [hk] at h <;> cases l <;> cases h <;>
    exact ⟨rfl, fun _ _ _ => by simp only [operator, hk]; rfl⟩

theorem chained_outcome (hn : Explores nested n z) {fuel limit : Nat} {l m : Level} {op : BinaryOp}
    {t : Token} {ts w : List Token} {left : Expr} (hw : Derives l w left)
    (hop : m.operator? t.kind = some op) (hle : t.kind.precedence ≤ l.follow)
    (hlt : limit < t.kind.precedence) (hts : ts.length < n) :
    Outcome (operator nested fuel left t) ts z (fun v x e => LeftOperand limit (w ++ t :: v) x e)
      (fun u => Viable (.ofLimit limit) (w ++ t :: u)) := by
  obtain ⟨hp, hinfixed⟩ := operator_of_chain hop
  obtain ⟨hr, -⟩ := Level.rank_ofLimit_le limit
  -- Only the sum and the product have operators in a chain.
  obtain ⟨hnext, hrank, hfollow⟩ : Level.ofLimit m.follow = m.tighter ∧ m.follow = m.rank + 1 ∧
      (m.follow ≤ l.follow → m.rank ≤ l.rank) := by
    cases m <;> first | (cases l <;> decide) | cases hop
  rw [hp] at hle hlt
  rw [hinfixed]
  refine infixed_outcome hn m hts (fun v e hv => ?_) (by omega) (Nat.le_refl _)
  rw [hnext] at hv
  exact (hw.loosen (hfollow hle)).chain hop hv

theorem operator_outcome (hz : Final z) (hn : Explores nested n z) (fuel limit : Nat)
    {w : List Token} {left : Expr} {t : Token} (hw : LeftOperand limit w (.ok t) left)
    (hlt : limit < t.kind.precedence) (ts : List Token) (hts : ts.length < n)
    (hf : ts.length < fuel) :
    (∃ e, operator nested fuel left t = throw e ∧ Blames (.ok t) e) ∨
      Outcome (operator nested fuel left t) ts z
        (fun v x e => LeftOperand limit (w ++ t :: v) x e)
        (fun u => Viable (.ofLimit limit) (w ++ t :: u)) := by
  obtain ⟨l, hl, hw, hx⟩ := hw
  have hle := hx t rfl
  have hlt' := hlt
  obtain ⟨hr, hr4⟩ := Level.rank_ofLimit_le limit
  rcases hk : t.kind <;> simp only [hk, TokenKind.precedence] at hlt hle
  case plus | minus =>
    exact .inr (chained_outcome hn hw (m := .sum) (by rw [hk]; rfl) (hx t rfl) hlt' hts)
  case asterisk | slash | mod =>
    exact .inr (chained_outcome hn hw (m := .product) (by rw [hk]; rfl) (hx t rfl) hlt' hts)
  case exponent =>
    simp only [operator, hk]
    have hs : Level.signed.rank ≤ l.rank := by revert hle; cases l <;> decide
    exact .inr (infixed_outcome hn .power hts (fun v e => (hw.loosen hs).power hk)
      (by grind [Level.rank]) (by decide))
  case exclamation =>
    simp only [operator, hk]
    have hs : Level.applied.rank ≤ l.rank := by revert hle; cases l <;> decide
    exact .inr (.pure ⟨.applied, by grind [Level.rank], (hw.loosen hs).factorial hk, within_seven _⟩)
  case assign =>
    simp only [operator, hk]
    cases hname : left.name? with
    | none => exact .inl ⟨_, rfl, .target hk⟩
    | some x =>
      obtain rfl := Expr.eq_name_of_name? hname
      refine .inr ((hn (some 0) ts hts).bind (fun u hu => ?_) ?_)
      · have hv := hu.surround (l := .assignment) (w ++ [t]) [] (by simp) fun v e hv =>
          ⟨_, by simpa using hw.primary_of_name.assign hk hv⟩
        exact Viable.loosen (by grind [Level.rank]) (by simpa using hv)
      · rintro v rest e rfl ⟨hv, hx⟩
        exact .pure ⟨.assignment, by grind [Level.rank],
          by simpa using hw.primary_of_name.assign hk hv, hx.within (by decide)⟩
  case leftParen =>
    simp only [operator, hk]
    cases hname : left.name? with
    | none => exact .inl ⟨_, rfl, .callee hk⟩
    | some f =>
      obtain rfl := Expr.eq_name_of_name? hname
      refine .inr ((arguments_outcome hz hn fuel ts hts hf hw.primary_of_name hk).bind
        (fun u hu => hu.loosen (by grind [Level.rank])) ?_)
      rintro v rest es rfl hes
      exact .pure ⟨.applied, by grind [Level.rank], by simpa using hes, within_seven _⟩
  all_goals omega

/-! ## Expressions -/

theorem operators_outcome (hz : Final z) (hn : Explores nested n z) (fuel limit : Nat)
    {w : List Token} {left : Expr} (ts : List Token) (hw : LeftOperand limit w (next ts z) left)
    (hts : ts.length ≤ n) (hf : ts.length < fuel) :
    Outcome (operators nested limit fuel left) ts z
      (fun v x e => Derives (.ofLimit limit) (w ++ v) e ∧ Stops limit x)
      (fun u => Viable (.ofLimit limit) (w ++ u)) := by
  induction fuel generalizing w left ts with
  | zero => omega
  | succ fuel ih =>
    have hv : Viable (.ofLimit limit) (w ++ []) := by
      obtain ⟨m, hm, hd, -⟩ := hw
      simpa using (hd.loosen hm).viable
    rw [operators_succ]
    refine .currentPrecedence hv fun t ht => ?_
    split
    -- The next token binds tighter than the limit and takes `left` as its operand.
    · rename_i hlt
      refine .consume hv fun u hu => ?_
      rw [ht] at hu hw
      cases hu
      obtain ⟨rest, rfl⟩ := Outcome.eq_cons_of_next hz ht (by rintro h; simp [h, TokenKind.precedence] at hlt)
      simp only [List.length_cons] at hts hf
      rcases operator_outcome hz hn fuel limit hw hlt rest (by omega) (by omega) with ⟨e, he, hb⟩ | ho
      · exact .inl ⟨e, by rw [he]; rfl, hb⟩
      · refine .inr ⟨rest, rfl, ho.bind (fun _ h => h) ?_⟩
        rintro v rest' e rfl hw'
        simp only [List.length_append] at hts hf
        simpa using ih rest' hw' (by omega) (by omega)
    · rename_i hle
      obtain ⟨m, hm, hd, -⟩ := hw
      exact .pure ⟨by simpa using hd.loosen hm, t, ht, by omega⟩

end Steps

/-- Every expression is read from the tokens that are left, or fails at one of them. -/
theorem expression_explores {z : Reply} (hz : Final z) (fuel : Nat) :
    Explores (expression fuel) fuel z := by
  induction fuel with
  | zero => exact fun _ _ h => absurd h (Nat.not_lt_zero _)
  | succ fuel ih =>
    intro limit ts hts
    refine Outcome.traced (.consume (viable_nil _) fun t ht => ?_) _ _ _
    -- The end of the text begins no expression, and taking it leaves it where it is.
    by_cases he : t.kind = .eof
    · exact .inl ⟨_, by simp only [operand, he]; rfl, .start t⟩
    obtain ⟨rest, rfl⟩ := Outcome.eq_cons_of_next hz ht he
    simp only [List.length_cons] at hts
    rcases operand_outcome hz ih (limit.getD 0) t rest (by omega) with ⟨e, he, hb⟩ | ho
    · exact .inl ⟨e, by rw [he]; rfl, hb⟩
    · refine .inr ⟨rest, rfl, ho.bind (fun _ h => h) ?_⟩
      rintro w rest' left rfl hw
      simp only [List.length_append] at hts
      exact operators_outcome hz ih fuel (limit.getD 0) rest' hw (by omega) (by omega)

end Parser
end ComplexCalc
