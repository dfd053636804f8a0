import ComplexCalc.Proofs.Parsing
/-!
# Every derivation is read

The parser reads each expression of the grammar, and then goes on with the operators after it as if
the tree had been its left operand from the start. Read that way the claim is one induction on the
derivation: the left operand of an operator is read first, and the operator is what comes after it.
-/
namespace ComplexCalc

/-- The greatest limit with which an expression of the layer can be read. -/
def Level.limit : Level → Nat
  | assignment => 0
  | sum => 1
  | product => 2
  | power => 3
  | signed | applied | primary => 5

theorem Level.limit_le_tighter (l : Level) : l.limit ≤ l.tighter.limit := by cases l <;> decide

theorem Level.follow_le_tighter (l : Level) : l.follow ≤ l.tighter.follow := by cases l <;> decide

namespace Parser

theorem Stops.mono {j k : Nat} {x : Reply} (h : Stops j x) (hk : j ≤ k) : Stops k x := by
  obtain ⟨t, ht, hj⟩ := h
  exact ⟨t, ht, Nat.le_trans hj hk⟩

theorem stops_ok {t : Token} {k : Nat} (h : t.kind.precedence ≤ k) : Stops k (.ok t) := ⟨t, rfl, h⟩

/-- An expression after the entry for its call. -/
def climb (fuel limit : Nat) : ParserM Expr := do
  let t ← consume
  let left ← operand (expression fuel) t
  operators (expression fuel) limit fuel left

theorem expression_reads {fuel : Nat} {limit : Option Nat} {w : List Token} {x : Reply} {e : Expr}
    (h : Reads (climb fuel (limit.getD 0)) w x e) : Reads (expression (fuel + 1) limit) w x e :=
  h.traced _ _ _

/-! ## Operators -/

section Operators
variable {nested : Nested Parser} {limit fuel : Nat} {left : Expr}

theorem operators_stop {x : Reply} (h : Stops limit x) :
    Reads (operators nested limit (fuel + 1) left) [] x left := by
  obtain ⟨t, rfl, ht⟩ := h
  rw [operators_succ]
  refine (currentPrecedence_reads t).bind (v := []) ?_
  rw [if_neg (by omega)]
  exact Reads.pure _ _

theorem operators_step {t : Token} {w v : List Token} {x : Reply} {d e : Expr}
    (ht : limit < t.kind.precedence) (hw : Reads (operator nested fuel left t) w (next v x) d)
    (hv : Reads (operators nested limit fuel d) v x e) :
    Reads (operators nested limit (fuel + 1) left) (t :: w ++ v) x e := by
  rw [operators_succ]
  refine (currentPrecedence_reads t).bind (w := []) (v := t :: w ++ v) ?_
  rw [if_pos ht]
  exact (consume_reads t _).bind (w := [t]) (v := w ++ v) (hw.bind hv)

theorem infixed_reads {op : BinaryOp} {k : Nat} {w : List Token} {x : Reply} {e : Expr}
    (h : Reads (nested (some k)) w x e) :
    Reads (infixed nested op k left) w x (.binary op left e) :=
  h.map _

end Operators

/-- The limit of the right operand of an operator that chains a layer suits the next tighter layer. -/
theorem Level.limits_of_chain {l : Level} {k : TokenKind} {op : BinaryOp}
    (h : l.operator? k = some op) :
    l.limit < l.follow ∧ l.follow ≤ l.tighter.limit ∧ l.follow ≤ l.tighter.follow := by
  cases l <;> cases k <;> cases h <;> decide

/-! ## Derivations -/

/-- The tokens are read as the tree, and reading goes on with the operators after them. -/
def Read (l : Level) (w : List Token) (e : Expr) : Prop :=
  ∀ (fuel limit : Nat) (v : List Token) (x : Reply) (a : Expr), w.length ≤ fuel → limit ≤ l.limit →
    Stops l.follow (next v x) →
    (∀ f, fuel < f + w.length → Reads (operators (expression fuel) limit f e) v x a) →
    Reads (climb fuel limit) (w ++ v) x a

theorem Read.expression {l : Level} {w : List Token} {e : Expr} (h : Read l w e) {fuel : Nat}
    {limit : Option Nat} {x : Reply} (hf : w.length < fuel) (hl : limit.getD 0 ≤ l.limit)
    (hx : Stops (limit.getD 0) x) (hlx : Stops l.follow x) : Reads (expression fuel limit) w x e := by
  obtain ⟨fuel, rfl⟩ : ∃ n, fuel = n + 1 := ⟨fuel - 1, by omega⟩
  refine expression_reads ?_
  have := h fuel (limit.getD 0) [] x e (by omega) hl hlx fun f hf => by
    obtain ⟨f, rfl⟩ : ∃ n, f = n + 1 := ⟨f - 1, by omega⟩
    exact operators_stop hx
  simpa using this

/-- A nested expression that stands alone. -/
theorem Read.alone {w : List Token} {e : Expr} (h : Read .assignment w e) {fuel : Nat}
    (hf : w.length < fuel) {t : Token} (ht : t.kind.precedence = 0) :
    Reads (Parser.expression fuel none) w (.ok t) e :=
  h.expression hf (Nat.le_refl _) (stops_ok (Nat.le_of_eq ht)) (stops_ok (Nat.le_of_eq ht))

/-- An operand that a single token begins. -/
theorem climb_reads {fuel limit : Nat} {t : Token} {w v : List Token} {x : Reply} {e a : Expr}
    (hw : Reads (operand (expression fuel) t) w (next v x) e)
    (hv : Reads (operators (expression fuel) limit fuel e) v x a) :
    Reads (climb fuel limit) (t :: w ++ v) x a :=
  (consume_reads t _).bind (w := [t]) (v := w ++ v) (hw.bind hv)

/-- Where further arguments are over or another one comes, nothing binds. -/
theorem exists_next_further {R : List Token → Expr → Prop} {v : List Token} {es : List Expr}
    (h : Further R v es) {c : Token} (hc : c.kind.precedence = 0) :
    ∃ t, next v (.ok c) = .ok t ∧ t.kind.precedence = 0 := by
  cases h with
  | nil => exact ⟨c, rfl, hc⟩
  | cons ht _ _ => exact ⟨_, rfl, by rw [ht]; rfl⟩

theorem moreArguments_reads {v : List Token} {es : List Expr} (h : Further (Read .assignment) v es)
    {c : Token} (hc : c.kind = .rightParen) {fuel k : Nat} (hf : v.length < fuel)
    (hk : v.length < k) : Reads (moreArguments (expression fuel) k) v (.ok c) es := by
  induction h generalizing k with
  | nil =>
    obtain ⟨k, rfl⟩ : ∃ n, k = n + 1 := ⟨k - 1, by omega⟩
    rw [moreArguments_succ]
    exact (accept_skips (by rw [hc]; decide)).bind (v := []) (Reads.pure _ _)
  | @cons t w v e es ht hw hv ih =>
    simp only [List.length_append, List.length_cons] at hf hk
    obtain ⟨k, rfl⟩ : ∃ n, k = n + 1 := ⟨k - 1, by omega⟩
    obtain ⟨u, hu, hp⟩ := exists_next_further hv (c := c) (by rw [hc]; rfl)
    rw [moreArguments_succ]
    refine (accept_reads ht _).bind (w := [t]) (v := w ++ v) ?_
    exact (hu ▸ hw.alone (by omega) hp).bind ((ih (by omega) (by omega)).map _)

theorem arguments_reads {w v : List Token} {e : Expr} {es : List Expr} {c : Token}
    (hd : Derives .assignment w e) (hw : Read .assignment w e)
    (hv : Further (Read .assignment) v es) (hc : c.kind = .rightParen) {fuel k : Nat}
    (hf : (w ++ v).length < fuel) (hk : v.length < k) (x : Reply) :
    Reads (arguments (expression fuel) k) (w ++ v ++ [c]) x (e :: es) := by
  rw [List.length_append] at hf
  obtain ⟨t, r, hr, ht⟩ := hd.exists_first
  obtain ⟨u, hu, hp⟩ := exists_next_further hv (c := c) (by rw [hc]; rfl)
  have hskip : Reads (accept .rightParen) [] (next (w ++ v ++ [c]) x) false := by
    have hk : t.kind ≠ .rightParen := by
      rintro h
      simp [h] at ht
    simpa [hr] using accept_skips hk
  refine hskip.bind (w := []) ?_
  rw [List.append_assoc]
  have hn : next (v ++ [c]) x = .ok u := by rw [next_append]; exact hu
  refine (hn ▸ hw.alone (by omega) hp).bind ?_
  refine (moreArguments_reads hv hc (by omega) hk).bind (v := [c]) ?_
  exact (expect_reads hc x).map _

/-- A nested expression between two tokens, of which the second one is still to be read. -/
theorem Read.enclosed {w : List Token} {e : Expr} {c : Token} {k : TokenKind}
    (h : Read .assignment w e) (hc : c.kind = k) (hk : k.precedence = 0) {fuel : Nat}
    (hf : w.length < fuel) (f : Expr → Expr) (x : Reply) :
    Reads (do let e ← Parser.expression fuel none; let _ ← expect k; pure (f e)) (w ++ [c]) x (f e) := by
  refine (h.alone hf (by rw [hc]; exact hk)).bind (v := [c]) ?_
  exact (expect_reads hc _).bind (v := []) (Reads.pure _ _)

/-- An operator after what is read as a tree makes the tree its left operand. -/
theorem Read.continued {l : Level} {w : List Token} {d : Expr} (h : Read l w d) {fuel limit : Nat}
    {t : Token} {v u : List Token} {x : Reply} {e a : Expr} (hf : (w ++ t :: v).length ≤ fuel)
    (hl : limit ≤ l.limit) (hp : t.kind.precedence ≤ l.follow) (hlt : limit < t.kind.precedence)
    (hv : ∀ k, v.length < k → Reads (operator (Parser.expression fuel) k d t) v (next u x) e)
    (hu : ∀ f, fuel < f + (w ++ t :: v).length →
      Reads (operators (Parser.expression fuel) limit f e) u x a) :
    Reads (climb fuel limit) (w ++ t :: v ++ u) x a := by
  simp only [List.length_append, List.length_cons] at hf hu
  rw [List.append_assoc]
  refine h fuel limit (t :: v ++ u) x a (by omega) hl (stops_ok hp) fun k hk => ?_
  -- The tokens after the left operand leave fuel for one more operator.
  obtain ⟨k, rfl⟩ : ∃ n, k = n + 1 := ⟨k - 1, by omega⟩
  exact operators_step hlt (hv k (by omega)) (hu k (by omega))

/-- Every derivation is read. -/
theorem read_of_derives {l : Level} {w : List Token} {e : Expr} (h : Derives l w e) : Read l w e := by
  induction h with
  | literal ht hz =>
    intro fuel limit v x a hf _ _ hv
    refine climb_reads (w := []) ?_ (hv fuel (by simp))
    simp only [operand, ht, hz]
    exact Reads.pure _ _
  | name ht =>
    intro fuel limit v x a hf _ _ hv
    refine climb_reads (w := []) ?_ (hv fuel (by simp))
    simp only [operand, ht]
    exact Reads.pure _ _
  | @group o c w e ho _ hc ih =>
    intro fuel limit v x a hf _ _ hv
    simp only [List.length_append, List.length_cons, List.length_nil] at hf hv
    refine climb_reads (w := w ++ [c]) ?_ (hv fuel (by omega))
    simp only [operand, ho]
    exact ih.enclosed hc rfl (by omega) id _
  | @absolute o c w e ho _ hc ih =>
    intro fuel limit v x a hf _ _ hv
    simp only [List.length_append, List.length_cons, List.length_nil] at hf hv
    refine climb_reads (w := w ++ [c]) ?_ (hv fuel (by omega))
    simp only [operand, ho]
    exact ih.enclosed hc rfl (by omega) (.unary .abs) _
  | @negation t w e ht _ ih =>
    intro fuel limit v x a hf hl hx hv
    simp only [List.length_cons] at hf hv
    refine climb_reads (w := w) ?_ (hv fuel (by omega))
    simp only [operand, ht]
    exact (@Read.expression _ _ _ ih fuel (some 5) _ (by omega) (Nat.le_refl _) hx hx).map _
  | @factorial t w e _ ht ih =>
    intro fuel limit v x a hf hl _ hv
    refine ih.continued hf hl (TokenKind.precedence_le _) (by rw [ht]; exact Nat.lt_succ_of_le hl)
      (fun k _ => ?_) hv
    simp only [operator, ht]
    exact Reads.pure _ _
  | @call o c n f hn ho hc ih =>
    intro fuel limit v x a hf hl _ hv
    refine ih.continued hf hl (TokenKind.precedence_le _)
      (by rw [ho]; exact Nat.lt_add_right 1 (Nat.lt_succ_of_le hl)) (fun k _ => ?_) hv
    simp only [operator, ho, Expr.name?]
    have hr : Reads (arguments (expression fuel) k) [c] (next v x) [] :=
      (accept_reads hc _).bind (v := []) (Reads.pure _ _)
    exact hr.map _
  | @callWith o c n w v f e es hn ho hw _ hc ihn ihw ihv =>
    intro fuel limit u x a hf hl _ hu
    refine ihn.continued hf hl (TokenKind.precedence_le _)
      (by rw [ho]; exact Nat.lt_add_right 1 (Nat.lt_succ_of_le hl)) (fun k hk => ?_) hu
    simp only [operator, ho, Expr.name?]
    simp only [List.length_append, List.length_cons] at hf hk
    have hv := ihv.imp (S := Read .assignment) fun w e h => h.2
    refine (arguments_reads hw ihw hv hc ?_ (by omega) _).map _
    rw [List.length_append]
    omega
  | @power t w v d e _ ht _ ihw ihv =>
    intro fuel limit u x a hf hl hx hu
    refine ihw.continued hf (Nat.le_trans hl (by decide)) (by rw [ht]; decide)
      (by rw [ht]; exact Nat.lt_succ_of_le hl) (fun k _ => ?_) hu
    simp only [operator, ht]
    simp only [List.length_append, List.length_cons] at hf
    exact infixed_reads (@Read.expression _ _ _ ihv fuel (some 3) _ (by omega) (by decide) hx hx)
  | @chain l op t w v d e _ ht _ ihw ihv =>
    intro fuel limit u x a hf hl hx hu
    obtain ⟨hp, hop⟩ := operator_of_chain ht
    obtain ⟨hfollow, htl, htf⟩ := Level.limits_of_chain ht
    refine ihw.continued hf hl (by omega) (by omega) (fun k _ => ?_) hu
    rw [hop]
    simp only [List.length_append, List.length_cons] at hf
    exact infixed_reads
      (@Read.expression _ _ _ ihv fuel (some l.follow) _ (by omega) htl hx (hx.mono htf))
  | @assign t n w y e hn ht _ ihn ihw =>
    intro fuel limit v x a hf hl hx hv
    refine ihn.continued hf (Nat.le_trans hl (by decide)) (TokenKind.precedence_le _)
      (by rw [ht]; exact Nat.lt_succ_of_le hl) (fun k _ => ?_) hv
    simp only [operator, ht, Expr.name?]
    simp only [List.length_append, List.length_cons] at hf
    exact (@Read.expression _ _ _ ihw fuel (some 0) _ (by omega) (Nat.le_refl _) hx hx).map _
  | @tighter l w e _ ih =>
    intro fuel limit v x a hf hl hx hv
    exact ih fuel limit v x a hf (Nat.le_trans hl l.limit_le_tighter) (hx.mono l.follow_le_tighter) hv

end Parser
end ComplexCalc
