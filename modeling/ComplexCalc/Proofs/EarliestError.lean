import ComplexCalc.Eval
import ComplexCalc.Proofs.Acceptance
/-!
# Syntax errors at the earliest token

A text that does not parse is rejected at the first token that rules every expression out: the tokens
before it can still be continued to an expression, and with it they cannot. A failing step of the
parser gives the first half, for it fails after tokens that begin an expression. The second half is
that a longer run would have to fail at the same token, whatever came after it.
-/
namespace ComplexCalc

namespace Parser

/-- The tokens are a complete expression. -/
def Complete (w : List Token) : Prop := (∀ t ∈ w, t.kind ≠ .eof) ∧ ∃ e, ParsesTo (ofTokens w) e

theorem Complete.derives {w : List Token} (h : Complete w) : ∃ e, Derives .assignment w e := by
  obtain ⟨hw, e, he⟩ := h
  exact ⟨e, (parsesTo_ofTokens_iff hw).1 he⟩

/-! ## Nothing later -/

/-- A run that takes some tokens does not give up after the first ones of them. -/
theorem Fails.not_reads {α : Type} {m : ParserM α} {u w : List Token} {x y : Reply}
    {e : SyntaxError} {a : α} {p : Parser} {s s' : TokenStream} (hf : Fails m u x e)
    (hr : Reads m w y a) (hs : p.stream = u.map .ok ++ₛ .cons x s)
    (hs' : p.stream = w.map .ok ++ₛ .cons y s') : False := by
  obtain ⟨q, hq, -⟩ := hf p s hs
  obtain ⟨q', hq', -⟩ := hr p s' hs'
  rw [hq] at hq'
  cases hq'

/-- Before the tokens of an expression, reading takes all of them. -/
theorem exists_run {w : List Token} {d : Expr} (hd : Derives .assignment w d) (fuel : Nat) :
    ∃ k s, fuel ≤ k ∧ Reads (expression k none) w (.ok (.ending [])) d ∧
      (ofTokens w).stream = w.map .ok ++ₛ .cons (.ok (.ending [])) s := by
  refine ⟨max fuel (w.length + 1), .const (.ok (.ending [])), Nat.le_max_left _ _, ?_, ?_⟩
  · exact (read_of_derives hd).alone (by omega) rfl
  · rw [stream_ofTokens, ← Stream'.const_eq]

theorem exists_stream_ofTokens (u : List Token) (t : Token) (v : List Token) :
    ∃ s, (ofTokens (u ++ t :: v)).stream = u.map .ok ++ₛ .cons (.ok t) s :=
  ⟨v.map .ok ++ₛ .const (.ok (.ending [])), by
    rw [stream_ofTokens, List.map_append, Stream'.append_append_stream]; rfl⟩

section Later
variable {fuel : Nat} {u : List Token} {t : Token} {e : SyntaxError}

/-- No expression begins with the tokens up to the one at which reading gives up. -/
theorem not_derives_of_fails (hf : Fails (expression fuel none) u (.ok t) e) (he : e ≠ .tooDeep)
    (v : List Token) (d : Expr) : ¬ Derives .assignment (u ++ t :: v) d := by
  intro hd
  obtain ⟨k, s, hk, hr, hs⟩ := exists_run hd fuel
  obtain ⟨s', hs'⟩ := exists_stream_ofTokens u t v
  exact (hf.extend (expression_extends hk none) he).not_reads hr hs' hs

/-- Where reading gives up at the end, the tokens before it are no expression. -/
theorem not_derives_of_fails_ending (hf : Fails (expression fuel none) u (.ok t) e)
    (he : e ≠ .tooDeep) (ht : t.kind = .eof) (d : Expr) : ¬ Derives .assignment u d := by
  intro hd
  have hr : Reads (expression (max fuel (u.length + 1)) none) u (.ok t) d :=
    (read_of_derives hd).alone (by omega) (by rw [ht]; rfl)
  obtain ⟨s, hs⟩ := exists_stream_ofTokens u t []
  exact (hf.extend (expression_extends (Nat.le_max_left _ _) none) he).not_reads hr hs hs

/-- No expression begins with an expression that is read before another token, and that token. -/
theorem not_derives_of_reads {a : Expr} (hr : Reads (expression fuel none) u (.ok t) a)
    (ht : t.kind ≠ .eof) (v : List Token) (d : Expr) : ¬ Derives .assignment (u ++ t :: v) d := by
  intro hd
  obtain ⟨k, s, hk, hr', hs⟩ := exists_run hd fuel
  obtain ⟨s', hs'⟩ := exists_stream_ofTokens u t v
  obtain ⟨p, hp, hl⟩ := (hr.extend (expression_extends hk none)) _ _ hs'
  obtain ⟨q, hq, hl'⟩ := hr' _ _ hs
  rw [hp] at hq
  cases hq
  cases (Stream'.cons_injective2 (hl.1.symm.trans hl'.1)).1
  exact ht rfl

end Later

/-- The error is placed where the reply stands that it is blamed with. -/
theorem Blames.offset_eq {x : Reply} {e : SyntaxError} (h : Blames x e) : e.offset = x.offset := by
  cases h <;> rfl

/-- A token is never blamed for a character, nor for the depth of an expression. -/
theorem Blames.of_token {t : Token} {e : SyntaxError} (h : Blames (.ok t) e) :
    e ≠ .tooDeep ∧ ∀ c k, e ≠ .unknownCharacter c k := by
  cases h <;> simp

theorem Blames.of_literal {t : Token} {cs : List Char} {cause : Literal.Invalid} {k : Nat}
    (h : Blames (.ok t) (.literal cs cause k)) :
    t.kind = .literal ∧ t.text = cs ∧ t.offset = k ∧ Literal.read cs = .error cause := by
  cases h with
  | literal ht hr => exact ⟨ht, rfl, rfl, hr⟩

end Parser

/-! ## Places in a text -/

/-- The tokens of a text that stand before an offset. -/
def tokensBefore (text : List Char) (offset : Nat) : List Token :=
  (tokens text).1.filter fun t => t.offset < offset

section Places
variable {text : List Char} {u rest : List Token} {z : Reply}

/-- The tokens before the offset of a reply are those before the reply. -/
theorem tokensBefore_eq (h : Lexes 0 text (u ++ rest) z)
    (ht : tokens text = listing (u ++ rest) z) :
    tokensBefore text (Parser.next rest z).offset = u := by
  obtain ⟨offsets, hx⟩ : ∃ offsets, rest.map Token.offset ++ [z.offset] =
      (Parser.next rest z).offset :: offsets := by
    cases rest <;> exact ⟨_, rfl⟩
  obtain ⟨hsorted, -⟩ := h.sorted (Nat.zero_le _)
  rw [List.map_append, List.append_assoc, hx] at hsorted
  obtain ⟨-, hlater, hbefore⟩ := List.pairwise_append.1 hsorted
  rw [tokensBefore, ht, listing_fst, List.append_assoc, List.filter_append,
    List.filter_eq_self.2, List.filter_eq_nil_iff.2, List.append_nil]
  · intro t ht
    have hmem : t.offset ∈ rest.map Token.offset ++ [z.offset] := by
      rcases List.mem_append.1 ht with ht | ht
      · exact List.mem_append_left _ (List.mem_map_of_mem ht)
      · have hz : t.offset = z.offset := by
          cases z with
          | error => cases ht
          | ok u => rw [List.mem_singleton.1 ht]; rfl
        simp [hz]
    rw [hx] at hmem
    rcases List.mem_cons.1 hmem with heq | hmem
    · simp [heq]
    · have := (List.pairwise_cons.1 hlater).1 _ hmem
      simp only [decide_eq_true_eq]
      omega
  · intro t ht
    simpa using hbefore _ (List.mem_map_of_mem ht) _ List.mem_cons_self

/-- The only token of its kind is the end of the text. -/
theorem Lexes.ending_of_next {t : Token} (h : Lexes 0 text (u ++ rest) z)
    (hx : Parser.next rest z = .ok t) (hk : t.kind = .eof) : t = .ending text := by
  cases rest with
  | nil =>
    cases hx
    rcases h.reply (Nat.zero_le _) with hz | ⟨c, j, hz, -⟩ <;> cases hz
    rfl
  | cons v rest =>
    cases hx
    exact absurd hk (h.kind_ne_eof t (by simp))

/-- A reply that is a token is one of the tokens of the text. -/
theorem mem_tokens_of_next {t : Token} (ht : tokens text = listing (u ++ rest) z)
    (hx : Parser.next rest z = .ok t) : t ∈ (tokens text).1 := by
  rw [ht, listing_fst]
  cases rest with
  | nil => simp_all [Except.toOption]
  | cons v rest =>
    cases hx
    simp

end Places

/-- The error of a text is placed at the first token, or the first character that begins none, with
which the tokens before it begin no expression any more. -/
structure SyntaxError.Earliest (text : List Char) (e : SyntaxError) : Prop where
  inside : e.offset ≤ text.length
  begins : ∃ v, (∀ t ∈ v, t.IsLexeme) ∧ Parser.Complete (tokensBefore text e.offset ++ v)
  character : ∀ c k, e = .unknownCharacter c k → StuckAt text k c
  token : (∀ c k, e ≠ .unknownCharacter c k) → ∃ t ∈ (tokens text).1, t.offset = e.offset ∧
    if t.kind = .eof then t.offset = text.length ∧ ¬ Parser.Complete (tokensBefore text e.offset)
    else ∀ v, ¬ Parser.Complete (tokensBefore text e.offset ++ t :: v)
  literal : ∀ cs cause k, e = .literal cs cause k → ∃ t ∈ (tokens text).1,
    t.kind = .literal ∧ t.text = cs ∧ t.offset = k ∧ Literal.read cs = .error cause

section Earliest
variable {text : List Char} {u rest : List Token} {z : Reply} {e : SyntaxError}

theorem complete_of_derives {w : List Token} {d : Expr} (hw : ∀ t ∈ w, t.kind ≠ .eof)
    (h : Derives .assignment w d) : Parser.Complete w :=
  ⟨hw, d, (Parser.parsesTo_ofTokens_iff hw).2 h⟩

theorem Token.IsLexeme.kind_ne_eof {t : Token} (h : t.IsLexeme) : t.kind ≠ .eof :=
  TokenKind.ne_eof_of_firstAmong h

theorem earliest_of_blames (h : Lexes 0 text (u ++ rest) z)
    (ht : tokens text = listing (u ++ rest) z) (hu : Viable .assignment u)
    (hb : Parser.Blames (Parser.next rest z) e)
    (hend : ∀ t, Parser.next rest z = .ok t → t.kind = .eof → ∀ d, ¬ Derives .assignment u d)
    (hlater : ∀ t, Parser.next rest z = .ok t → t.kind ≠ .eof →
      ∀ v d, ¬ Derives .assignment (u ++ t :: v) d) : e.Earliest text := by
  have hoff := hb.offset_eq
  have hbefore : tokensBefore text e.offset = u := by rw [hoff, tokensBefore_eq h ht]
  have hinside : e.offset ≤ text.length := by
    rw [hoff]
    refine ((h.sorted (Nat.zero_le _)).2 _ ?_).2
    cases rest <;> simp [Reply.offset]
  have hbegins : ∃ v, (∀ t ∈ v, t.IsLexeme) ∧ Parser.Complete (tokensBefore text e.offset ++ v) := by
    obtain ⟨v, d, hv, hd⟩ := hu
    refine ⟨v, hv, hbefore ▸ complete_of_derives (fun t ht => ?_) hd⟩
    rcases List.mem_append.1 ht with ht | ht
    · exact h.kind_ne_eof t (List.mem_append_left _ ht)
    · exact (hv t ht).kind_ne_eof
  rcases hx : Parser.next rest z with e' | t <;> rw [hx] at hb
  -- Only the last reply is an error, and stands for a character with which no token begins.
  · obtain ⟨rfl, rfl⟩ : rest = [] ∧ z = .error e' := by
      cases rest <;> simp_all
    cases hb
    rcases h.reply (Nat.zero_le _) with hz | ⟨c, j, hz, hstuck⟩ <;> cases hz
    refine ⟨hinside, hbegins, ?_, fun hne => absurd rfl (hne c j), by simp⟩
    intro c' k hk
    cases hk
    exact hstuck
  -- Any other reply is a token of the text.
  · have hmem := mem_tokens_of_next ht hx
    obtain ⟨-, hchar⟩ := hb.of_token
    refine ⟨hinside, hbegins, fun c k hk => absurd hk (hchar c k), fun _ => ?_, ?_⟩
    · refine ⟨t, hmem, by rw [hoff, hx]; rfl, ?_⟩
      rw [hbefore]
      split
      · rename_i hk
        refine ⟨?_, fun hc => ?_⟩
        · rw [h.ending_of_next hx hk]
          rfl
        · obtain ⟨d, hd⟩ := hc.derives
          exact hend t hx hk d hd
      · rename_i hk
        intro v hc
        obtain ⟨d, hd⟩ := hc.derives
        exact hlater t hx hk v d hd
    · rintro cs cause k rfl
      exact ⟨t, hmem, hb.of_literal⟩

end Earliest

/-! ## Texts that do not parse -/

/-- An expression that is read is given together with the text from the next token on. -/
theorem Parser.parsePrefix_of_head {p p' : Parser} {d : Expr} {t : Token}
    (hp : parse none p = (.ok d, p')) (hsource : p'.lexer.source = p.lexer.source)
    (hx : p'.stream.head = .ok t) :
    ∃ q, parsePrefix p = (.ok (d, p.lexer.source.drop t.offset), q) := by
  have hs : p'.stream = .cons (.ok t) p'.stream.tail := by rw [← hx, Stream'.eta]
  obtain ⟨q, -, hq, -, hl⟩ := lookAhead_ok hs
  have hrecorded : (recordParsed d q).lexer.source = p.lexer.source := by
    rw [← hsource, ← hl.2]
    unfold recordParsed
    split <;> rfl
  refine ⟨recordParsed d q, ?_⟩
  rw [parsePrefix, Action.bind_ok hp, Action.bind_ok hq, ← hrecorded]
  rfl

theorem Parser.parsePrefix_of_parse {p p' : Parser} {d : Expr} {t : Token} {rest : List Token}
    {z : Reply} (hp : parse none p = (.ok d, p')) (hl : Leaves p p' (rest.map .ok ++ₛ .const z))
    (hx : next rest z = .ok t) :
    ∃ q, parsePrefix p = (.ok (d, p.lexer.source.drop t.offset), q) := by
  obtain ⟨s, hrest⟩ := exists_stream_eq_cons rest z (.const z)
  rw [← Stream'.const_eq, hx] at hrest
  exact parsePrefix_of_head hp hl.2 (by rw [hl.1, hrest]; rfl)

/-- A text with more tokens after its first expression is rejected at the first of them. -/
theorem blames_of_trailing {text : String} {w : Workspace} {d : Expr} {t : Token} {q : Parser}
    {f : Failure} (hp : Parser.parsePrefix (Parser.ofChars text.toList w.journal) =
      (.ok (d, text.toList.drop t.offset), q)) (h : (EvalM.parse text w).1 = .error f) :
    t.offset < text.length ∧
      f = .noExpression (.trailing (Text.firstWord (text.toList.drop t.offset)) t.offset) := by
  have hprefix : EvalM.parsePrefix text w =
      (.ok (d, text.toList.drop t.offset), { w with journal := q.journal }) := by
    simp only [EvalM.parsePrefix, hp]
  rw [EvalM.parse, Action.bind_ok hprefix] at h
  simp only at h
  split at h
  · cases h
  · rename_i hrest
    have hlt : t.offset < text.length := by
      rw [List.drop_eq_nil_iff, String.length_toList] at hrest
      omega
    refine ⟨hlt, ?_⟩
    cases h
    rw [List.length_drop, String.length_toList, Nat.sub_sub_self (Nat.le_of_lt hlt)]

/-- A text that does not parse is rejected with a syntax error at the earliest possible token. -/
theorem parse_error_earliest {text : String} {w : Workspace} {f : Failure}
    (h : (EvalM.parse text w).1 = .error f) :
    ∃ e : SyntaxError, f = .noExpression e ∧ e.Earliest text.toList := by
  obtain ⟨ts, z, hl, ht⟩ := exists_lexes 0 text.toList
  have hs := Parser.stream_ofChars hl w.journal
  have hb := Nat.le_of_lt (Parser.length_lt_bound hl w.journal)
  rcases Parser.parse_cases hl.final hs hb none with
    ⟨v, rest, d, t, p', rfl, hd, hx, hr, hp', hlv⟩ | ⟨u, rest, e, p', rfl, hu, hbl, hf, hp'⟩
  -- An expression is read and tokens are left: the first of them is at fault.
  · obtain ⟨q, hq⟩ := Parser.parsePrefix_of_parse hp' hlv hx
    obtain ⟨hlt, rfl⟩ := blames_of_trailing hq h
    have hk : t.kind ≠ .eof := by
      intro hk
      rw [hl.ending_of_next hx hk, Token.ending, String.length_toList] at hlt
      exact Nat.lt_irrefl _ hlt
    refine ⟨_, rfl, earliest_of_blames hl ht hd.viable (hx ▸ .trailing t _) ?_ ?_⟩
    · intro u hu huk
      cases hx.symm.trans hu
      exact absurd huk hk
    · intro u hu _
      cases hx.symm.trans hu
      exact Parser.not_derives_of_reads hr hk
  -- No expression is read: the error is that of the parser.
  · refine ⟨e, ?_, earliest_of_blames hl ht hu hbl (fun t hx hk => ?_) fun t hx hk => ?_⟩
    · have hprefix : Parser.parsePrefix (Parser.ofChars text.toList w.journal) = (.error e, p') :=
        Action.bind_error hp'
      have hparse : EvalM.parse text w = (.error (.noExpression e), { w with journal := p'.journal }) := by
        refine Action.bind_error ?_
        simp only [EvalM.parsePrefix, hprefix]
      rw [hparse] at h
      cases h
      rfl
    · rw [hx] at hf hbl
      exact Parser.not_derives_of_fails_ending hf hbl.of_token.1 hk
    · rw [hx] at hf hbl
      exact Parser.not_derives_of_fails hf hbl.of_token.1

/-- The syntax error that a result is. -/
def syntaxErrorOf {α : Type} : Except Failure α → Option SyntaxError
  | .error (.noExpression e) => some e
  | _ => none

theorem syntaxErrorOf_eq_some {α : Type} {r : Except Failure α} {e : SyntaxError} :
    syntaxErrorOf r = some e ↔ r = .error (.noExpression e) := by
  rcases r with (_ | _ | _) | _ <;> simp [syntaxErrorOf]

/-- In `2 + * 3` the second operator is at fault: `2 +` begins expressions, `2 + *` does not. -/
theorem earliest_second_operator :
    (EvalM.parse "2 + * 3" ⟨#[], .empty default, .fresh false⟩).1 =
      .error (.noExpression (.noExpression ['*'] 4)) ∧
    SyntaxError.Earliest "2 + * 3".toList (.noExpression ['*'] 4) := by
  have hrun : (EvalM.parse "2 + * 3" ⟨#[], .empty default, .fresh false⟩).1 =
      .error (.noExpression (.noExpression ['*'] 4)) :=
    syntaxErrorOf_eq_some.1 (by decide +kernel)
  obtain ⟨e, he, hearliest⟩ := parse_error_earliest hrun
  cases he
  exact ⟨hrun, hearliest⟩

end ComplexCalc
