import ComplexCalc.Proofs.Acceptance
import ComplexCalc.Proofs.Debugging
import ComplexCalc.Proofs.Queue
/-!
# Parsing comes to an end

A lexer goes on giving the end of the text for ever, so nothing but what the parser does with tokens
bounds how long it runs. Each call of `expression` begins with taking a token, or fails at the end of the
text: the calls that were made and the tokens that are left are together no more than the tokens there
were, and one call more if parsing fails. So fuel for one call more than there are tokens is never used
up, and the loops behind an operand and within a call take a token each time round.
-/
namespace ComplexCalc

/-! ## Calls in a journal -/

/-- The event is the beginning of a call. -/
def Event.isCall : Event → Bool
  | .call _ => true
  | _ => false

/-- How many calls a journal has entries for. -/
def Journal.calls (j : Journal) : Nat := j.entries.countP fun e => e.event.isCall

namespace Journal
variable (j : Journal)

theorem calls_record_le (event : Event) : (j.record event).calls ≤ j.calls + 1 := by
  unfold record
  split
  · rw [calls, Array.countP_push]
    split <;> simp [calls]
  · exact Nat.le_succ _

theorem calls_record {event : Event} (h : event.isCall = false) : (j.record event).calls = j.calls := by
  unfold record
  split
  · simp [calls, h]
  · rfl

@[simp] theorem calls_deeper : j.deeper.calls = j.calls := rfl

@[simp] theorem calls_shallower : j.shallower.calls = j.calls := rfl

end Journal

namespace Parser

/-! ## Tokens that are left -/

/-- So many tokens lie before the parser, and then the end of the text or an error again and again. -/
def Ahead (p : Parser) (n : Nat) : Prop :=
  ∃ (w : List Token) (z : Reply), w.length = n ∧ (∀ t ∈ w, t.kind ≠ .eof) ∧ Final z ∧
    p.stream = w.map .ok ++ₛ .const z

section Ahead
variable {p q : Parser} {n : Nat}

theorem Ahead.of_stream_eq (h : p.Ahead n) (hq : q.stream = p.stream) : q.Ahead n := by
  obtain ⟨w, z, hn, hw, hz, hs⟩ := h
  exact ⟨w, z, hn, hw, hz, hq.trans hs⟩

/-- With no token left, the next one is the end of the text. -/
theorem Ahead.final (h : p.Ahead 0) : Final p.stream.head := by
  obtain ⟨w, z, hn, -, hz, hs⟩ := h
  rw [List.length_eq_zero_iff.1 hn] at hs
  rw [hs]
  exact hz

/-- Taking the next token leaves one less, unless it is the end of the text. -/
theorem Ahead.behind (h : p.Ahead n) (hq : q.stream = behind p.stream) : q.Ahead (n - 1) := by
  obtain ⟨w, z, rfl, hw, hz, hs⟩ := h
  cases w with
  | nil =>
    refine ⟨[], z, rfl, hw, hz, ?_⟩
    rw [hq, hs]
    cases z with
    | error e => exact behind_of_error rfl
    | ok t => exact Stream'.tail_const _
  | cons t w =>
    refine ⟨w, z, rfl, fun u hu => hw u (List.mem_cons_of_mem _ hu), hz, ?_⟩
    rw [hq, hs]
    rfl

end Ahead

/-! ## What a step spends -/

/-- Tokens are never put back, and the calls that the step makes are paid for with the tokens that it
takes, but for the last call if it fails. -/
def Spends (α : Type) (m : ParserM α) : Prop :=
  ∀ p n, p.Ahead n → ∃ k ≤ n, (m p).2.Ahead k ∧
    (m p).2.journal.calls + k ≤ p.journal.calls + n + if (m p).1.isOk then 0 else 1

theorem spends_of_oblivious {α : Type} {m : ParserM α} (hm : Oblivious m)
    (h : ∀ p n, p.Ahead n → ∃ k ≤ n, (m p).2.Ahead k) : Spends α m := by
  intro p n hp
  obtain ⟨k, hk, hleft⟩ := h p n hp
  have hj : (m p).2.journal = p.journal := hm.journal_eq p
  exact ⟨k, hk, hleft, by rw [hj]; split <;> omega⟩

/-- Tracing a step adds the entry for one call to what the step itself adds. -/
theorem traced_calls {α : Type} (signature : Parser → String) (explain : SyntaxError → String)
    (describe : α → String) (m : ParserM α) (p : Parser) : ∃ q : Parser,
      q.stream = p.stream ∧ q.journal.calls ≤ p.journal.calls + 1 ∧
      (traced signature explain (fun a => .ok (describe a)) m p).1 = (m q).1 ∧
      (traced signature explain (fun a => .ok (describe a)) m p).2.stream = (m q).2.stream ∧
      (traced signature explain (fun a => .ok (describe a)) m p).2.journal.calls =
        (m q).2.journal.calls := by
  unfold traced
  split
  · refine ⟨Journaled.update (fun j => (j.record (.call (signature p))).deeper) p, rfl,
      p.journal.calls_record_le _, ?_⟩
    rcases hm : m (Journaled.update (fun j => (j.record (.call (signature p))).deeper) p) with
      ⟨e | a, q⟩ <;> simp only [hm]
    · exact ⟨trivial, rfl, q.journal.shallower.calls_record rfl⟩
    · exact ⟨trivial, rfl, q.journal.shallower.calls_record rfl⟩
  · exact ⟨p, rfl, Nat.le_succ _, rfl, rfl, rfl⟩

theorem spends_assembled : Assembled Spends where
  look := spends_of_oblivious (oblivious_lookAhead 0) fun p n hp => by
    obtain ⟨q, hq, hl⟩ := lookAhead_zero p
    exact ⟨n, le_rfl, by rw [hq]; exact hp.of_stream_eq hl.1⟩
  consume := spends_of_oblivious oblivious_consume fun p n hp => by
    obtain ⟨q, hq, hl⟩ := consume_spec p
    exact ⟨n - 1, Nat.sub_le n 1, by rw [hq]; exact hp.behind hl.1⟩
  pure a := spends_of_oblivious (.pure a) fun _ n hp => ⟨n, le_rfl, hp⟩
  throw e := spends_of_oblivious (fun _ _ => rfl) fun _ n hp => ⟨n, le_rfl, hp⟩
  bind {α β m f} hm hf p n hp := by
    obtain ⟨k, hk, hleft, hcalls⟩ := hm p n hp
    rcases hr : m p with ⟨e | a, q⟩ <;> rw [hr] at hleft hcalls
    · rw [Action.bind_error hr]
      exact ⟨k, hk, hleft, hcalls⟩
    · obtain ⟨j, hj, hleft', hcalls'⟩ := hf a q k hleft
      have hspent : q.journal.calls + k ≤ p.journal.calls + n := hcalls
      rw [Action.bind_ok hr]
      exact ⟨j, hj.trans hk, hleft', by omega⟩
  call {f} limit hf heof p n hp := by
    obtain ⟨q, hq, hcalls, hresult, hstream, hjournal⟩ := traced_calls (callText limit ∘ ParserState.parser)
      SyntaxError.message Expr.debugText (consume >>= f) p
    rw [hresult, hjournal]
    suffices h : ∃ k ≤ n, ((consume >>= f) q).2.Ahead k ∧
        ((consume >>= f) q).2.journal.calls + k ≤
          p.journal.calls + n + if ((consume >>= f) q).1.isOk then 0 else 1 by
      obtain ⟨k, hk, hleft, hspent⟩ := h
      exact ⟨k, hk, hleft.of_stream_eq hstream, hspent⟩
    have hpq := hp.of_stream_eq hq
    obtain ⟨r, hr, hl⟩ := consume_spec q
    have hleft := hpq.behind hl.1
    have hj : r.journal = q.journal := by
      have := oblivious_consume.journal_eq q
      rwa [hr] at this
    rcases hh : q.stream.head with e | t <;> rw [hh] at hr
    · have hspent : r.journal.calls + (n - 1) ≤ p.journal.calls + n + 1 := by
        rw [hj]
        omega
      rw [Action.bind_error hr]
      exact ⟨n - 1, Nat.sub_le n 1, hleft, hspent⟩
    rw [Action.bind_ok hr]
    cases n with
    | zero =>
      -- The token is the end of the text, and the call comes to nothing.
      obtain ⟨e, he⟩ := heof t (hpq.final t hh)
      rw [he]
      exact ⟨0, le_rfl, hleft, by rw [Action.throw_apply, hj]; exact hcalls⟩
    | succ n =>
      obtain ⟨k, hk, hleft', hspent⟩ := hf t r n hleft
      exact ⟨k, hk.trans (Nat.le_succ n), hleft', by rw [hj] at hspent; omega⟩

theorem spends_expression (fuel : Nat) (limit : Option Nat) : Spends Expr (expression fuel limit) :=
  spends_assembled.expression fuel limit

/-! ## The loops -/

section Loops
variable {nested : Nested Parser} {p : Parser} {n : Nat}

/-- A round that finds an operator takes it, however it goes on. -/
theorem operatorRound_takes (h : ∀ limit, Spends Expr (nested limit)) (hp : p.Ahead n)
    {limit k : Nat} (hk : (currentPrecedence p).1 = .ok k) (hlt : limit < k) (fuel : Nat) (left : Expr) :
    ∃ j < n, (operatorRound nested limit fuel left p).2.Ahead j := by
  obtain ⟨q, hq, hl⟩ := currentPrecedence_spec p
  rw [hq] at hk
  obtain ⟨t, ht, rfl⟩ : ∃ t, p.stream.head = .ok t ∧ t.kind.precedence = k := by
    rcases hh : p.stream.head with e | t <;> rw [hh] at hk <;> cases hk
    exact ⟨t, rfl, rfl⟩
  obtain ⟨r, hr, hl'⟩ := consume_spec q
  rw [hl.1, ht] at hr
  have hleft : r.Ahead (n - 1) := hp.behind (hl'.1.trans (by rw [hl.1]))
  have hpos : n ≠ 0 := by
    rintro rfl
    rw [hp.final t ht] at hlt
    exact absurd hlt (Nat.not_lt_zero _)
  obtain ⟨j, hj, hahead, -⟩ := spends_assembled.bind (spends_assembled.operator h fuel left t)
    (fun e => spends_assembled.pure (some e)) r (n - 1) hleft
  rw [ht] at hq
  rw [operatorRound, Action.bind_ok hq, if_pos hlt, Action.bind_ok hr]
  exact ⟨j, by omega, hahead⟩

/-- A round that finds a comma takes it, however it goes on. -/
theorem argumentRound_takes (h : ∀ limit, Spends Expr (nested limit)) (hp : p.Ahead n)
    (hcomma : (accept .comma p).1 = .ok true) : ∃ j < n, (argumentRound nested p).2.Ahead j := by
  obtain ⟨q, hq, hl⟩ := accept_spec p .comma
  rw [hq] at hcomma
  obtain ⟨t, ht, hkind⟩ : ∃ t, p.stream.head = .ok t ∧ t.kind = .comma := by
    rcases hh : p.stream.head with e | t <;> rw [hh] at hcomma
    · cases hcomma
    · exact ⟨t, rfl, of_decide_eq_true (Except.ok.inj hcomma)⟩
  have htaken : q.stream = behind p.stream := by
    rw [hl.1, ht, behind_of_ok ht, if_pos (by rw [Except.map, hkind])]
  have hpos : n ≠ 0 := by
    rintro rfl
    rw [hp.final t ht] at hkind
    cases hkind
  obtain ⟨j, hj, hahead, -⟩ := spends_assembled.bind (h none)
    (fun e => spends_assembled.pure (some e)) q (n - 1) (hp.behind htaken)
  rw [argumentRound, Action.bind_ok (hq.trans (Prod.ext hcomma rfl))]
  exact ⟨j, by omega, hahead⟩

end Loops

/-! ## Whole runs -/

section Runs
variable {text : List Char} {w : List Token} {z : Reply}

theorem ahead_ofChars (h : Lexes 0 text w z) (journal : Journal) :
    (ofChars text journal).Ahead w.length :=
  ⟨w, z, rfl, h.kind_ne_eof, h.final, stream_ofChars h journal⟩

/-- Before the end of the text or a character that begins no token, nothing is nested too deeply. -/
theorem ne_tooDeep_of_blames (h : Lexes 0 text w z) {rest : List Token} {e : SyntaxError}
    (hb : Blames (next rest z) e) : e ≠ .tooDeep := by
  rintro rfl
  generalize hx : next rest z = x at hb
  cases hb
  cases rest with
  | nil =>
    rcases h.reply (Nat.zero_le _) with rfl | ⟨c, j, rfl, -⟩ <;> cases hx
  | cons t rest => cases hx

/-- How reading an expression ends before the tokens `w` and the reply `z`, with the tokens that it takes:
some first ones of `w`, or these and the first one that it has no use for, at which it fails. -/
inductive Ends (m : ParserM Expr) (w : List Token) (z : Reply) :
    List Token → Except SyntaxError Expr → Prop
  | read {u rest : List Token} {e : Expr} : w = u ++ rest → Reads m u (next rest z) e →
      Ends m w z u (.ok e)
  | fail {u rest : List Token} {e : SyntaxError} : w = u ++ rest → Blames (next rest z) e →
      Fails m u (next rest z) e → Ends m w z (u ++ (next rest z).toOption.toList) (.error e)

theorem Ends.extend {m m' : ParserM Expr} {taken : List Token} {r : Except SyntaxError Expr}
    (h : Ends m w z taken r) (hm : Extends m' m) (hr : r ≠ .error .tooDeep) : Ends m' w z taken r := by
  cases h with
  | read hw h => exact .read hw (h.extend hm)
  | fail hw hb h => exact .fail hw hb (h.extend hm fun he => hr (by rw [he]))

/-- A success takes no more tokens than there are, and a failure one more: the end of the text. -/
theorem Ends.length_le {m : ParserM Expr} {taken : List Token} {r : Except SyntaxError Expr}
    (h : Ends m w z taken r) (hz : Final z) :
    taken.length ≤ w.length + (if r.isOk then 0 else 1) ∧
      (w.length < taken.length → ∃ t, t.kind = .eof ∧ z = .ok t ∧ taken = w ++ [t]) := by
  cases h with
  | read hw _ =>
    have hle : taken.length ≤ w.length := by simp [hw]
    exact ⟨Nat.le_add_right_of_le hle, fun hlt => absurd hle (Nat.not_le.2 hlt)⟩
  | @fail u rest e hw _ _ =>
    subst hw
    cases rest with
    | nil =>
      cases z with
      | error e => simp [Except.toOption]
      | ok t => simpa [Except.toOption, Except.isOk, Except.toBool] using hz t rfl
    | cons t rest => simp [Except.toOption, Except.isOk, Except.toBool]

/-- One more fuel than there are tokens is enough to read an expression. -/
theorem exists_ends (h : Lexes 0 text w z) (limit : Option Nat) (journal : Journal) :
    ∃ taken r, r ≠ .error .tooDeep ∧ Ends (expression (w.length + 1) limit) w z taken r ∧
      (expression (w.length + 1) limit (ofChars text journal)).1 = r := by
  have hs := stream_ofChars h journal
  rcases expression_explores h.final (w.length + 1) limit w (Nat.lt_succ_self _) with
    ⟨u, rest, e, hw, -, hr⟩ | ⟨u, rest, e, hw, -, hb, hf⟩
  all_goals
    obtain ⟨s, hrest⟩ := exists_stream_eq_cons rest z (.const z)
    rw [← Stream'.const_eq] at hrest
    rw [hw, List.map_append, Stream'.append_append_stream, hrest] at hs
  · obtain ⟨q, hq, -⟩ := hr _ s hs
    exact ⟨u, .ok e, by simp, .read hw hr, by rw [hq]⟩
  · obtain ⟨q, hq, -⟩ := hf _ s hs
    have he := ne_tooDeep_of_blames h hb
    exact ⟨_, .error e, by simpa using he, .fail hw hb hf, by rw [hq]⟩

end Runs

/-- Reading an expression from a text ends, although the lexer never does. With `n` tokens before the end
of the text or a character that begins none, more fuel than `n` changes nothing and is never used up; at
most `n` tokens are taken, or `n + 1` on the way to an error, the last of them the end of the text; and
there are at most `n + 1` calls. A round of a loop takes a token, in whatever state it is begun. -/
theorem parsing_ends :
    (∀ (text : List Char) (limit : Option Nat) (journal : Journal),
      ∃ (w : List Token) (z : Reply) (taken : List Token),
        tokens text = listing w z ∧ (∀ t ∈ w, t.kind ≠ .eof) ∧
        (ofChars text journal).stream = w.map .ok ++ₛ .const z ∧
        (parse limit (ofChars text journal)).1 ≠ .error .tooDeep ∧
        (∀ fuel, w.length < fuel →
          expression fuel limit (ofChars text journal) = parse limit (ofChars text journal) ∧
          Ends (expression fuel limit) w z taken (parse limit (ofChars text journal)).1) ∧
        taken.length ≤ w.length + (if (parse limit (ofChars text journal)).1.isOk then 0 else 1) ∧
        (w.length < taken.length → ∃ t, t.kind = .eof ∧ z = .ok t ∧ taken = w ++ [t]) ∧
        (parse limit (ofChars text journal)).2.journal.calls ≤ journal.calls + w.length + 1) ∧
    ∀ (p : Parser) (n depth : Nat), p.Ahead n →
      (∀ (limit k fuel : Nat) (left : Expr), (currentPrecedence p).1 = .ok k → limit < k →
        ∃ j < n, (operatorRound (expression depth) limit fuel left p).2.Ahead j) ∧
      ((accept .comma p).1 = .ok true →
        ∃ j < n, (argumentRound (expression depth) p).2.Ahead j) := by
  refine ⟨fun text limit journal => ?_, fun p n depth hp => ⟨?_, ?_⟩⟩
  · obtain ⟨w, z, hl, htokens⟩ := exists_lexes 0 text
    obtain ⟨taken, r, hne, hends, hr⟩ := exists_ends hl limit journal
    have hmore : ∀ fuel, w.length < fuel → expression fuel limit (ofChars text journal) =
        expression (w.length + 1) limit (ofChars text journal) := fun fuel hfuel =>
      expression_extends hfuel limit _ (by rwa [hr])
    have hparse : parse limit (ofChars text journal) =
        expression (w.length + 1) limit (ofChars text journal) :=
      hmore _ (Nat.lt_succ_of_lt (length_lt_bound hl journal))
    obtain ⟨k, -, -, hcalls⟩ := spends_expression (w.length + 1) limit _ _ (ahead_ofChars hl journal)
    obtain ⟨htaken, hlast⟩ := hends.length_le hl.final
    refine ⟨w, z, taken, htokens, hl.kind_ne_eof, stream_ofChars hl journal, ?_, fun fuel hfuel => ?_, ?_⟩
    · rwa [hparse, hr]
    · rw [hmore fuel hfuel, hparse, hr]
      exact ⟨rfl, hends.extend (expression_extends hfuel limit) hne⟩
    · rw [hparse, hr]
      refine ⟨htaken, hlast, ?_⟩
      have hj : (ofChars text journal).journal = journal := rfl
      rw [hj] at hcalls
      split at hcalls <;> omega
  · exact fun limit k fuel left hk hlt =>
      operatorRound_takes (spends_expression depth) hp hk hlt fuel left
  · exact argumentRound_takes (spends_expression depth) hp

/-- A minus alone makes as many calls as there may be, and the one round of each loop takes the token
before it. -/
theorem parsing_ends_at_minus :
    (parse none (ofChars ['-'] (.fresh true))).2.journal.calls = 2 ∧
    (∃ w z, tokens ['-'] = listing w z ∧
      (parse none (ofChars ['-'] (.fresh true))).2.journal.calls ≤ w.length + 1) ∧
    (∃ j < 1, (operatorRound (expression 0) 0 0 (.name "a")
      (ofTokens [⟨.exclamation, ['!'], 1⟩])).2.Ahead j) ∧
    ∃ j < 1, (argumentRound (expression 0) (ofTokens [⟨.comma, [','], 3⟩])).2.Ahead j := by
  have hahead : ∀ t : Token, t.kind ≠ .eof → (ofTokens [t]).Ahead 1 := by
    refine fun t ht => ⟨[t], .ok (.ending []), rfl, by simpa using ht, ?_, stream_ofTokens [t]⟩
    rintro u hu
    cases hu
    rfl
  obtain ⟨w, z, -, htokens, -, -, -, -, -, -, hcalls⟩ := parsing_ends.1 ['-'] none (.fresh true)
  refine ⟨by decide +kernel, ⟨w, z, htokens, ?_⟩, ?_, ?_⟩
  · have hzero : (Journal.fresh true).calls = 0 := rfl
    rwa [hzero, Nat.zero_add] at hcalls
  · exact (parsing_ends.2 _ 1 0 (hahead _ (by decide))).1 0 6 0 (.name "a") rfl (by decide)
  · exact (parsing_ends.2 _ 1 0 (hahead _ (by decide))).2 rfl

end Parser
end ComplexCalc
