import ComplexCalc.Proofs.Composition
import ComplexCalc.Proofs.Cursor
/-!
# The queue of a parser

Between the lexer and what a parser has consumed stands its queue. The queue and what the lexer has yet
to give are always the rest of the replies of the text: looking ahead moves tokens from the lexer into
the queue, consuming takes the first of them, and a failure in between takes nothing. A parser that
reads an expression looks no further than one token ahead.
-/
namespace ComplexCalc.Parser

/-! ## Pulling tokens -/

section Pulling
variable (p : Parser)

/-- Pulling moves a token from the lexer into the queue, or the lexer meets an error. -/
theorem pull_cases :
    (∃ t l, p.lexer.next = (.ok t, l) ∧
      pull p = (.ok (), { p with lexer := l, pending := p.pending ++ [t] })) ∨
    ∃ e l, p.lexer.next = (.error e, l) ∧ pull p = (.error e, { p with lexer := l }) := by
  rcases hn : p.lexer.next with ⟨e | t, l⟩
  · exact .inr ⟨e, l, rfl, by simp [pull, hn]⟩
  · exact .inl ⟨t, l, rfl, by simp [pull, hn]⟩

theorem pull_leaves : Leaves p (pull p).2 p.stream := by
  rcases pull_cases p with ⟨t, l, hn, hp⟩ | ⟨e, l, hn, hp⟩ <;> rw [hp]
  · refine ⟨?_, by simpa [hn] using p.lexer.source_next⟩
    simp only [stream, List.map_append, Stream'.append_append_stream]
    rw [Lexer.stream_of_next hn rfl]
    rfl
  · obtain ⟨hfirst, hagain⟩ := Lexer.stream_error hn
    exact ⟨by rw [stream, stream, hfirst, hagain], by simpa [hn] using p.lexer.source_next⟩

/-- Pulling `n` tokens adds them to the queue, or the lexer has an error before the last of them. -/
theorem pullMany_cases (n : Nat) :
    (∃ w p', pullMany n p = (.ok (), p') ∧ p'.pending = p.pending ++ w ∧ w.length = n ∧
      Leaves p p' p.stream) ∨
    ∃ w e p', pullMany n p = (.error e, p') ∧ p'.pending = p.pending ++ w ∧ w.length < n ∧
      p'.lexer.stream = .const (.error e) ∧ Leaves p p' p.stream := by
  induction n generalizing p with
  | zero => exact .inl ⟨[], p, rfl, by simp, rfl, rfl, rfl⟩
  | succ n ih =>
    have hl := pull_leaves p
    rcases pull_cases p with ⟨t, l, hn, hp⟩ | ⟨e, l, hn, hp⟩ <;> rw [hp] at hl
    · rw [pullMany, pull_eq, Action.bind_ok hp]
      rcases ih { p with lexer := l, pending := p.pending ++ [t] } with
        ⟨w, p', hmany, hw, hlen, hl'⟩ | ⟨w, e, p', hmany, hw, hlen, he, hl'⟩
      · refine .inl ⟨t :: w, p', hmany, by simpa using hw, by simp [hlen], hl.trans ?_⟩
        rw [← hl.1]
        exact hl'
      · refine .inr ⟨t :: w, e, p', hmany, by simpa using hw, by simpa using hlen, he, hl.trans ?_⟩
        rw [← hl.1]
        exact hl'
    · rw [pullMany, pull_eq, Action.bind_error hp]
      exact .inr ⟨[], e, _, rfl, by simp, by simp, (Lexer.stream_error hn).2, hl⟩

end Pulling

/-! ## What each call takes -/

section Calls
variable (p : Parser)

/-- Looking ahead finds the reply at that distance, and takes nothing. An error on the way is the reply
at all distances beyond it. -/
theorem lookAhead_spec (n : Nat) :
    ∃ p', lookAhead n p = (p.stream.get n, p') ∧ Leaves p p' p.stream := by
  rcases pullMany_cases p (n + 1 - p.pending.length) with
    ⟨w, p', hmany, hw, hlen, hl⟩ | ⟨w, e, p', hmany, hw, hlen, he, hl⟩
  · have hn : n < p'.pending.length := by
      rw [hw, List.length_append]
      omega
    have hreply : p.stream.get n = .ok p'.pending[n] := by
      rw [← hl.1, stream, Stream'.get_append_left _ _ _ (by simpa using hn), List.getElem_map]
    refine ⟨p', ?_, hl⟩
    simp [lookAhead, Action.bind_apply, hmany, hreply, hn]
  · have hreply : p.stream.get n = .error e := by
      obtain ⟨k, hk⟩ : ∃ k, n = (p'.pending.map Except.ok : List Reply).length + k :=
        ⟨n - p'.pending.length, by simp [hw]; omega⟩
      rw [← hl.1, stream, hk, Stream'.get_append_right, he, Stream'.get_const]
    refine ⟨p', ?_, hl⟩
    simp [lookAhead, Action.bind_apply, hmany, hreply]

/-- The replies after the first one was taken, where an error stays. -/
def behind (s : TokenStream) : TokenStream := afterFailure s.head s.tail

theorem behind_of_ok {s : TokenStream} {t : Token} (h : s.head = .ok t) : behind s = s.tail := by
  rw [behind, h]
  rfl

theorem behind_of_error {s : TokenStream} {e : SyntaxError} (h : s.head = .error e) :
    behind s = s := by
  rw [behind, h, afterFailure, ← h, Stream'.eta]

theorem lookAhead_zero : ∃ p', lookAhead 0 p = (p.stream.head, p') ∧ Leaves p p' p.stream :=
  lookAhead_spec p 0

/-- Consuming takes the first reply, unless it is an error. -/
theorem consume_spec : ∃ p', consume p = (p.stream.head, p') ∧ Leaves p p' (behind p.stream) := by
  rcases hh : p.stream.head with e | t
  · have hs : p.stream = .cons (.error e) p.stream.tail := by rw [← hh, Stream'.eta]
    obtain ⟨p', hp', hl⟩ := lookAhead_error hs
    rw [← hs] at hl
    exact ⟨p', Action.bind_error hp', by rwa [behind_of_error hh]⟩
  · have hs : p.stream = [t].map .ok ++ₛ .cons p.stream.tail.head p.stream.tail.tail := by
      rw [Stream'.eta]
      exact (Stream'.eta p.stream).symm.trans (by rw [hh]; rfl)
    obtain ⟨p', hp', hl⟩ := consume_reads t _ p _ hs
    rw [Stream'.eta] at hl
    exact ⟨p', hp', by rwa [behind_of_ok hh]⟩

/-- The next token is consumed even if it is not of the kind that is expected. -/
theorem expect_spec (kind : TokenKind) : ∃ p',
    expect kind p = (p.stream.head.bind fun t =>
      if t.kind = kind then .ok t else .error (.expected kind t.kind t.offset), p') ∧
    Leaves p p' (behind p.stream) := by
  obtain ⟨p', hp', hl⟩ := consume_spec p
  refine ⟨p', ?_, hl⟩
  rcases hh : p.stream.head with e | t <;> rw [hh] at hp'
  · exact Action.bind_error hp'
  · rw [expect, Action.bind_ok hp']
    simp only [Except.bind]
    split <;> rfl

theorem currentPrecedence_spec : ∃ p',
    currentPrecedence p = (p.stream.head.map fun t => t.kind.precedence, p') ∧
    Leaves p p' p.stream := by
  obtain ⟨p', hp', hl⟩ := lookAhead_zero p
  refine ⟨p', ?_, hl⟩
  rcases hh : p.stream.head with e | t <;> rw [hh] at hp'
  · exact Action.bind_error hp'
  · exact Action.bind_ok hp'

/-- The next token is taken if and only if it is of the kind. -/
theorem accept_spec (kind : TokenKind) : ∃ p',
    accept kind p = (p.stream.head.map fun t => decide (t.kind = kind), p') ∧
    Leaves p p' (if p.stream.head.map Token.kind = .ok kind then p.stream.tail else p.stream) := by
  obtain ⟨p', hp', hl⟩ := lookAhead_zero p
  rcases hh : p.stream.head with e | t <;> rw [hh] at hp'
  · exact ⟨p', Action.bind_error hp', by simpa [Except.map] using hl⟩
  rw [accept, Action.bind_ok hp']
  by_cases ht : t.kind = kind
  · obtain ⟨q, hq, hl'⟩ := consume_spec p'
    rw [hl.1, hh] at hq
    rw [hl.1, behind_of_ok hh] at hl'
    refine ⟨q, ?_, by simpa [Except.map, ht] using hl.trans hl'⟩
    rw [if_pos ht, Action.bind_ok hq]
    simp [Except.map, ht]
  · refine ⟨p', ?_, by simpa [Except.map, ht] using hl⟩
    rw [if_neg ht]
    simp [Except.map, ht]

end Calls

/-! ## What parsing takes -/

/-- Wherever it begins, the step takes some of the tokens that lie next before it. -/
def Takes (α : Type) (m : ParserM α) : Prop :=
  ∀ p, ∃ w : List Token, p.stream = w.map .ok ++ₛ (m p).2.stream ∧
    (m p).2.lexer.source = p.lexer.source

theorem takes_closed : Closed Takes where
  look p := by
    obtain ⟨q, hq, hl⟩ := lookAhead_zero p
    exact ⟨[], by rw [hq, hl.1]; rfl, by rw [hq, hl.2]⟩
  consume p := by
    obtain ⟨q, hq, hl⟩ := consume_spec p
    rcases hh : p.stream.head with e | t
    · rw [behind_of_error hh] at hl
      exact ⟨[], by rw [hq, hl.1]; rfl, by rw [hq, hl.2]⟩
    · rw [behind_of_ok hh] at hl
      refine ⟨[t], ?_, by rw [hq, hl.2]⟩
      rw [hq, hl.1]
      exact (Stream'.eta p.stream).symm.trans (by rw [hh]; rfl)
  pure _ p := ⟨[], rfl, rfl⟩
  throw _ p := ⟨[], rfl, rfl⟩
  bind {α β m f} hm hf p := by
    obtain ⟨w, hw, hsource⟩ := hm p
    rcases hr : m p with ⟨e | a, q⟩ <;> rw [hr] at hw hsource
    · rw [Action.bind_error hr]
      exact ⟨w, hw, hsource⟩
    · obtain ⟨v, hv, hsource'⟩ := hf a q
      rw [Action.bind_ok hr]
      refine ⟨w ++ v, ?_, hsource'.trans hsource⟩
      rw [hw, hv, List.map_append, Stream'.append_append_stream]
  traced {α m} signature explain describe hm p := by
    obtain ⟨f, g, h⟩ := traced_apply signature explain describe m p
    rw [h]
    exact hm (Journaled.update f p)

theorem parse_takes (limit : Option Nat) : Takes Expr (parse limit) := fun p =>
  takes_closed.expression (p.bound + 1) limit p

/-! ## Calls in any order -/

/-- What may be asked of a parser. -/
inductive Call where
  | look (distance : Nat)
  | consume
  | accept (kind : TokenKind)
  | expect (kind : TokenKind)
  | precedence
  | parse (limit : Option Nat)

/-- The parser after a call, whether it fails or not. -/
def perform (p : Parser) : Call → Parser
  | .look distance => (lookAhead distance p).2
  | .consume => (Parser.consume p).2
  | .accept kind => (Parser.accept kind p).2
  | .expect kind => (Parser.expect kind p).2
  | .precedence => (currentPrecedence p).2
  | .parse limit => (Parser.parse limit p).2

/-- A parser of a text after some calls. -/
def after (text : List Char) (journal : Journal) (calls : List Call) : Parser :=
  calls.foldl perform (ofChars text journal)

theorem perform_takes (p : Parser) (call : Call) :
    ∃ w : List Token, p.stream = w.map .ok ++ₛ (p.perform call).stream := by
  cases call with
  | look distance =>
    obtain ⟨q, hq, hl⟩ := lookAhead_spec p distance
    exact ⟨[], by rw [perform, hq, hl.1]; rfl⟩
  | consume => exact (takes_closed.consume p).imp fun _ h => h.1
  | accept kind => exact (takes_closed.assembled.accept kind p).imp fun _ h => h.1
  | expect kind => exact (takes_closed.assembled.expect kind p).imp fun _ h => h.1
  | precedence => exact (takes_closed.assembled.currentPrecedence p).imp fun _ h => h.1
  | parse limit => exact (parse_takes limit p).imp fun _ h => h.1

/-- The queue of a parser and what its lexer has yet to give are the replies of the text after some
first tokens. -/
theorem suffix_after (text : List Char) (journal : Journal) (calls : List Call) :
    ∃ w : List Token, replies text = w.map .ok ++ₛ (after text journal calls).stream := by
  induction calls using List.reverseRecOn with
  | nil => exact ⟨[], (Lexer.stream_ofChars text).symm⟩
  | append_singleton calls call ih =>
    obtain ⟨w, hw⟩ := ih
    obtain ⟨v, hv⟩ := perform_takes (after text journal calls) call
    refine ⟨w ++ v, ?_⟩
    have hstep : after text journal (calls ++ [call]) = (after text journal calls).perform call :=
      List.foldl_concat ..
    rw [hw, hv, hstep, List.map_append, Stream'.append_append_stream]

/-! ## A parser under watch -/

/-- A parser, and the most tokens that its queue has held so far. -/
structure Watched where
  parser : Parser
  most : Nat

namespace Watched

/-- The watch begins with the queue as it is. -/
def start (p : Parser) : Watched := ⟨p, p.pending.length⟩

/-- Whenever the queue changes, it is measured. -/
def become (w : Watched) (p : Parser) : Watched := ⟨p, max w.most p.pending.length⟩

instance : Journaled Watched :=
  ⟨fun w => w.parser.journal, fun w j => { w with parser := Journaled.withJournal w.parser j }⟩

instance : ParserState Watched :=
  ⟨parser, fun w => ((pull w.parser).1, w.become (pull w.parser).2), fun w => w.become w.parser.drop⟩

section Erasure
variable {α β : Type} {m : Action Watched SyntaxError α} {m' : ParserM α}

@[simp] theorem parser_watched (w : Watched) : ParserState.parser w = w.parser := rfl

/-- The step does on a parser under watch what the other one does on the parser. -/
def Erases (α : Type) (m : Action Watched SyntaxError α) (m' : ParserM α) : Prop :=
  ∀ w, ((m w).1, (m w).2.parser) = m' w.parser

theorem erases_bind {f : α → Action Watched SyntaxError β} {f' : α → ParserM β}
    (hm : Erases α m m') (hf : ∀ a, Erases β (f a) (f' a)) : Erases β (m >>= f) (m' >>= f') := by
  intro w
  have h := hm w
  rcases hr : m w with ⟨e | a, v⟩ <;> rw [hr] at h
  · rw [Action.bind_error hr, Action.bind_error h.symm]
  · rw [Action.bind_ok hr, Action.bind_ok h.symm]
    exact hf a v

/-- A step that goes on with the state goes on alike with the parser. -/
theorem erases_get {f : Watched → Action Watched SyntaxError β} {f' : Parser → ParserM β}
    (hf : ∀ w, Erases β (f w) (f' w.parser)) : Erases β (get >>= f) (get >>= f') :=
  fun w => hf w w

theorem erases_pullMany (n : Nat) : Erases Unit (pullMany n) (pullMany n) := by
  induction n with
  | zero => exact fun _ => rfl
  | succ n ih => exact erases_bind (fun _ => rfl) fun _ => ih

theorem erases_lookAhead (distance : Nat) : Erases Token (lookAhead distance) (lookAhead distance) := by
  refine erases_get fun w => erases_bind (erases_pullMany _) fun _ => erases_get fun v => ?_
  simp only [parser_watched, parser_eq]
  split <;> exact fun _ => rfl

theorem erases_traced (h : Erases α m m') (signature : Parser → String)
    (explain : SyntaxError → String) (describe : α → String) :
    Erases α (traced (signature ∘ parser) explain (fun a => .ok (describe a)) m)
      (traced signature explain (fun a => .ok (describe a)) m') := by
  intro w
  rcases hj : w.parser.journal.enabled with - | -
  · rw [traced_of_disabled (s := w) hj, traced_of_disabled hj, h]
  · have hw : (Journaled.journal w).enabled = true := hj
    have hp : (Journaled.journal w.parser).enabled = true := hj
    have hm := h (Journaled.update (fun j => (j.record (.call (signature w.parser))).deeper) w)
    rcases hr : m (Journaled.update (fun j => (j.record (.call (signature w.parser))).deeper) w) with
      ⟨e | a, v⟩
    all_goals
      rw [hr] at hm
      have hm' : m' (Journaled.update (fun j => (j.record (.call (signature w.parser))).deeper)
        w.parser) = (_, v.parser) := hm.symm
      simp only [traced, hw, hp, if_true, Function.comp_apply, hr, hm']
      rfl

theorem erases_related : Related Erases where
  look := erases_lookAhead 0
  consume := erases_bind (erases_lookAhead 0) fun _ => erases_bind (fun _ => rfl) fun _ _ => rfl
  pure _ _ := rfl
  throw _ _ := rfl
  bind := erases_bind
  call _ hf _ := erases_traced (erases_bind
    (erases_bind (erases_lookAhead 0) fun _ => erases_bind (fun _ => rfl) fun _ _ => rfl) hf) _ _ _

theorem erases_parse (limit : Option Nat) : Erases Expr (parse limit) (parse limit) :=
  erases_get fun w => erases_related.expression (w.parser.bound + 1) limit

end Erasure

/-! ## Reading looks one token ahead -/

/-- The queue has never held more than `b` tokens. -/
structure Within (b : Nat) (w : Watched) : Prop where
  so_far : w.most ≤ b
  now : w.parser.pending.length ≤ b

section Within
variable {b : Nat} {w : Watched}

theorem Within.become (h : w.Within b) {p : Parser} (hp : p.pending.length ≤ b) :
    (w.become p).Within b := ⟨Nat.max_le.2 ⟨h.so_far, hp⟩, hp⟩

theorem length_pull_le (p : Parser) : (Parser.pull p).2.pending.length ≤ p.pending.length + 1 := by
  rcases pull_cases p with ⟨t, l, -, hp⟩ | ⟨e, l, -, hp⟩ <;> simp [hp]

theorem pullMany_within (n : Nat) (h : w.Within b) (hb : w.parser.pending.length + n ≤ b) :
    (pullMany n w).2.Within b := by
  induction n generalizing w with
  | zero => exact h
  | succ n ih =>
    have hle := length_pull_le w.parser
    have hv : (w.become (Parser.pull w.parser).2).Within b := h.become (by omega)
    rcases hp : (Parser.pull w.parser).1 with e | u
    · have hpull : ParserState.pull w = (.error e, w.become (Parser.pull w.parser).2) :=
        Prod.ext hp rfl
      rwa [pullMany, Action.bind_error hpull]
    · have hpull : ParserState.pull w = (.ok u, w.become (Parser.pull w.parser).2) := Prod.ext hp rfl
      rw [pullMany, Action.bind_ok hpull]
      exact ih hv (show (Parser.pull w.parser).2.pending.length + n ≤ b by omega)

/-- Looking ahead fills the queue up to the token that is looked at, and no further. -/
theorem lookAhead_within {distance : Nat} (h : w.Within b) (hb : distance < b) :
    (lookAhead distance w).2.Within b := by
  have hle := h.now
  have hmany := pullMany_within (distance + 1 - w.parser.pending.length) h (by omega)
  rcases hm : pullMany (distance + 1 - w.parser.pending.length) w with ⟨e | u, v⟩ <;> rw [hm] at hmany
  · simpa [lookAhead, Action.bind_apply, hm] using hmany
  · simp only [lookAhead, Action.bind_apply, Action.get_apply, parser_watched, hm]
    -- Whether the token is there or not, nothing is pulled any more.
    cases v.parser.pending[distance]? <;> exact hmany

end Within

/-- Begun with at most `b` tokens in the queue, the step never has more in it. -/
def Keeps (b : Nat) (α : Type) (m : Action Watched SyntaxError α) : Prop :=
  ∀ w, w.Within b → (m w).2.Within b

theorem keeps_closed {b : Nat} (hb : 0 < b) : Closed (Keeps b) where
  look _ h := lookAhead_within h hb
  consume w h := by
    have hlook := lookAhead_within h hb
    rcases hm : lookAhead 0 w with ⟨e | t, v⟩ <;> rw [hm] at hlook
    · rwa [consume, Action.bind_error hm]
    · rw [consume, Action.bind_ok hm]
      exact hlook.become (le_trans (by simp [drop]) hlook.now)
  pure _ _ h := h
  throw _ _ h := h
  bind {α β m f} hm hf w h := by
    have hv := hm w h
    rcases hr : m w with ⟨e | a, v⟩ <;> rw [hr] at hv
    · rwa [Action.bind_error hr]
    · rw [Action.bind_ok hr]
      exact hf a v hv
  traced {α m} signature explain describe hm w h := by
    unfold traced
    split
    · have hv := hm (Journaled.update (fun j => (j.record (.call (signature w))).deeper) w) ⟨h.1, h.2⟩
      rcases hr : m (Journaled.update (fun j => (j.record (.call (signature w))).deeper) w) with
        ⟨e | a, v⟩
      all_goals
        rw [hr] at hv
        simp only [hr]
        exact ⟨hv.1, hv.2⟩
    · exact hm w h

/-- While an expression is read, the queue holds no more than one token, unless it held more when the
reading began. -/
theorem most_parse_le (limit : Option Nat) (p : Parser) :
    (parse limit (start p)).2.most ≤ max 1 p.pending.length :=
  have hstart : (start p).Within (max 1 p.pending.length) :=
    ⟨Nat.le_max_right .., Nat.le_max_right ..⟩
  ((keeps_closed (Nat.lt_of_lt_of_le Nat.one_pos (Nat.le_max_left ..))).expression (p.bound + 1) limit
    (start p) hstart).so_far

end Watched

/-- At a parser of the text the calls keep the order of the tokens: the queue and what the lexer has yet
to give are the replies of the text after some first tokens; looking ahead leaves them as they are;
consuming takes just the first of them, also if it is not what was expected, and `accept` takes it just
if it is; reading an expression takes some first ones. Where the lexer has an error, nothing is taken. -/
structure InOrder (text : List Char) (p : Parser) : Prop where
  suffix : ∃ w : List Token, replies text = w.map .ok ++ₛ p.stream
  look : ∀ n, (lookAhead n p).1 = p.stream.get n ∧ (lookAhead n p).2.stream = p.stream
  precedence : (currentPrecedence p).1 = p.stream.head.map (fun t => t.kind.precedence) ∧
    (currentPrecedence p).2.stream = p.stream
  consume : (consume p).1 = p.stream.head ∧ (Parser.consume p).2.stream = behind p.stream
  expect : ∀ kind, (expect kind p).1 = p.stream.head.bind (fun t =>
      if t.kind = kind then .ok t else .error (.expected kind t.kind t.offset)) ∧
    (Parser.expect kind p).2.stream = behind p.stream
  accept : ∀ kind, (accept kind p).1 = p.stream.head.map (fun t => decide (t.kind = kind)) ∧
    (Parser.accept kind p).2.stream =
      if p.stream.head.map Token.kind = .ok kind then p.stream.tail else p.stream
  parse : ∀ limit, ∃ w : List Token, p.stream = w.map .ok ++ₛ (parse limit p).2.stream

/-- After any calls, failed ones among them, a parser keeps the tokens of its text in order. Under watch
a new parser reads an expression as it does without, and its queue never holds more than one token while
it reads. -/
theorem queue_keeps_order (text : List Char) (journal : Journal) :
    (∀ calls, InOrder text (after text journal calls)) ∧
      ∀ limit, ∃ r w, parse limit (Watched.start (ofChars text journal)) = (r, w) ∧
        parse limit (ofChars text journal) = (r, w.parser) ∧ w.most ≤ 1 := by
  refine ⟨fun calls => ?_, fun limit => ?_⟩
  · generalize hp : after text journal calls = p
    constructor
    · exact hp ▸ suffix_after text journal calls
    · intro n
      obtain ⟨q, hq, hl⟩ := lookAhead_spec p n
      exact ⟨by rw [hq], by rw [hq, hl.1]⟩
    · obtain ⟨q, hq, hl⟩ := currentPrecedence_spec p
      exact ⟨by rw [hq], by rw [hq, hl.1]⟩
    · obtain ⟨q, hq, hl⟩ := consume_spec p
      exact ⟨by rw [hq], by rw [hq, hl.1]⟩
    · intro kind
      obtain ⟨q, hq, hl⟩ := expect_spec p kind
      exact ⟨by rw [hq], by rw [hq, hl.1]⟩
    · intro kind
      obtain ⟨q, hq, hl⟩ := accept_spec p kind
      exact ⟨by rw [hq], by rw [hq, hl.1]⟩
    · exact fun limit => (parse_takes limit p).imp fun _ h => h.1
  · exact ⟨_, _, rfl, (Watched.erases_parse limit (Watched.start (ofChars text journal))).symm,
      Watched.most_parse_le limit (ofChars text journal)⟩

end ComplexCalc.Parser
