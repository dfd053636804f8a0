import ComplexCalc.Parser
import ComplexCalc.Proofs.Actions
import Mathlib.Data.Stream.Init
/-!
# The stream of tokens before a parser

A lexer gives tokens for ever: those of its text, and then the end of the text or an error again and
again. The stream of a parser is its queue and then what its lexer gives. Looking ahead leaves the
stream as it is and consuming takes its first token, so what a parser does is told by words: `Reads`
says which tokens a step takes on its way to a result, and `Fails` at which reply it gives up.
-/
namespace ComplexCalc

/-- What a lexer answers when it is asked for a token. -/
abbrev Reply := Except SyntaxError Token

/-- The replies to all questions to come. -/
abbrev TokenStream := Stream' Reply

/-! ## Errors of a scan -/

/-- What a scan is stopped by is the first character behind the blanks. -/
theorem scanWith_error {kinds : List TokenKind} {offset : Nat} {cs : List Char} {e : SyntaxError}
    (h : scanWith kinds offset cs = .error e) :
    ∃ c rest, cs.dropWhile Text.isBlank = c :: rest ∧ Text.isBlank c = false ∧
      TokenKind.firstAmong kinds (c :: rest) = none ∧
      e = .unknownCharacter c (offset + (cs.takeWhile Text.isBlank).length) := by
  induction cs generalizing offset with
  | nil => cases h
  | cons c cs ih =>
    rw [scanWith] at h
    split at h
    · cases h
    · rename_i hk
      split at h
      · rename_i hc
        obtain ⟨d, rest, hrest, hd, hnone, he⟩ := ih h
        refine ⟨d, rest, ?_, hd, hnone, ?_⟩
        · rw [List.dropWhile_cons_of_pos hc, hrest]
        · rw [he, List.takeWhile_cons_of_pos hc, List.length_cons, Nat.add_right_comm, Nat.add_assoc]
      · rename_i hc
        refine ⟨c, cs, List.dropWhile_cons_of_neg hc, by simpa using hc, hk, ?_⟩
        rw [List.takeWhile_cons_of_neg hc]
        cases h
        rfl

/-! ## The stream of a lexer -/

namespace Lexer

/-- Behind the blanks a lexer scans the same error, at its own place, and skips no more. -/
theorem scan_skipBlanks {l : Lexer} {e : SyntaxError} (h : scan l.offset l.rest = .error e) :
    scan l.skipBlanks.offset l.skipBlanks.rest = .error e ∧ l.skipBlanks.offset = e.offset ∧
      l.skipBlanks.skipBlanks = l.skipBlanks := by
  obtain ⟨c, rest, hrest, hc, hk, rfl⟩ := scanWith_error h
  refine ⟨?_, rfl, ?_⟩
  · simp [skipBlanks, hrest, scan, scanWith, hk, hc]
  · simp [skipBlanks, hrest, hc]

/-- Looking again finds the same. -/
theorem peek_peek (l : Lexer) : l.peek.2.peek = l.peek := by
  rcases hp : l.peeked with - | t
  · rcases hs : scan l.offset l.rest with e | ⟨t, rest⟩
    · obtain ⟨hagain, -, hskip⟩ := scan_skipBlanks hs
      have hnone : l.skipBlanks.peeked = none := hp
      simp [peek, hp, hs, hnone, hagain, hskip]
    · simp [peek, hp, hs]
  · simp [peek, hp]

theorem peek_of_next_error {l l' : Lexer} {e : SyntaxError} (h : l.next = (.error e, l')) :
    l.peek = (.error e, l') := by
  unfold next at h
  grind

/-- A lexer that has met an error meets it again and again. -/
theorem next_error {l l' : Lexer} {e : SyntaxError} (h : l.next = (.error e, l')) :
    l'.next = (.error e, l') := by
  have hagain : l'.peek = (.error e, l') := by
    simpa [peek_of_next_error h] using l.peek_peek
  simp [next, hagain]

/-- The replies that a lexer gives to one `next` after the other. -/
def stream (l : Lexer) : TokenStream := Stream'.corec (fun l => l.next.1) (fun l => l.next.2) l

theorem stream_eq (l : Lexer) : l.stream = .cons l.next.1 l.next.2.stream := Stream'.corec_eq _ _ l

theorem stream_of_next {l l' : Lexer} {r : Reply} {s : TokenStream} (h : l.next = (r, l'))
    (hs : l'.stream = s) : l.stream = .cons r s := by
  rw [stream_eq, h, ← hs]

/-- A lexer that stays where it is repeats itself. -/
theorem stream_eq_const {l : Lexer} {r : Reply} (h : l.next = (r, l)) : l.stream = .const r := by
  refine Stream'.ext fun n => ?_
  induction n with
  | zero => rw [stream_eq, h]; rfl
  | succ n ih =>
    rw [stream_eq, h]
    exact ih

/-- The replies after an error are the ones that came before it. -/
theorem stream_error {l l' : Lexer} {e : SyntaxError} (h : l.next = (.error e, l')) :
    l.stream = .const (.error e) ∧ l'.stream = .const (.error e) := by
  have hl' := stream_eq_const (next_error h)
  exact ⟨by rw [stream_of_next h hl', ← Stream'.const_eq], hl'⟩

theorem source_next (l : Lexer) : l.next.2.source = l.source := by
  unfold next peek skipBlanks
  grind

end Lexer

/-! ## The stream of a parser -/

namespace Parser

/-- The tokens that wait to be consumed, and then what the lexer gives. -/
def stream (p : Parser) : TokenStream := p.pending.map .ok ++ₛ p.lexer.stream

/-- A step from `p` to `p'` that keeps the text, after which `s` is left to read. -/
def Leaves (p p' : Parser) (s : TokenStream) : Prop :=
  p'.stream = s ∧ p'.lexer.source = p.lexer.source

theorem Leaves.trans {p q r : Parser} {s s' : TokenStream} (h : Leaves p q s) (h' : Leaves q r s') :
    Leaves p r s' := ⟨h'.1, h'.2.trans h.2⟩

theorem pull_ok {p : Parser} {t : Token} {s : TokenStream} (hp : p.pending = [])
    (h : p.stream = .cons (.ok t) s) :
    ∃ p', pull p = (.ok (), p') ∧ p'.pending = [t] ∧ Leaves p p' (.cons (.ok t) s) := by
  rw [stream, hp, List.map_nil, Stream'.nil_append_stream, Lexer.stream_eq] at h
  obtain ⟨ht, hs⟩ := Stream'.cons_injective2 h
  rcases hn : p.lexer.next with ⟨r, l⟩
  rw [hn] at ht hs
  cases ht
  refine ⟨{ p with lexer := l, pending := [t] }, by simp [pull, hn, hp], rfl, ?_, ?_⟩
  · simp only [stream, List.map_cons, List.map_nil, Stream'.cons_append_stream,
      Stream'.nil_append_stream, ← hs]
  · simpa [hn] using p.lexer.source_next

theorem pull_error {p : Parser} {e : SyntaxError} {s : TokenStream} (hp : p.pending = [])
    (h : p.stream = .cons (.error e) s) :
    ∃ p', pull p = (.error e, p') ∧ Leaves p p' (.cons (.error e) s) := by
  have hstream := h
  rw [stream, hp, List.map_nil, Stream'.nil_append_stream, Lexer.stream_eq] at h
  obtain ⟨he, -⟩ := Stream'.cons_injective2 h
  rcases hn : p.lexer.next with ⟨r, l⟩
  rw [hn] at he
  cases he
  obtain ⟨hfirst, hagain⟩ := Lexer.stream_error hn
  refine ⟨{ p with lexer := l }, by simp only [pull, hn], ?_, ?_⟩
  · rw [← hstream, stream, stream, hfirst, hagain]
  · simpa [hn] using p.lexer.source_next

/-- Looking at the next token finds the first reply of the stream, and leaves a token in the
queue. -/
theorem lookAhead_ok {p : Parser} {t : Token} {s : TokenStream} (h : p.stream = .cons (.ok t) s) :
    ∃ p' rest, lookAhead 0 p = (.ok t, p') ∧ p'.pending = t :: rest ∧
      Leaves p p' (.cons (.ok t) s) := by
  rcases hp : p.pending with - | ⟨u, rest⟩
  · obtain ⟨p', hpull, hp', hl⟩ := pull_ok hp h
    refine ⟨p', [], ?_, hp', hl⟩
    simp [lookAhead, pullMany, Action.bind_apply, hp, hpull, hp']
  · have ht : u = t := by
      rw [stream, hp, List.map_cons, Stream'.cons_append_stream] at h
      exact Except.ok.inj (Stream'.cons_injective2 h).1
    exact ⟨p, rest, by simp [lookAhead, pullMany, Action.bind_apply, hp, ht], ht ▸ hp, h, rfl⟩

theorem lookAhead_error {p : Parser} {e : SyntaxError} {s : TokenStream}
    (h : p.stream = .cons (.error e) s) :
    ∃ p', lookAhead 0 p = (.error e, p') ∧ Leaves p p' (.cons (.error e) s) := by
  rcases hp : p.pending with - | ⟨u, rest⟩
  · obtain ⟨p', hpull, hl⟩ := pull_error hp h
    exact ⟨p', by simp [lookAhead, pullMany, Action.bind_apply, hp, hpull], hl⟩
  · rw [stream, hp, List.map_cons, Stream'.cons_append_stream] at h
    cases (Stream'.cons_injective2 h).1

/-! ## What a step reads -/

variable {α β : Type}

/-- The reply after some tokens, where `x` comes after all of them. -/
def next : List Token → Reply → Reply
  | [], x => x
  | t :: _, _ => .ok t

/-- Whenever the tokens `w` lie before the step and `x` after them, it gives `a` and takes just
these tokens. -/
def Reads (m : ParserM α) (w : List Token) (x : Reply) (a : α) : Prop :=
  ∀ p s, p.stream = w.map .ok ++ₛ .cons x s → ∃ p', m p = (.ok a, p') ∧ Leaves p p' (.cons x s)

/-- What is left after giving up at a reply, which is taken if it is a token. -/
def afterFailure (x : Reply) (s : TokenStream) : TokenStream :=
  match x with
  | .ok _ => s
  | .error _ => .cons x s

/-- Whenever the tokens `w` lie before the step and `x` after them, it takes them and gives up at
`x`. -/
def Fails (m : ParserM α) (w : List Token) (x : Reply) (e : SyntaxError) : Prop :=
  ∀ p s, p.stream = w.map .ok ++ₛ .cons x s →
    ∃ p', m p = (.error e, p') ∧ Leaves p p' (afterFailure x s)

@[simp] theorem next_nil (x : Reply) : next [] x = x := rfl

@[simp] theorem next_cons (t : Token) (w : List Token) (x : Reply) : next (t :: w) x = .ok t := rfl

theorem next_append (w v : List Token) (x : Reply) : next (w ++ v) x = next w (next v x) := by
  cases w <;> rfl

/-- The tokens of a word and a reply after them are the first reply and others after it. -/
theorem exists_stream_eq_cons (w : List Token) (x : Reply) (s : TokenStream) :
    ∃ s', w.map .ok ++ₛ .cons x s = .cons (next w x) s' := by
  cases w with
  | nil => exact ⟨s, rfl⟩
  | cons t w => exact ⟨w.map .ok ++ₛ .cons x s, rfl⟩

theorem Reads.pure (a : α) (x : Reply) : Reads (pure a) [] x a := fun p _ h => ⟨p, rfl, h, rfl⟩

/-- A step that reads the first tokens leaves the others for the next one. -/
theorem Reads.leaves {m : ParserM α} {w v : List Token} {x : Reply} {a : α} {p : Parser}
    {s : TokenStream} (h : Reads m w (next v x) a)
    (hp : p.stream = (w ++ v).map .ok ++ₛ .cons x s) :
    ∃ q, m p = (.ok a, q) ∧ Leaves p q (v.map .ok ++ₛ .cons x s) := by
  -- Behind its own tokens the step finds the reply that the next one begins with.
  obtain ⟨s', hs'⟩ := exists_stream_eq_cons v x s
  rw [List.map_append, Stream'.append_append_stream, hs'] at hp
  rw [hs']
  exact h p s' hp

theorem Reads.bind {m : ParserM α} {f : α → ParserM β} {w v : List Token} {x : Reply} {a : α}
    {b : β} (h : Reads m w (next v x) a) (h' : Reads (f a) v x b) : Reads (m >>= f) (w ++ v) x b := by
  intro p s hp
  obtain ⟨q, hq, hlq⟩ := h.leaves hp
  obtain ⟨r, hr, hlr⟩ := h' q s hlq.1
  exact ⟨r, by rw [Action.bind_ok hq, hr], hlq.trans hlr⟩

/-- A step whose result is put into another one. -/
theorem Reads.map {m : ParserM α} {w : List Token} {x : Reply} {a : α} (h : Reads m w x a)
    (g : α → β) : Reads (m >>= fun a => Pure.pure (g a)) w x (g a) := by
  have hr := h.bind (f := fun a => Pure.pure (g a)) (v := []) (Reads.pure (g a) x)
  rwa [List.append_nil] at hr

theorem Fails.bind {m : ParserM α} (f : α → ParserM β) {w : List Token} {x : Reply}
    {e : SyntaxError} (h : Fails m w x e) : Fails (m >>= f) w x e := by
  intro p s hp
  obtain ⟨q, hq, hlq⟩ := h p s hp
  exact ⟨q, Action.bind_error hq, hlq⟩

theorem Reads.bind_fails {m : ParserM α} {f : α → ParserM β} {w v : List Token} {x : Reply} {a : α}
    {e : SyntaxError} (h : Reads m w (next v x) a) (h' : Fails (f a) v x e) :
    Fails (m >>= f) (w ++ v) x e := by
  intro p s hp
  obtain ⟨q, hq, hlq⟩ := h.leaves hp
  obtain ⟨r, hr, hlr⟩ := h' q s hlq.1
  exact ⟨r, by rw [Action.bind_ok hq, hr], hlq.trans hlr⟩

/-! ## Tokens -/

theorem lookAhead_reads (t : Token) : Reads (lookAhead 0) [] (.ok t) t := by
  intro p s h
  obtain ⟨p', -, hp', -, hl⟩ := lookAhead_ok h
  exact ⟨p', hp', hl⟩

theorem lookAhead_fails (e : SyntaxError) : Fails (lookAhead 0) [] (.error e) e := by
  intro p s h
  exact lookAhead_error h

theorem consume_reads (t : Token) (x : Reply) : Reads consume [t] x t := by
  intro p s h
  obtain ⟨q, rest, hq, hpend, hst, hsrc⟩ := lookAhead_ok h
  refine ⟨q.drop, by rw [consume, Action.bind_ok hq]; rfl, ?_, hsrc⟩
  simp only [stream, hpend, List.map_cons, Stream'.cons_append_stream] at hst
  simpa [drop, stream, hpend] using (Stream'.cons_injective2 hst).2

theorem consume_fails (e : SyntaxError) : Fails consume [] (.error e) e :=
  (lookAhead_fails e).bind _

/-- A step that takes a token and has no use for it fails at that token. -/
theorem consume_refuses {f : Token → ParserM β} {t : Token} {e : SyntaxError} (h : f t = throw e) :
    Fails (consume >>= f) [] (.ok t) e := by
  intro p s hp
  obtain ⟨s', hs'⟩ : ∃ s', s = .cons s.head s' := ⟨s.tail, (Stream'.eta s).symm⟩
  obtain ⟨q, hq, hlq⟩ := consume_reads t s.head p s' (by rw [← hs']; exact hp)
  exact ⟨q, by rw [Action.bind_ok hq, h]; rfl, by rw [afterFailure, hs']; exact hlq⟩

theorem expect_reads {kind : TokenKind} {t : Token} (h : t.kind = kind) (x : Reply) :
    Reads (expect kind) [t] x t := by
  refine (consume_reads t x).bind (v := []) ?_
  simpa [h] using Reads.pure t x

theorem expect_fails {kind : TokenKind} {t : Token} (h : t.kind ≠ kind) :
    Fails (expect kind) [] (.ok t) (.expected kind t.kind t.offset) :=
  consume_refuses (if_neg h)

theorem accept_reads {kind : TokenKind} {t : Token} (h : t.kind = kind) (x : Reply) :
    Reads (accept kind) [t] x true := by
  refine (lookAhead_reads t).bind (w := []) (v := [t]) ?_
  rw [if_pos h]
  exact (consume_reads t x).bind (v := []) (Reads.pure true x)

theorem accept_skips {kind : TokenKind} {t : Token} (h : t.kind ≠ kind) :
    Reads (accept kind) [] (.ok t) false := by
  refine (lookAhead_reads t).bind (w := []) (v := []) ?_
  rw [if_neg h]
  exact Reads.pure false _

theorem currentPrecedence_reads (t : Token) :
    Reads currentPrecedence [] (.ok t) t.kind.precedence :=
  (lookAhead_reads t).bind (w := []) (v := []) (Reads.pure _ _)

/-! ## The loops -/

section Loops
variable {nested : Nested Parser}

/-- The loop over the arguments of a call, with its next round written out. -/
theorem moreArguments_succ (fuel : Nat) :
    moreArguments nested (fuel + 1) = (do
      if ← accept .comma then
        let e ← nested none
        return e :: (← moreArguments nested fuel)
      else pure []) := by
  rw [moreArguments, argumentRound, bind_assoc]
  refine bind_congr fun comma => ?_
  split <;> simp

/-- The loop behind an operand, with its next round written out. -/
theorem operators_succ (limit fuel : Nat) (left : Expr) :
    operators nested limit (fuel + 1) left = (do
      if limit < (← currentPrecedence) then
        let t ← consume
        operators nested limit fuel (← operator nested fuel left t)
      else pure left) := by
  rw [operators, operatorRound, bind_assoc]
  refine bind_congr fun k => ?_
  split <;> simp

end Loops

/-! ## Traced steps -/

theorem stream_update (f : Journal → Journal) (p : Parser) :
    (Journaled.update f p).stream = p.stream := rfl

section Traced
variable {m : ParserM α} {w : List Token} {x : Reply}
variable (signature : Parser → String) (explain : SyntaxError → String) (describe : α → String)

/-- Tracing a step changes nothing but the journals in which it begins and ends. -/
theorem traced_apply (m : ParserM α) (p : Parser) : ∃ f g : Journal → Journal,
      traced signature explain (fun a => .ok (describe a)) m p =
        ((m (Journaled.update f p)).1, Journaled.update g (m (Journaled.update f p)).2) := by
  unfold traced
  split
  · refine ⟨fun j => (j.record (.call (signature p))).deeper, ?_⟩
    rcases hm : m (Journaled.update (fun j => (j.record (.call (signature p))).deeper) p) with
      ⟨e | a, q⟩
    · exact ⟨fun j => j.shallower.record (.failed (signature p) (explain e)), by simp only [hm]⟩
    · refine ⟨fun j => j.shallower.record (.returned (signature p) (describe a)), ?_⟩
      simp only [hm]
      rfl
  · exact ⟨id, id, rfl⟩

/-- Tracing a step does not change what it reads. -/
theorem Reads.traced {a : α} (h : Reads m w x a) :
    Reads (traced signature explain (fun a => .ok (describe a)) m) w x a := by
  intro p s hp
  obtain ⟨f, g, htraced⟩ := traced_apply signature explain describe m p
  obtain ⟨q, hq, hl⟩ := h _ s ((stream_update f p).trans hp)
  rw [htraced, hq]
  exact ⟨_, rfl, hl⟩

/-- Tracing a step does not change where it fails. -/
theorem Fails.traced {e : SyntaxError} (h : Fails m w x e) :
    Fails (traced signature explain (fun a => .ok (describe a)) m) w x e := by
  intro p s hp
  obtain ⟨f, g, htraced⟩ := traced_apply signature explain describe m p
  obtain ⟨q, hq, hl⟩ := h _ s ((stream_update f p).trans hp)
  rw [htraced, hq]
  exact ⟨_, rfl, hl⟩

end Traced

end Parser
end ComplexCalc
