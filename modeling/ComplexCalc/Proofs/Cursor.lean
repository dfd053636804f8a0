import ComplexCalc.Proofs.Lexing
import Mathlib.Data.List.Induction
/-!
# The lexer is a cursor

Whatever is asked of a lexer, and in whichever order, it answers like a place in one fixed sequence of
replies: the tokens of its text, and then for ever the end of the text or the error that stops them
short. The token that a lexer has looked at, the position behind it and the mark that the end was taken
are its own way to keep this place.
-/
namespace ComplexCalc

/-! ## The replies of a text -/

/-- The tokens of a text, and then for ever its end or the error that stops them short. -/
def replies (text : List Char) : TokenStream :=
  (tokens text).1.map .ok ++ₛ .const (((tokens text).2.map .error).getD (.ok (.ending text)))

/-- The end of a text is among its tokens and is the reply that is repeated. -/
theorem exists_replies (text : List Char) :
    ∃ w z, Lexes 0 text w z ∧ replies text = w.map .ok ++ₛ .const z := by
  obtain ⟨w, z, h, htokens⟩ := exists_lexes 0 text
  refine ⟨w, z, h, ?_⟩
  rw [replies, tokens, htokens]
  rcases Lexes.reply (Nat.zero_le _) (by rwa [List.drop_zero]) with rfl | ⟨c, k, rfl, -⟩
  · simp only [listing, List.map_append, Stream'.append_append_stream]
    exact congrArg _ (Stream'.const_eq _).symm
  · rfl

theorem Lexer.stream_ofChars (text : List Char) : (ofChars text).stream = replies text := by
  obtain ⟨w, z, h, hs⟩ := exists_replies text
  rw [hs, stream_of_lexes h rfl rfl rfl]

/-- An error comes after all tokens. -/
theorem eq_error_of_get {w : List Token} {z : Reply} {n : Nat} {e : SyntaxError}
    (h : (w.map .ok ++ₛ .const z : TokenStream).get n = .error e) : z = .error e := by
  induction w generalizing n with
  | nil => exact h
  | cons t w ih =>
    cases n with
    | zero => cases h
    | succ n => exact ih h

/-- Among the replies of a text, an error is a character with which no token begins. -/
theorem stuckAt_of_replies {text : List Char} {n : Nat} {e : SyntaxError}
    (h : (replies text).get n = .error e) : ∃ c k, e = .unknownCharacter c k ∧ StuckAt text k c := by
  obtain ⟨w, z, hw, hs⟩ := exists_replies text
  obtain rfl := eq_error_of_get (hs ▸ h)
  rcases Lexes.reply (Nat.zero_le _) (by rwa [List.drop_zero]) with hz | ⟨c, k, hz, hk⟩
  · cases hz
  · cases hz
    exact ⟨c, k, rfl, hk⟩

/-! ## What the calls of a lexer do -/

namespace Lexer

theorem next_fst (l : Lexer) : l.next.1 = l.peek.1 := by
  unfold next
  split <;> rename_i h <;> rw [h]
  split <;> rfl

theorem next_peek (l : Lexer) : l.peek.2.next = l.next := by
  unfold next
  rw [peek_peek]

theorem stream_peek (l : Lexer) : l.peek.2.stream = l.stream := by
  rw [stream_eq, next_peek, ← stream_eq]

theorem source_peek (l : Lexer) : l.peek.2.source = l.source := by
  unfold peek skipBlanks
  grind

theorem finished_peek (l : Lexer) : l.peek.2.finished = l.finished := by
  unfold peek skipBlanks
  grind

/-- Taking the end of the text again gives it again. -/
theorem next_ending {l l' : Lexer} {t : Token} (h : l.next = (.ok t, l')) (ht : t.kind = .eof) :
    l'.peeked = some t ∧ l'.finished = true := by
  unfold next peek at h
  grind

theorem finished_next {l l' : Lexer} {t : Token} (h : l.next = (.ok t, l')) (ht : t.kind ≠ .eof) :
    l'.finished = l.finished := by
  unfold next peek at h
  grind

/-! ## Calls -/

/-- What may be asked of a lexer. -/
inductive Call where
  | next | peek | hasNext | restart
deriving DecidableEq, Repr

/-- The answer to a call. -/
inductive Answer where
  | reply (r : Reply)
  | more (b : Bool)
  | done

/-- The answers to calls one after the other, and the state after all of them. -/
def Call.run {σ : Type} (perform : σ → Call → Answer × σ) : σ → List Call → List Answer × σ
  | s, [] => ([], s)
  | s, c :: cs =>
    let (answer, s) := perform s c
    let (answers, s) := run perform s cs
    (answer :: answers, s)

def perform (l : Lexer) : Call → Answer × Lexer
  | .next => (.reply l.next.1, l.next.2)
  | .peek => (.reply l.peek.1, l.peek.2)
  | .hasNext => (.more l.hasNext, l)
  | .restart => (.done, l.restart)

/-- A lexer of a text after some calls. -/
def after (text : List Char) (calls : List Call) : Lexer := (Call.run perform (ofChars text) calls).2

/-- A place in a sequence of replies. -/
structure Cursor where
  place : Nat
  /-- Whether the end of the text was taken. -/
  ended : Bool

namespace Cursor

def start : Cursor := ⟨0, false⟩

/-- The cursor after this reply was taken: only a token before the end is passed. -/
def past (c : Cursor) : Reply → Cursor
  | .ok t => if t.kind = .eof then { c with ended := true } else { c with place := c.place + 1 }
  | .error _ => c

def perform (s : TokenStream) (c : Cursor) : Call → Answer × Cursor
  | .next => (.reply (s.get c.place), c.past (s.get c.place))
  | .peek => (.reply (s.get c.place), c)
  | .hasNext => (.more !c.ended, c)
  | .restart => (.done, start)

/-- The cursor after some calls. -/
def after (s : TokenStream) (calls : List Call) : Cursor := (Call.run (perform s) start calls).2

end Cursor

/-! ## A lexer keeps a place -/

/-- The lexer stands where the cursor says. -/
structure At (text : List Char) (c : Cursor) (l : Lexer) : Prop where
  source : l.source = text
  stream : l.stream = (replies text).drop c.place
  finished : l.finished = c.ended

namespace At

variable {text : List Char} {c : Cursor} {l : Lexer}

theorem start (text : List Char) : At text .start (ofChars text) :=
  ⟨rfl, stream_ofChars text, rfl⟩

/-- The next reply is the one at the place of the cursor. -/
theorem reply (h : At text c l) : l.next.1 = (replies text).get c.place := by
  have hhead := congrArg Stream'.head (l.stream_eq.symm.trans h.stream)
  rwa [Stream'.head_cons, Stream'.head_drop] at hhead

theorem next (h : At text c l) : At text (c.past ((replies text).get c.place)) l.next.2 := by
  have hreply := h.reply
  have hsource := l.source_next.trans h.source
  rcases hn : l.next with ⟨e | t, l'⟩ <;> rw [hn] at hreply hsource <;> rw [← hreply]
  · -- After an error the lexer still stands before it.
    obtain ⟨hstream, hagain⟩ := stream_error hn
    have hfinished := l.finished_peek
    rw [peek_of_next_error hn] at hfinished
    exact ⟨hsource, (hagain.trans hstream.symm).trans h.stream, hfinished.trans h.finished⟩
  by_cases ht : t.kind = .eof
  · obtain ⟨hpeeked, hfinished⟩ := next_ending hn ht
    have hstream : l'.stream = l.stream := by
      rw [stream_of_ending hpeeked ht, stream_of_next hn (stream_of_ending hpeeked ht),
        ← Stream'.const_eq]
    simp only [Cursor.past, if_pos ht]
    exact ⟨hsource, hstream.trans h.stream, hfinished⟩
  · have htail := congrArg Stream'.tail (l.stream_eq.symm.trans h.stream)
    rw [Stream'.tail_cons, Stream'.tail_drop', hn] at htail
    simp only [Cursor.past, if_neg ht]
    exact ⟨hsource, htail, (finished_next hn ht).trans h.finished⟩

/-- A call is answered as the cursor does, and leads both to the same place again. -/
theorem perform (h : At text c l) (call : Call) :
    (l.perform call).1 = (c.perform (replies text) call).1 ∧
      At text (c.perform (replies text) call).2 (l.perform call).2 := by
  cases call with
  | next => exact ⟨congrArg Answer.reply h.reply, h.next⟩
  | peek =>
    refine ⟨congrArg Answer.reply (l.next_fst.symm.trans h.reply), ?_⟩
    exact ⟨l.source_peek.trans h.source, l.stream_peek.trans h.stream,
      l.finished_peek.trans h.finished⟩
  | hasNext => exact ⟨congrArg (fun b => Answer.more !b) h.finished, h⟩
  | restart => exact ⟨rfl, by rw [Lexer.perform, restart, h.source]; exact .start text⟩

theorem run (h : At text c l) (calls : List Call) :
    (Call.run Lexer.perform l calls).1 = (Call.run (Cursor.perform (replies text)) c calls).1 ∧
      At text (Call.run (Cursor.perform (replies text)) c calls).2
        (Call.run Lexer.perform l calls).2 := by
  induction calls generalizing c l with
  | nil => exact ⟨rfl, h⟩
  | cons call calls ih =>
    obtain ⟨hanswer, hstep⟩ := h.perform call
    obtain ⟨hanswers, hrun⟩ := ih hstep
    exact ⟨congrArg₂ List.cons hanswer hanswers, hrun⟩

theorem after (text : List Char) (calls : List Call) :
    At text (.after (replies text) calls) (after text calls) := ((At.start text).run calls).2

end At

/-! ## The end and the errors -/

theorem Call.run_append {σ : Type} (perform : σ → Call → Answer × σ) (s : σ) (calls later : List Call) :
    (run perform s (calls ++ later)).2 = (run perform (run perform s calls).2 later).2 := by
  induction calls generalizing s with
  | nil => rfl
  | cons call calls ih => exact ih _

/-- There is a `next` among the calls before which `P` holds, and no restart after it. -/
def TakenWhen (P : List Call → Prop) (calls : List Call) : Prop :=
  ∃ earlier later, calls = earlier ++ .next :: later ∧ .restart ∉ later ∧ P earlier

theorem takenWhen_concat {P : List Call → Prop} {calls : List Call} {call : Call} :
    TakenWhen P (calls ++ [call]) ↔
      call = .next ∧ P calls ∨ call ≠ .restart ∧ TakenWhen P calls := by
  constructor
  · rintro ⟨earlier, later, heq, hlater, hP⟩
    rcases List.eq_nil_or_concat later with rfl | ⟨later, last, rfl⟩
    · obtain ⟨rfl, hcall⟩ := List.append_inj' heq rfl
      cases hcall
      exact .inl ⟨rfl, hP⟩
    · rw [List.concat_eq_append, ← List.cons_append, ← List.append_assoc] at heq
      obtain ⟨rfl, hcall⟩ := List.append_inj' heq rfl
      cases hcall
      simp only [List.concat_eq_append, List.mem_append, List.mem_singleton, not_or] at hlater
      exact .inr ⟨Ne.symm hlater.2, earlier, later, rfl, hlater.1, hP⟩
  · rintro (⟨rfl, hP⟩ | ⟨hcall, earlier, later, rfl, hlater, hP⟩)
    · exact ⟨calls, [], rfl, by simp, hP⟩
    · exact ⟨earlier, later ++ [call], by simp, by simp [hlater, hcall.symm], hP⟩

namespace Cursor

variable {s : TokenStream}

/-- The end was taken exactly if some `next` since the last restart found it. -/
theorem ended_after (calls : List Call) : (after s calls).ended = true ↔
    TakenWhen (fun earlier => ∃ t, s.get (after s earlier).place = .ok t ∧ t.kind = .eof) calls := by
  induction calls using List.reverseRecOn with
  | nil => simp [after, Call.run, start, TakenWhen]
  | append_singleton calls call ih =>
    have hstep : after s (calls ++ [call]) = ((after s calls).perform s call).2 :=
      Call.run_append _ _ _ _
    rw [takenWhen_concat, ← ih, hstep]
    cases call with
    | next =>
      simp only [perform, past]
      split
      · split <;> simp_all
      · simp_all
    | peek | hasNext => simp [perform]
    | restart => simp [perform, start]

/-- A cursor at an error stays there until the restart. -/
theorem place_of_error {c : Cursor} {e : SyntaxError} (h : s.get c.place = .error e)
    {calls : List Call} (hcalls : .restart ∉ calls) :
    (Call.run (perform s) c calls).2.place = c.place := by
  have hpast : c.past (s.get c.place) = c := by rw [h]; rfl
  induction calls with
  | nil => rfl
  | cons call calls ih =>
    obtain ⟨hcall, hcalls⟩ := not_or.1 (List.mem_cons.not.1 hcalls)
    have hstep : (c.perform s call).2 = c := by
      cases call with
      | next => exact hpast
      | peek | hasNext => rfl
      | restart => exact absurd rfl hcall
    change (Call.run (perform s) (c.perform s call).2 calls).2.place = c.place
    rw [hstep]
    exact ih hcalls

end Cursor

/-- A lexer answers every sequence of calls as a cursor in the replies of its text does. It says that
there is no next token exactly if a call has taken the end of the text since the last restart. An error
is met again by every later call until the restart. -/
theorem lexer_is_cursor (text : List Char) (calls : List Call) :
    (Call.run perform (ofChars text) calls).1 =
        (Call.run (Cursor.perform (replies text)) .start calls).1 ∧
      ((after text calls).hasNext = false ↔
        TakenWhen (fun earlier => ∃ t, (after text earlier).next.1 = .ok t ∧ t.kind = .eof) calls) ∧
      ∀ e, (after text calls).next.1 = .error e →
        (∃ c k, e = .unknownCharacter c k ∧ StuckAt text k c) ∧
          ∀ later, .restart ∉ later → (after text (calls ++ later)).next.1 = .error e ∧
            (after text (calls ++ later)).peek.1 = .error e := by
  refine ⟨((At.start text).run calls).1, ?_, fun e he => ?_⟩
  · have hended := Cursor.ended_after (s := replies text) calls
    simp only [← (At.after text _).reply] at hended
    rw [hasNext, (At.after text calls).finished, Bool.not_eq_false', hended]
  · rw [(At.after text calls).reply] at he
    refine ⟨stuckAt_of_replies he, fun later hlater => ?_⟩
    have hplace : (Cursor.after (replies text) (calls ++ later)).place =
        (Cursor.after (replies text) calls).place := by
      rw [Cursor.after, Call.run_append]
      exact Cursor.place_of_error he hlater
    rw [← next_fst, (At.after text _).reply, hplace]
    exact ⟨he, he⟩

end Lexer
end ComplexCalc
