import ComplexCalc.Proofs.TokenStream
/-!
# Outcomes of parsing steps

A parser meets some tokens `ts` and a last reply `z`, the end of the text or an error. A step
either reads a word of these tokens, or it fails at the first reply that it has no use for. An
`Outcome` says which words and results the step may end with (`good`) and before which words it may
fail (`viable`); the rules below put the outcomes of steps together to those of `do` blocks.
-/
namespace ComplexCalc.Parser

/-- Replies that end every expression: errors and the end of the text. -/
def Final (z : Reply) : Prop := ∀ t, z = .ok t → t.kind = .eof

/-- The error that a reply is blamed with. -/
inductive Blames : Reply → SyntaxError → Prop
  | lexer (e : SyntaxError) : Blames (.error e) e
  | start (t : Token) : Blames (.ok t) (.noExpression t.text t.offset)
  | literal {t : Token} {cause : Literal.Invalid} :
      t.kind = .literal → Literal.read t.text = .error cause →
        Blames (.ok t) (.literal t.text cause t.offset)
  | expected {t : Token} {kind : TokenKind} :
      t.kind ≠ kind → Blames (.ok t) (.expected kind t.kind t.offset)
  | target {t : Token} : t.kind = .assign → Blames (.ok t) (.target t.offset)
  | callee {t : Token} : t.kind = .leftParen → Blames (.ok t) (.callee t.offset)
  | trailing (t : Token) (word : List Char) : Blames (.ok t) (.trailing word t.offset)

/-- What a step does before the tokens `ts` and the reply `z`. -/
inductive Outcome {α : Type} (m : ParserM α) (ts : List Token) (z : Reply)
    (good : List Token → Reply → α → Prop) (viable : List Token → Prop) : Prop
  | read (w rest : List Token) (a : α) :
      ts = w ++ rest → good w (next rest z) a → Reads m w (next rest z) a →
        Outcome m ts z good viable
  | fail (u rest : List Token) (e : SyntaxError) :
      ts = u ++ rest → viable u → Blames (next rest z) e → Fails m u (next rest z) e →
        Outcome m ts z good viable

namespace Outcome

variable {α β : Type} {m : ParserM α} {ts : List Token} {z : Reply}
variable {good good' : List Token → Reply → α → Prop} {viable viable' : List Token → Prop}

theorem pure {a : α} (h : good [] (next ts z) a) : Outcome (pure a) ts z good viable :=
  .read [] ts a rfl h (Reads.pure a _)

theorem bind {f : α → ParserM β} {good' : List Token → Reply → β → Prop}
    (h : Outcome m ts z good viable) (hv : ∀ u, viable u → viable' u)
    (hf : ∀ w rest a, ts = w ++ rest → good w (next rest z) a →
      Outcome (f a) rest z (fun v => good' (w ++ v)) (fun u => viable' (w ++ u))) :
    Outcome (m >>= f) ts z good' viable' := by
  rcases h with ⟨w, rest, a, hts, ha, hr⟩ | ⟨u, rest, e, hts, hu, hb, hfail⟩
  · rcases hf w rest a hts ha with ⟨v, rest', b, rfl, hb, hr'⟩ | ⟨u, rest', e, rfl, hu, hb, hfail⟩
    · rw [next_append] at hr
      exact .read (w ++ v) rest' b (by simp [hts]) hb (hr.bind hr')
    · rw [next_append] at hr
      exact .fail (w ++ u) rest' e (by simp [hts]) hu hb (hr.bind_fails hfail)
  · exact .fail u rest e hts (hv u hu) hb (hfail.bind f)

/-! ## Tokens -/

/-- A step that consumes a token goes on from it, has no use for it, or meets an error. -/
theorem consume {f : Token → ParserM β} {good : List Token → Reply → β → Prop} (hv : viable [])
    (hf : ∀ t, next ts z = .ok t → (∃ e, f t = throw e ∧ Blames (.ok t) e) ∨
      ∃ rest, ts = t :: rest ∧
        Outcome (f t) rest z (fun w => good (t :: w)) (fun u => viable (t :: u))) :
    Outcome (consume >>= f) ts z good viable := by
  rcases hx : next ts z with e | t
  · exact .fail [] ts e rfl hv (hx ▸ .lexer e) (hx ▸ (consume_fails e).bind f)
  · rcases hf t hx with ⟨e, he, hb⟩ | ⟨rest, rfl, ho⟩
    · exact .fail [] ts e rfl hv (hx ▸ hb) (hx ▸ consume_refuses he)
    · rcases ho with ⟨w, rest', a, rfl, ha, hr⟩ | ⟨u, rest', e, rfl, hu, hb, hfail⟩
      · exact .read (t :: w) rest' a rfl ha ((consume_reads t _).bind hr)
      · exact .fail (t :: u) rest' e rfl hu hb ((consume_reads t _).bind_fails hfail)

/-- The first of the tokens, if the reply is not final. -/
theorem eq_cons_of_next {t : Token} (hz : Final z) (hx : next ts z = .ok t) (ht : t.kind ≠ .eof) :
    ∃ rest, ts = t :: rest := by
  cases ts with
  | nil => exact absurd (hz t hx) ht
  | cons u rest =>
    cases hx
    exact ⟨rest, rfl⟩

theorem expect {kind : TokenKind} {f : Token → ParserM β} {good : List Token → Reply → β → Prop}
    (hz : Final z) (hk : kind ≠ .eof) (hv : viable [])
    (hf : ∀ t rest, ts = t :: rest → t.kind = kind →
      Outcome (f t) rest z (fun w => good (t :: w)) (fun u => viable (t :: u))) :
    Outcome (expect kind >>= f) ts z good viable := by
  rcases hx : next ts z with e | t
  · exact .fail [] ts e rfl hv (hx ▸ .lexer e) (hx ▸ ((consume_fails e).bind _).bind f)
  · by_cases ht : t.kind = kind
    · obtain ⟨rest, rfl⟩ := eq_cons_of_next hz hx (ht ▸ hk)
      rcases hf t rest rfl ht with ⟨w, rest', a, rfl, ha, hr⟩ | ⟨u, rest', e, rfl, hu, hb, hfail⟩
      · exact .read (t :: w) rest' a rfl ha ((expect_reads ht _).bind hr)
      · exact .fail (t :: u) rest' e rfl hu hb ((expect_reads ht _).bind_fails hfail)
    · exact .fail [] ts _ rfl hv (hx ▸ .expected ht) (hx ▸ (expect_fails ht).bind f)

theorem accept {kind : TokenKind} {f : Bool → ParserM β} {good : List Token → Reply → β → Prop}
    (hz : Final z) (hk : kind ≠ .eof) (hv : viable [])
    (htrue : ∀ t rest, ts = t :: rest → t.kind = kind →
      Outcome (f true) rest z (fun w => good (t :: w)) (fun u => viable (t :: u)))
    (hfalse : ∀ t, next ts z = .ok t → t.kind ≠ kind → Outcome (f false) ts z good viable) :
    Outcome (accept kind >>= f) ts z good viable := by
  rcases hx : next ts z with e | t
  · exact .fail [] ts e rfl hv (hx ▸ .lexer e) (hx ▸ ((lookAhead_fails e).bind _).bind f)
  · by_cases ht : t.kind = kind
    · obtain ⟨rest, rfl⟩ := eq_cons_of_next hz hx (ht ▸ hk)
      rcases htrue t rest rfl ht with ⟨w, rest', a, rfl, ha, hr⟩ | ⟨u, rest', e, rfl, hu, hb, hfail⟩
      · exact .read (t :: w) rest' a rfl ha ((accept_reads ht _).bind hr)
      · exact .fail (t :: u) rest' e rfl hu hb ((accept_reads ht _).bind_fails hfail)
    · have hskip : Outcome (Parser.accept kind) ts z (fun w _ b => w = [] ∧ b = false) (· = []) :=
        .read [] ts false rfl ⟨rfl, rfl⟩ (hx ▸ accept_skips ht)
      refine hskip.bind (fun u hu => hu ▸ hv) ?_
      rintro _ rest _ hts ⟨rfl, rfl⟩
      cases hts
      exact hfalse t hx ht

theorem currentPrecedence {f : Nat → ParserM β} {good : List Token → Reply → β → Prop}
    (hv : viable [])
    (hf : ∀ t, next ts z = .ok t → Outcome (f t.kind.precedence) ts z good viable) :
    Outcome (currentPrecedence >>= f) ts z good viable := by
  rcases hx : next ts z with e | t
  · exact .fail [] ts e rfl hv (hx ▸ .lexer e) (hx ▸ ((lookAhead_fails e).bind _).bind f)
  · have hlook : Outcome Parser.currentPrecedence ts z
        (fun w _ n => w = [] ∧ n = t.kind.precedence) (· = []) :=
      .read [] ts _ rfl ⟨rfl, rfl⟩ (hx ▸ currentPrecedence_reads t)
    refine hlook.bind (fun u hu => hu ▸ hv) ?_
    rintro _ rest _ hts ⟨rfl, rfl⟩
    cases hts
    exact hf t hx

theorem traced (h : Outcome m ts z good viable) (signature : Parser → String)
    (explain : SyntaxError → String) (describe : α → String) :
    Outcome (traced signature explain (fun a => .ok (describe a)) m) ts z good viable := by
  rcases h with ⟨w, rest, a, hts, ha, hr⟩ | ⟨u, rest, e, hts, hu, hb, hf⟩
  · exact .read w rest a hts ha (hr.traced signature explain describe)
  · exact .fail u rest e hts hu hb (hf.traced signature explain describe)

end Outcome
end ComplexCalc.Parser
