import ComplexCalc.Proofs.Completeness
import ComplexCalc.Proofs.Fuel
import ComplexCalc.Proofs.Lexing
/-!
# The parser accepts the grammar

What a parser does is compared with the grammar: it reads a whole text exactly if the tokens of the
text form an expression, and gives its only tree; with a limit it reads an expression of the layer of
that limit. Where it stops short, no continuation of the tokens up to there forms an expression.
-/
namespace ComplexCalc.Parser

/-- The next expression, and the kind of the token after it. -/
def parseWhole : ParserM (Expr × TokenKind) := do
  let e ← parse none
  return (e, (← lookAhead 0).kind)

/-- The parser gives this tree, and the end of the text is the next token. -/
def ParsesTo (p : Parser) (e : Expr) : Prop := (parseWhole p).1 = .ok (e, .eof)

/-- A parser before these tokens, with nothing after them. -/
def ofTokens (w : List Token) : Parser := ⟨Lexer.ofChars [], w, .fresh false⟩

theorem stream_ofTokens (w : List Token) :
    (ofTokens w).stream = w.map .ok ++ₛ .const (.ok (.ending [])) := by
  rw [stream, ofTokens, Lexer.stream_of_lexes (.ending rfl rfl) rfl rfl rfl]
  rfl

/-! ## One expression -/

section Cases
variable {p : Parser} {ts : List Token} {z : Reply}

/-- Parsing reads an expression of the layer of its limit, before a token that binds no tighter, or
it fails at a reply that it blames. -/
theorem parse_cases (hz : Final z) (hs : p.stream = ts.map .ok ++ₛ .const z)
    (hts : ts.length ≤ p.bound) (limit : Option Nat) :
    (∃ w rest e t p', ts = w ++ rest ∧ Derives (.ofLimit (limit.getD 0)) w e ∧
      next rest z = .ok t ∧ Reads (expression (p.bound + 1) limit) w (.ok t) e ∧
      parse limit p = (.ok e, p') ∧ Leaves p p' (rest.map .ok ++ₛ .const z)) ∨
    ∃ u rest e p', ts = u ++ rest ∧ Viable (.ofLimit (limit.getD 0)) u ∧ Blames (next rest z) e ∧
      Fails (expression (p.bound + 1) limit) u (next rest z) e ∧ parse limit p = (.error e, p') := by
  rcases expression_explores hz (p.bound + 1) limit ts (by omega) with
    ⟨w, rest, e, rfl, ⟨hd, t, ht, -⟩, hr⟩ | ⟨u, rest, e, rfl, hu, hb, hf⟩
  · obtain ⟨s, hrest⟩ := exists_stream_eq_cons rest z (.const z)
    rw [← Stream'.const_eq] at hrest
    rw [List.map_append, Stream'.append_append_stream, hrest] at hs
    obtain ⟨p', hp', hl⟩ := hr p s hs
    rw [ht] at hr
    exact .inl ⟨w, rest, e, t, p', rfl, hd, ht, hr, hp', hrest ▸ hl⟩
  · obtain ⟨s, hrest⟩ := exists_stream_eq_cons rest z (.const z)
    rw [← Stream'.const_eq] at hrest
    rw [List.map_append, Stream'.append_append_stream, hrest] at hs
    obtain ⟨p', hp', -⟩ := hf p s hs
    exact .inr ⟨u, rest, e, p', rfl, hu, hb, hf, hp'⟩

end Cases

/-! ## Whole texts -/

section Whole
variable {p : Parser} {w : List Token} {t : Token} {e : Expr}

theorem parsesTo_iff (ht : t.kind = .eof) (hw : ∀ u ∈ w, u.kind ≠ .eof)
    (hs : p.stream = w.map .ok ++ₛ .const (.ok t)) (hb : w.length ≤ p.bound) :
    ParsesTo p e ↔ Derives .assignment w e := by
  have hz : Final (.ok t) := by
    intro u hu
    cases hu
    exact ht
  constructor
  · intro h
    rcases parse_cases hz hs hb none with
      ⟨v, rest, d, u, p', rfl, hd, hu, -, hp', hl⟩ | ⟨u, rest, d, p', -, -, -, -, hp'⟩
    · obtain ⟨s, hrest⟩ := exists_stream_eq_cons rest (.ok t) (.const (.ok t))
      rw [← Stream'.const_eq, hu] at hrest
      obtain ⟨q, -, hq, -⟩ := lookAhead_ok (hl.1.trans hrest)
      have hwhole : parseWhole p = (.ok (d, u.kind), q) := by
        rw [parseWhole, Action.bind_ok hp', Action.bind_ok hq]
        rfl
      simp only [ParsesTo, hwhole, Except.ok.injEq, Prod.mk.injEq] at h
      obtain ⟨rfl, hk⟩ := h
      -- The token after what was read ends the text, so nothing is left.
      cases rest with
      | nil => rwa [List.append_nil]
      | cons x rest =>
        cases hu
        exact absurd hk (hw u (by simp))
    · rw [ParsesTo, parseWhole, Action.bind_error hp'] at h
      cases h
  · intro hd
    have hr : Reads (expression (p.bound + 1) none) w (.ok t) e :=
      (read_of_derives hd).alone (by omega) (by rw [ht]; rfl)
    rw [Stream'.const_eq] at hs
    obtain ⟨p', hp', hl⟩ := hr p _ hs
    obtain ⟨q, -, hq, -⟩ := lookAhead_ok hl.1
    have hp : parse none p = (.ok e, p') := hp'
    rw [ParsesTo, parseWhole, Action.bind_ok hp, Action.bind_ok hq, ← ht]
    rfl

theorem parsesTo_ofTokens_iff (hw : ∀ u ∈ w, u.kind ≠ .eof) :
    ParsesTo (ofTokens w) e ↔ Derives .assignment w e :=
  parsesTo_iff (t := .ending []) rfl hw (stream_ofTokens w) (Nat.le_add_right _ _)

theorem parsesTo_ofChars_iff {text : List Char} (journal : Journal)
    (h : tokens text = (w ++ [t], none)) :
    ParsesTo (ofChars text journal) e ↔ Derives .assignment w e := by
  obtain ⟨v, z, hl, hv⟩ := exists_lexes 0 text
  obtain ⟨rfl, rfl⟩ := listing_injective (hv.symm.trans h : _ = listing w (.ok t))
  exact parsesTo_iff (hl.final t rfl) hl.kind_ne_eof (stream_ofChars hl journal)
    (Nat.le_of_lt (length_lt_bound hl journal))

end Whole

/-- Tokens form no two expressions of a layer. -/
theorem tree_unique {l : Level} {w : List Token} {d e : Expr} (hd : Derives l w d)
    (he : Derives l w e) : d = e := by
  have hread : ∀ a, Derives l w a → Reads (expression (w.length + 1) none) w (.ok (.ending [])) a :=
    fun a ha => (read_of_derives (ha.loosen (Nat.zero_le _))).alone (Nat.lt_succ_self _) rfl
  have hs := stream_ofTokens w
  rw [Stream'.const_eq] at hs
  obtain ⟨p, hp, -⟩ := hread d hd _ _ hs
  obtain ⟨q, hq, -⟩ := hread e he _ _ hs
  rw [hp] at hq
  cases hq
  rfl

/-- What parsing with a limit takes is an expression of the layer of the limit. -/
theorem consumed_derives {p p' : Parser} {limit : Option Nat} {e : Expr}
    (h : parse limit p = (.ok e, p')) : ∃ w : List Token,
      p.stream = w.map .ok ++ₛ p'.stream ∧ Derives (.ofLimit (limit.getD 0)) w e := by
  obtain ⟨ts, z, hz, hlt, hs⟩ := p.exists_stream
  rcases parse_cases hz hs (by omega) limit with
    ⟨w, rest, d, t, q, rfl, hd, -, -, hq, hl⟩ | ⟨u, rest, d, q, -, -, -, -, hq⟩
  · rw [h] at hq
    cases hq
    refine ⟨w, ?_, hd⟩
    rw [hs, hl.1, List.map_append, Stream'.append_append_stream]
  · rw [h] at hq
    cases hq

/-- The parser gives a tree for a whole text exactly if the tokens of the text form an expression with
this tree, and they form no two. What it takes when it reads with a limit is an expression of the
layer of the limit. -/
theorem accepts_exactly_expressions :
    (∀ (text : List Char) (journal : Journal) (w : List Token) (t : Token) (e : Expr),
      tokens text = (w ++ [t], none) →
        (ParsesTo (ofChars text journal) e ↔ Derives .assignment w e)) ∧
    (∀ (w : List Token) (e : Expr), (∀ t ∈ w, t.kind ≠ .eof) →
      (ParsesTo (ofTokens w) e ↔ Derives .assignment w e)) ∧
    (∀ (w : List Token) (d e : Expr), Derives .assignment w d → Derives .assignment w e → d = e) ∧
    ∀ (p p' : Parser) (limit : Option Nat) (e : Expr), parse limit p = (.ok e, p') →
      ∃ w : List Token, p.stream = w.map .ok ++ₛ p'.stream ∧
        Derives (.ofLimit (limit.getD 0)) w e :=
  ⟨fun _ journal _ _ _ h => parsesTo_ofChars_iff journal h,
    fun _ _ hw => parsesTo_ofTokens_iff hw,
    fun _ _ _ hd he => tree_unique hd he,
    fun _ _ _ _ h => consumed_derives h⟩

/-- The text `a = -b` is an assignment, and its last two tokens are what a leading minus takes. -/
theorem accepts_assignment_of_negation :
    ParsesTo (ofChars "a = -b".toList (.fresh false)) (.assign "a" (.unary .neg (.name "b"))) ∧
    ParsesTo (ofTokens [⟨.minus, ['-'], 4⟩, ⟨.identifier, ['b'], 5⟩]) (.unary .neg (.name "b")) ∧
    (∀ d, Derives .assignment [⟨.identifier, ['b'], 5⟩] d → d = .name "b") ∧
    ∃ w : List Token, (ofTokens [⟨.identifier, ['b'], 5⟩]).stream =
      w.map .ok ++ₛ (parse (some 5) (ofTokens [⟨.identifier, ['b'], 5⟩])).2.stream ∧
      Derives .signed w (.name "b") := by
  have hname : Derives .signed [⟨.identifier, ['b'], 5⟩] (.name "b") :=
    (Derives.name rfl).loosen (by decide)
  have hneg := Derives.negation (t := ⟨.minus, ['-'], 4⟩) rfl hname
  obtain ⟨htext, htokens, hunique, hlimit⟩ := accepts_exactly_expressions
  refine ⟨(htext _ _ [⟨.identifier, ['a'], 0⟩, ⟨.assign, ['='], 2⟩, ⟨.minus, ['-'], 4⟩,
    ⟨.identifier, ['b'], 5⟩] ⟨.eof, [], 6⟩ _ (by decide +kernel)).2 ?_, ?_, ?_, ?_⟩
  · exact .assign (n := [⟨.identifier, ['a'], 0⟩]) (.name rfl) rfl (hneg.loosen (by decide))
  · exact (htokens _ _ (by decide)).2 (hneg.loosen (by decide))
  · exact fun d hd => hunique _ _ _ hd (hname.loosen (by decide))
  · exact hlimit _ _ (some 5) _ rfl

end ComplexCalc.Parser
