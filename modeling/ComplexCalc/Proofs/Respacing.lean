import ComplexCalc.Proofs.Coverage
import ComplexCalc.Proofs.Relocation
import ComplexCalc.Proofs.Spacing
/-!
# Other gaps between the tokens

The tokens of a text may be put into any other gaps, none of them empty: the text has the same tokens
again, and it is parsed in the same way, as the same expression or with the same error at the token of
the same index.
-/
namespace ComplexCalc

/-! ## Streams of the same tokens -/

namespace Parser

/-- The tokens of a stream are those of a list, of which the last one is repeated for ever. -/
theorem get_listing (w : List Token) (t : Token) (i : Nat) : ∃ u,
    (w ++ [t])[min i w.length]? = some u ∧ (w.map .ok ++ₛ .const (.ok t) : TokenStream).get i = .ok u := by
  induction w generalizing i with
  | nil => exact ⟨t, by simp, rfl⟩
  | cons v w ih =>
    cases i with
    | zero => exact ⟨v, by simp, rfl⟩
    | succ i =>
      obtain ⟨u, hu, hget⟩ := ih i
      exact ⟨u, by simpa [Nat.succ_min_succ] using hu, hget⟩

variable {w v : List Token} {t t' u u' : Token}

theorem sameStream (h : SameTokens v w) (ht : t'.unplaced = t.unplaced) :
    SameStream (w.map .ok ++ₛ .const (.ok t)) (v.map .ok ++ₛ .const (.ok t')) := by
  intro i
  obtain ⟨u, hu, hget⟩ := get_listing w t i
  obtain ⟨u', hu', hget'⟩ := get_listing v t' i
  refine ⟨u, u', hget, hget', ?_⟩
  have hlength : v.length = w.length := by simpa using congrArg List.length h
  have hmap : (v ++ [t']).map Token.unplaced = (w ++ [t]).map Token.unplaced := by
    rw [List.map_append, List.map_append, h, List.map_singleton, ht, List.map_singleton]
  have hindex := congrArg (·[min i w.length]?) hmap
  rw [hlength] at hu'
  simpa only [List.getElem?_map, hu, hu', Option.map_some, Option.some.injEq] using hindex

/-- Counterparts are the tokens of two lists at the same index. -/
theorem Counterparts.exists_index (hlength : v.length = w.length)
    (h : Counterparts (w.map .ok ++ₛ .const (.ok t)) (v.map .ok ++ₛ .const (.ok t')) u u') :
    ∃ i : Nat, (w ++ [t])[i]? = some u ∧ (v ++ [t'])[i]? = some u' := by
  obtain ⟨i, hi, hi'⟩ := h
  obtain ⟨a, ha, hget⟩ := get_listing w t i
  obtain ⟨a', ha', hget'⟩ := get_listing v t' i
  cases hi.symm.trans hget
  cases hi'.symm.trans hget'
  exact ⟨_, ha, hlength ▸ ha'⟩

/-- A parser before tokens has fuel enough, and does with more of it what it does. -/
theorem parse_eq_expression {p : Parser} {k : Nat} (ht : t.kind = .eof)
    (hs : p.stream = w.map .ok ++ₛ .const (.ok t)) (hw : w.length ≤ p.bound) (hk : p.bound < k)
    (limit : Option Nat) :
    (parse limit p).1 ≠ .error .tooDeep ∧ expression k limit p = parse limit p := by
  have hne : (parse limit p).1 ≠ .error .tooDeep := by
    have hz : Final (.ok t) := by
      intro u hu
      cases hu
      exact ht
    rcases parse_cases hz hs hw limit with
      ⟨_, _, _, _, _, -, -, -, -, hp, -⟩ | ⟨u, rest, e, q, -, -, hb, -, hp⟩
    · simp [hp]
    · obtain ⟨x, hx⟩ : ∃ x, next rest (.ok t) = .ok x := by cases rest <;> exact ⟨_, rfl⟩
      rw [hx] at hb
      rw [hp]
      simpa using hb.of_token.1
  exact ⟨hne, expression_extends hk limit p hne⟩

end Parser

/-! ## Other gaps -/

/-- Two texts with the tokens `ts` and `ts'` are parsed in the same way: as the same expression, with
tokens of the same index left behind it, or with the same error at tokens of the same index. -/
inductive ParsesAlike (text text' : List Char) (ts ts' : List Token) :
    Except SyntaxError (Expr × List Char) → Except SyntaxError (Expr × List Char) → Prop
  | parsed {i : Nat} {t t' : Token} (e : Expr) : ts[i]? = some t → ts'[i]? = some t' →
      ParsesAlike text text' ts ts' (.ok (e, text.drop t.offset)) (.ok (e, text'.drop t'.offset))
  | failed {i : Nat} {t t' : Token} {e : SyntaxError} : ts[i]? = some t → ts'[i]? = some t' →
      e.offset = t.offset → ParsesAlike text text' ts ts' (.error e) (.error (e.moved t'.offset))

/-- Texts with the same tokens are parsed in the same way. -/
theorem parsesAlike_of_lexes {text text' : List Char} {ts ts' : List Token}
    (h : Lexes 0 text ts (.ok (.ending text))) (h' : Lexes 0 text' ts' (.ok (.ending text')))
    (hsame : SameTokens ts' ts) (journal journal' : Journal) :
    ParsesAlike text text' (ts ++ [.ending text]) (ts' ++ [.ending text'])
      (Parser.parsePrefix (Parser.ofChars text journal)).1
      (Parser.parsePrefix (Parser.ofChars text' journal')).1 := by
  have hs := Parser.stream_ofChars h journal
  have hs' := Parser.stream_ofChars h' journal'
  have hb := Nat.le_of_lt (Parser.length_lt_bound h journal)
  have hb' := Nat.le_of_lt (Parser.length_lt_bound h' journal')
  generalize hp : Parser.ofChars text journal = p at hs hb
  generalize hp' : Parser.ofChars text' journal' = p' at hs' hb'
  -- Both parsers get the fuel of the one that gets more.
  obtain ⟨hne, hparse⟩ := Parser.parse_eq_expression (k := max p.bound p'.bound + 1) rfl hs
    hb (by omega) none
  obtain ⟨-, hparse'⟩ := Parser.parse_eq_expression (k := max p.bound p'.bound + 1) rfl hs'
    hb' (by omega) none
  have hending : (Token.ending text').unplaced = (Token.ending text).unplaced := rfl
  have hS := Parser.sameStream hsame hending
  have hlength : ts'.length = ts.length := by simpa using congrArg List.length hsame
  have halike := Parser.expression_inStep hS (max p.bound p'.bound + 1) none 0 p p' hs hs'
  rw [hparse, hparse'] at halike
  have htakes := Parser.parse_takes none p
  have htakes' := Parser.parse_takes none p'
  rcases hr : Parser.parse none p with ⟨r, q⟩
  rcases hr' : Parser.parse none p' with ⟨r', q'⟩
  rw [hr] at halike hne htakes
  rw [hr'] at halike htakes'
  cases halike with
  | @ok e _ _ _ n he hq hq' =>
    cases he
    obtain ⟨t, t', ht, ht', -⟩ := hS n
    obtain ⟨i, hi, hi'⟩ := Parser.Counterparts.exists_index hlength ⟨n, ht, ht'⟩
    obtain ⟨-, -, hsource⟩ := htakes
    obtain ⟨-, -, hsource'⟩ := htakes'
    obtain ⟨_, hstart⟩ := Parser.parsePrefix_of_head hr hsource (t := t)
      (by rw [hq, Stream'.head_drop, ht])
    obtain ⟨_, hstart'⟩ := Parser.parsePrefix_of_head hr' hsource' (t := t')
      (by rw [hq', Stream'.head_drop, ht'])
    rw [hstart, hstart', ← hp, ← hp']
    exact .parsed e hi hi'
  | error ht he =>
    obtain ⟨i, hi, hi'⟩ := ht.exists_index hlength
    rw [Parser.parsePrefix, Action.bind_error hr, Action.bind_error hr']
    exact .failed hi hi' he
  | tooDeep => exact absurd rfl hne

/-- The tokens of a text in other gaps are the tokens of the new text, and both texts are parsed in the
same way. -/
theorem respaced_text_parses_alike {text : List Char} {ts : List Token} {last : Token}
    {gaps : List (List Char)} {after : List Char}
    (h : (Lexer.ofChars text).Yields (ts ++ [last]) none) (hgaps : Text.Gaps gaps after ts.length)
    {text' : List Char} (htext' : text' = Text.spaced gaps (ts.map Token.text) after) :
    ∃ ts' : List Token, SameTokens ts' ts ∧
      (Lexer.ofChars text').Yields (ts' ++ [.ending text']) none ∧
      ∀ journal journal', ParsesAlike text text' (ts ++ [last]) (ts' ++ [.ending text'])
        (Parser.parsePrefix (Parser.ofChars text journal)).1
        (Parser.parsePrefix (Parser.ofChars text' journal')).1 := by
  have hlexes : Lexes 0 text ts (.ok last) := tokens_eq_listing_iff.1 ((Lexer.yields_iff ..).1 h)
  obtain rfl : last = .ending text := by
    rcases hlexes.reply (Nat.zero_le _) with hlast | ⟨_, _, hlast, -⟩
    · exact Except.ok.inj hlast
    · cases hlast
  obtain ⟨ts', hlexes', hsame⟩ := Spells.spaced hlexes.isLexeme hgaps 0
  rw [← htext', Nat.zero_add] at hlexes'
  exact ⟨ts', hsame, (Lexer.yields_iff ..).2 (tokens_eq_listing_iff.2 hlexes'),
    parsesAlike_of_lexes hlexes hlexes' hsame⟩

/-- Blanks around the exponent of `b**c`, but not between its asterisks, change nothing. -/
theorem respaced_power_parses_alike :
    (Lexer.ofChars ['b', '*', '*', 'c']).Yields ([⟨.identifier, ['b'], 0⟩,
      ⟨.exponent, ['*', '*'], 1⟩, ⟨.identifier, ['c'], 3⟩] ++ [⟨.eof, [], 4⟩]) none ∧
    Text.Gaps [[], [' ', '\t'], ['\n']] [' '] 3 ∧
    ∃ ts' : List Token, SameTokens ts' [⟨.identifier, ['b'], 0⟩, ⟨.exponent, ['*', '*'], 1⟩,
        ⟨.identifier, ['c'], 3⟩] ∧
      (Lexer.ofChars ['b', ' ', '\t', '*', '*', '\n', 'c', ' ']).Yields
        (ts' ++ [⟨.eof, [], 8⟩]) none ∧
      ∀ journal journal', ParsesAlike ['b', '*', '*', 'c']
        ['b', ' ', '\t', '*', '*', '\n', 'c', ' ']
        ([⟨.identifier, ['b'], 0⟩, ⟨.exponent, ['*', '*'], 1⟩, ⟨.identifier, ['c'], 3⟩] ++
          [⟨.eof, [], 4⟩]) (ts' ++ [⟨.eof, [], 8⟩])
        (Parser.parsePrefix (Parser.ofChars ['b', '*', '*', 'c'] journal)).1
        (Parser.parsePrefix
          (Parser.ofChars ['b', ' ', '\t', '*', '*', '\n', 'c', ' '] journal')).1 := by
  have hyields : (Lexer.ofChars ['b', '*', '*', 'c']).Yields ([⟨.identifier, ['b'], 0⟩,
      ⟨.exponent, ['*', '*'], 1⟩, ⟨.identifier, ['c'], 3⟩] ++ [⟨.eof, [], 4⟩]) none :=
    .token rfl rfl (.token rfl rfl (.token rfl rfl (.token rfl rfl (.finished rfl))))
  have hgaps : Text.Gaps [[], [' ', '\t'], ['\n']] [' '] 3 :=
    ⟨rfl, by decide, by decide, by decide⟩
  exact ⟨hyields, hgaps, respaced_text_parses_alike hyields hgaps rfl⟩

end ComplexCalc
