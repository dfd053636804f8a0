import ComplexCalc.Proofs.EarliestError
import ComplexCalc.Proofs.Gaps
/-!
# Texts that tokens spell

A text that is put together from tokens is taken apart into these tokens again, wherever it stands, and
whether tokens form an expression does not depend on their places. So a text that the tokens of an
expression spell is parsed as this expression, to its end.
-/
namespace ComplexCalc

/-! ## Places -/

/-- The token without its place. -/
def Token.unplaced (t : Token) : Token := { t with offset := 0 }

/-- The tokens are of the same kinds and texts, perhaps at other places. -/
def SameTokens (v w : List Token) : Prop := v.map Token.unplaced = w.map Token.unplaced

section Places
variable {u v w : List Token} {t : Token}

theorem SameTokens.nil_inv (h : SameTokens v []) : v = [] := List.map_eq_nil_iff.1 h

theorem SameTokens.cons_inv (h : SameTokens v (t :: w)) :
    ∃ t' w', v = t' :: w' ∧ t'.kind = t.kind ∧ t'.text = t.text ∧ SameTokens w' w := by
  obtain ⟨t', w', rfl, ht, hw⟩ := List.map_eq_cons_iff.1 h
  have hk : t'.unplaced.kind = t.unplaced.kind := congrArg Token.kind ht
  have htext : t'.unplaced.text = t.unplaced.text := congrArg Token.text ht
  exact ⟨t', w', rfl, hk, htext, hw⟩

theorem SameTokens.append_inv (h : SameTokens v (w ++ u)) :
    ∃ w' u', v = w' ++ u' ∧ SameTokens w' w ∧ SameTokens u' u := by
  unfold SameTokens at h
  rw [List.map_append] at h
  exact List.map_eq_append_iff.1 h

theorem Further.relocate {R S : List Token → Expr → Prop} {es : List Expr}
    (h : ∀ w e, R w e → ∀ v, SameTokens v w → S v e) (hw : Further R w es) (hv : SameTokens v w) :
    Further S v es := by
  induction hw generalizing v with
  | nil =>
    rw [hv.nil_inv]
    exact .nil
  | cons ht hR _ ih =>
    obtain ⟨v, u, rfl, hv, hu⟩ := hv.append_inv
    obtain ⟨t, v, rfl, hk, -, hv⟩ := hv.cons_inv
    exact .cons (hk.trans ht) (h _ _ hR v hv) (ih hu)

/-- Whether tokens form an expression does not depend on their places. -/
theorem Derives.relocate {l : Level} {e : Expr} (h : Derives l w e) (hsame : SameTokens v w) :
    Derives l v e := by
  induction h generalizing v with
  | literal ht hz =>
    obtain ⟨t, v, rfl, hk, htext, hnil⟩ := hsame.cons_inv
    rw [hnil.nil_inv]
    exact .literal (hk.trans ht) (htext ▸ hz)
  | name ht =>
    obtain ⟨t, v, rfl, hk, htext, hnil⟩ := hsame.cons_inv
    rw [hnil.nil_inv, ← htext]
    exact .name (hk.trans ht)
  | group ho _ hc ih =>
    obtain ⟨ow, cs, rfl, how, hcs⟩ := hsame.append_inv
    obtain ⟨o, w, rfl, hk, -, hw⟩ := how.cons_inv
    obtain ⟨c, cs, rfl, hk', -, hnil⟩ := hcs.cons_inv
    rw [hnil.nil_inv]
    exact .group (hk.trans ho) (ih hw) (hk'.trans hc)
  | absolute ho _ hc ih =>
    obtain ⟨ow, cs, rfl, how, hcs⟩ := hsame.append_inv
    obtain ⟨o, w, rfl, hk, -, hw⟩ := how.cons_inv
    obtain ⟨c, cs, rfl, hk', -, hnil⟩ := hcs.cons_inv
    rw [hnil.nil_inv]
    exact .absolute (hk.trans ho) (ih hw) (hk'.trans hc)
  | factorial _ ht ih =>
    obtain ⟨w, ts, rfl, hw, hts⟩ := hsame.append_inv
    obtain ⟨t, ts, rfl, hk, -, hnil⟩ := hts.cons_inv
    rw [hnil.nil_inv]
    exact .factorial (ih hw) (hk.trans ht)
  | call _ ho hc ih =>
    obtain ⟨n, ts, rfl, hn, hts⟩ := hsame.append_inv
    obtain ⟨o, ts, rfl, hk, -, hts⟩ := hts.cons_inv
    obtain ⟨c, ts, rfl, hk', -, hnil⟩ := hts.cons_inv
    rw [hnil.nil_inv]
    exact .call (ih hn) (hk.trans ho) (hk'.trans hc)
  | callWith _ ho _ _ hc ihn ihw ihv =>
    obtain ⟨n, ts, rfl, hn, hts⟩ := hsame.append_inv
    obtain ⟨o, ts, rfl, hk, -, hts⟩ := hts.cons_inv
    obtain ⟨wv, cs, rfl, hwv, hcs⟩ := hts.append_inv
    obtain ⟨w, v, rfl, hw, hv⟩ := hwv.append_inv
    obtain ⟨c, cs, rfl, hk', -, hnil⟩ := hcs.cons_inv
    rw [hnil.nil_inv]
    refine .callWith (ihn hn) (hk.trans ho) (ihw hw) ?_ (hk'.trans hc)
    exact ihv.relocate (fun _ _ h _ => h.2) hv
  | negation ht _ ih =>
    obtain ⟨t, w, rfl, hk, -, hw⟩ := hsame.cons_inv
    exact .negation (hk.trans ht) (ih hw)
  | power _ ht _ ihw ihv =>
    obtain ⟨w, ts, rfl, hw, hts⟩ := hsame.append_inv
    obtain ⟨t, v, rfl, hk, -, hv⟩ := hts.cons_inv
    exact .power (ihw hw) (hk.trans ht) (ihv hv)
  | chain _ ht _ ihw ihv =>
    obtain ⟨w, ts, rfl, hw, hts⟩ := hsame.append_inv
    obtain ⟨t, v, rfl, hk, -, hv⟩ := hts.cons_inv
    exact .chain (ihw hw) (hk ▸ ht) (ihv hv)
  | assign _ ht _ ihn ihw =>
    obtain ⟨n, ts, rfl, hn, hts⟩ := hsame.append_inv
    obtain ⟨t, w, rfl, hk, -, hw⟩ := hts.cons_inv
    exact .assign (ihn hn) (hk.trans ht) (ihw hw)
  | tighter _ ih => exact .tighter (ih hsame)

end Places

/-- A text is parsed as the expression that its first tokens form, up to the next one, unless that one
continues the expression. -/
theorem Lexes.parsePrefix {cs : List Char} {w rest : List Token} {t : Token} {z : Reply} {e : Expr}
    (hw : Lexes 0 cs (w ++ rest) z) (he : Derives .assignment w e) (hx : Parser.next rest z = .ok t)
    (ht : t.kind.precedence = 0) (journal : Journal) : ∃ p,
      Parser.parsePrefix (Parser.ofChars cs journal) = (.ok (e, cs.drop t.offset), p) := by
  have hs := Parser.stream_ofChars hw journal
  have hbound : w.length < (Parser.ofChars cs journal).bound :=
    Nat.lt_of_le_of_lt (by simp) (Parser.length_lt_bound hw journal)
  obtain ⟨s, hrest⟩ := Parser.exists_stream_eq_cons rest z (.const z)
  rw [← Stream'.const_eq, hx] at hrest
  rw [List.map_append, Stream'.append_append_stream, hrest] at hs
  obtain ⟨p, hp, hl⟩ := (Parser.read_of_derives he).alone (Nat.lt_succ_of_lt hbound) ht _ _ hs
  rw [← hrest] at hl
  exact Parser.parsePrefix_of_parse hp hl hx

/-- A text whose tokens form an expression is parsed to its end. -/
theorem Lexes.parsePrefix_whole {cs : List Char} {w : List Token} {e : Expr}
    (hw : Lexes 0 cs w (.ok (.ending cs))) (he : Derives .assignment w e) (journal : Journal) :
    ∃ p, Parser.parsePrefix (Parser.ofChars cs journal) = (.ok (e, []), p) := by
  rw [← List.append_nil w] at hw
  have h := hw.parsePrefix he rfl rfl journal
  rwa [Token.ending, List.drop_length] at h

/-! ## Spelling -/

/-- Wherever the text stands, the lexer finds these tokens in it, and then its end. -/
def Spells (ts : List Token) (cs : List Char) : Prop :=
  ∀ k, ∃ w, Lexes k cs w (.ok ⟨.eof, [], k + cs.length⟩) ∧ SameTokens w ts

namespace Spells

variable {ts : List Token} {cs rest : List Char} {t : Token} {e : Expr}

theorem nil : Spells [] [] := fun _ => ⟨[], .ending rfl rfl, rfl⟩

/-- A token with which the text begins is the first one that is spelled. -/
theorem token (ht : TokenKind.firstAmong TokenKind.all (t.text ++ cs) = some (t.kind, t.text.length))
    (h : Spells ts cs) : Spells (t :: ts) (t.text ++ cs) := by
  intro k
  obtain ⟨w, hw, hsame⟩ := h (k + t.text.length)
  refine ⟨⟨t.kind, t.text, k⟩ :: w,
    .token (scan_token ht k) (TokenKind.ne_eof_of_firstAmong ht) ?_, ?_⟩
  · rw [List.length_append, ← Nat.add_assoc]
    exact hw
  · exact congrArg (t.unplaced :: ·) hsame

/-- A gap before the tokens is passed over. -/
theorem gap {gap : List Char} (hgap : Text.AllBlank gap) (h : Spells ts cs) :
    Spells ts (gap ++ cs) := by
  intro k
  obtain ⟨w, hw, hsame⟩ := h (k + gap.length)
  refine ⟨w, ?_, hsame⟩
  have hscan := scan_gap hgap k cs
  rw [List.length_append, ← Nat.add_assoc]
  cases hw with
  | ending hs ht => exact .ending (hscan.trans hs) ht
  | token hs ht hw => exact .token (hscan.trans hs) ht hw

/-- A text that the tokens of an expression spell is parsed to its end. -/
theorem parsePrefix (h : Spells ts cs) (he : Derives .assignment ts e) (journal : Journal) :
    ∃ p, Parser.parsePrefix (Parser.ofChars cs journal) = (.ok (e, []), p) := by
  obtain ⟨w, hw, hsame⟩ := h 0
  rw [Nat.zero_add] at hw
  exact hw.parsePrefix_whole (he.relocate hsame) journal

/-- A text that the tokens of an expression spell is this expression. -/
theorem parse {text : String} (h : Spells ts text.toList) (he : Derives .assignment ts e)
    (w : Workspace) : (EvalM.parse text w).1 = .ok e := by
  obtain ⟨p, hp⟩ := h.parsePrefix he w.journal
  have hprefix : EvalM.parsePrefix text w = (.ok (e, []), { w with journal := p.journal }) := by
    rw [EvalM.parsePrefix, hp]
  rw [EvalM.parse, Action.bind_ok hprefix]
  rfl

end Spells

end ComplexCalc
