import ComplexCalc.Proofs.Lexing
/-!
# Lexing loses nothing

Taking tokens from a lexer until it is finished gives the tokens of its text. They lie in the text one
after the other, each of the first kind that matches where it stands, and nothing but blanks lies
between them, up to the end of the text or to a character with which no token begins.
-/
namespace ComplexCalc

/-! ## What the tokens cover -/

/-- The tokens stand in the text between the places `i` and `k`: each is a non-empty piece of the text
at its offset, of the first kind that matches there and as long as that kind says, none overlaps with
another, and all other characters between the places are blanks. -/
structure Covers (text : List Char) (i : Nat) (ts : List Token) (k : Nat) : Prop where
  pieces : ∀ t ∈ ts, t.text ≠ [] ∧ t.text = (text.drop t.offset).take t.text.length
  kinds : ∀ t ∈ ts, t.kind ≠ .eof ∧ t.text.length = t.kind.length (text.drop t.offset) ∧
    ∃ earlier later, TokenKind.all = earlier ++ t.kind :: later ∧
      ∀ j ∈ earlier, j.length (text.drop t.offset) = 0
  within : ∀ t ∈ ts, i ≤ t.offset ∧ t.offset + t.text.length ≤ k
  inOrder : ts.Pairwise fun t u => t.offset + t.text.length ≤ u.offset
  gaps : ∀ j c, i ≤ j → j < k → text[j]? = some c →
    (∀ t ∈ ts, ¬(t.offset ≤ j ∧ j < t.offset + t.text.length)) → Text.isBlank c

namespace Covers

variable {text : List Char} {i j k : Nat} {ts : List Token}

theorem of_blank (h : BlankBetween text i k) : Covers text i [] k where
  pieces := by simp
  kinds := by simp
  within := by simp
  inOrder := .nil
  gaps j c hi hk hc _ := h j c hi hk hc

/-- Blanks and a token may stand before what is covered. -/
theorem cons {kind : TokenKind} {n : Nat} (hij : i ≤ j) (hblank : BlankBetween text i j)
    (hj : TokenKind.firstAmong TokenKind.all (text.drop j) = some (kind, n))
    (hts : Covers text (j + n) ts k) (hk : j + n ≤ k) :
    Covers text i (⟨kind, (text.drop j).take n, j⟩ :: ts) k := by
  obtain ⟨hn, hpos, hfirst⟩ := TokenKind.firstAmong_eq_some hj
  have hlen : ((text.drop j).take n).length = n :=
    List.length_take_of_le (TokenKind.le_length_of_firstAmong hj)
  constructor
  · refine List.forall_mem_cons.2 ⟨⟨?_, by rw [hlen]⟩, hts.pieces⟩
    exact List.ne_nil_of_length_pos (hlen.symm ▸ hpos)
  · refine List.forall_mem_cons.2 ⟨⟨TokenKind.ne_eof_of_firstAmong hj, ?_, hfirst⟩, hts.kinds⟩
    exact hlen.trans hn
  · refine List.forall_mem_cons.2 ⟨⟨hij, hlen.symm ▸ hk⟩, fun t ht => ?_⟩
    have := hts.within t ht
    omega
  · refine List.pairwise_cons.2 ⟨fun t ht => ?_, hts.inOrder⟩
    have := hts.within t ht
    dsimp only
    omega
  · intro m c hm hmk hc hout
    obtain ⟨hhere, hout⟩ := List.forall_mem_cons.1 hout
    dsimp only at hhere
    by_cases hmj : m < j
    · exact hblank m c hm hmj hc
    · exact hts.gaps m c (by omega) hmk hc hout

end Covers

/-- The tokens cover the text, either all of it, with its end as one last token, or up to a character
with which no token begins. -/
inductive Lossless (text : List Char) : List Token → Option SyntaxError → Prop
  | whole {ts : List Token} : Covers text 0 ts text.length →
      Lossless text (ts ++ [.ending text]) none
  | stuck {ts : List Token} {k : Nat} {c : Char} : Covers text 0 ts k → StuckAt text k c →
      Lossless text ts (some (.unknownCharacter c k))

theorem Lexes.covers {text : List Char} {i : Nat} {w : List Token} {z : Reply}
    (hi : i ≤ text.length) (h : Lexes i (text.drop i) w z) :
    z = .ok (.ending text) ∧ Covers text i w text.length ∨
      ∃ c k, z = .error (.unknownCharacter c k) ∧ i ≤ k ∧ StuckAt text k c ∧ Covers text i w k := by
  generalize hcs : text.drop i = cs at h
  induction h with
  | ending hs ht =>
    obtain ⟨j, -, -, hblank, hfound⟩ := scan_found hi
    rw [hcs, hs] at hfound
    cases hfound with
    | ending hj => exact .inl ⟨rfl, .of_blank (hj ▸ hblank)⟩
    | token hk => exact absurd ht (TokenKind.ne_eof_of_firstAmong hk)
  | stuck hs =>
    obtain ⟨j, hij, -, hblank, hfound⟩ := scan_found hi
    rw [hcs, hs] at hfound
    cases hfound with
    | stuck hc => exact .inr ⟨_, j, rfl, hij, hc, .of_blank hblank⟩
  | token hs ht _ ih =>
    obtain ⟨j, hij, hj, hblank, hfound⟩ := scan_found hi
    rw [hcs, hs] at hfound
    cases hfound with
    | ending => exact absurd rfl ht
    | @token kind n hk =>
      have hn := TokenKind.le_length_of_firstAmong hk
      rw [List.length_take_of_le hn] at ih
      have hend : j + n ≤ text.length := by
        rw [List.length_drop] at hn
        omega
      rcases ih hend rfl with ⟨rfl, hw⟩ | ⟨c, k, rfl, hle, hc, hw⟩
      · exact .inl ⟨rfl, hw.cons hij hblank hk hend⟩
      · exact .inr ⟨c, k, rfl, by dsimp only at hle; omega, hc, hw.cons hij hblank hk hle⟩

theorem lossless_of_lexes {text : List Char} {w : List Token} {z : Reply}
    (h : Lexes 0 text w z) : Lossless text (listing w z).1 (listing w z).2 := by
  rcases Lexes.covers (Nat.zero_le _) (by rwa [List.drop_zero]) with
    ⟨rfl, hw⟩ | ⟨c, k, rfl, -, hc, hw⟩
  · exact .whole hw
  · exact .stuck hw hc

/-! ## Taking all tokens -/

namespace Lexer

/-- Taking tokens until the lexer is finished gives these tokens, and the error that stops it. -/
inductive Yields : Lexer → List Token → Option SyntaxError → Prop
  | finished {l : Lexer} : l.hasNext = false → Yields l [] none
  | stopped {l l' : Lexer} {e : SyntaxError} :
      l.hasNext = true → l.next = (.error e, l') → Yields l [] (some e)
  | token {l l' : Lexer} {t : Token} {ts : List Token} {stop : Option SyntaxError} :
      l.hasNext = true → l.next = (.ok t, l') → Yields l' ts stop → Yields l (t :: ts) stop

theorem Yields.unique {l : Lexer} {ts us : List Token} {stop stop' : Option SyntaxError}
    (h : l.Yields ts stop) (h' : l.Yields us stop') : ts = us ∧ stop = stop' := by
  induction h generalizing us stop' with
  | finished hf => cases h' <;> simp_all
  | stopped hf hn => cases h' <;> simp_all
  | token hf hn _ ih =>
    cases h' with
    | token hf' hn' h' =>
      cases hn.symm.trans hn'
      obtain ⟨rfl, rfl⟩ := ih h'
      exact ⟨rfl, rfl⟩
    | finished hf' | stopped hf' hn' => simp_all

theorem yields_of_lexes {k : Nat} {cs : List Char} {w : List Token} {z : Reply}
    (h : Lexes k cs w z) {l : Lexer} (hp : l.peeked = none) (hf : l.finished = false)
    (hk : l.offset = k) (hcs : l.rest = cs) : l.Yields (listing w z).1 (listing w z).2 := by
  have hnext : l.hasNext = true := by simp [hasNext, hf]
  induction h generalizing l with
  | ending hs ht =>
    exact .token hnext (by simp [next, peek, hp, hk, hcs, hs, ht]; rfl) (.finished rfl)
  | stuck hs => exact .stopped hnext (by simp [next, peek, hp, hk, hcs, hs]; rfl)
  | @token k cs rest t w z hs ht _ ih =>
    have hn : l.next = (.ok t, { l with rest := rest, offset := t.offset + t.text.length }) := by
      simp [next, peek, hp, hk, hcs, hs, ht]
    have hrest := Yields.token hnext hn (ih hp hf rfl rfl hnext)
    cases z <;> exact hrest

/-- Taking tokens gives the tokens of the text, and nothing else. -/
theorem yields_iff (text : List Char) (ts : List Token) (stop : Option SyntaxError) :
    (ofChars text).Yields ts stop ↔ tokens text = (ts, stop) := by
  obtain ⟨w, z, hlexes, htokens⟩ := exists_lexes 0 text
  have hyields : (ofChars text).Yields (listing w z).1 (listing w z).2 :=
    yields_of_lexes hlexes rfl rfl rfl rfl
  rw [tokens, htokens]
  refine ⟨fun h => ?_, fun h => ?_⟩
  · obtain ⟨rfl, rfl⟩ := h.unique hyields
    rfl
  · rwa [h] at hyields

end Lexer

/-- The tokens of a text are those that the lexer finds, with its last reply. -/
theorem tokens_eq_listing_iff {text : List Char} {w : List Token} {z : Reply} :
    tokens text = listing w z ↔ Lexes 0 text w z := by
  constructor
  · intro h
    obtain ⟨v, y, hlexes, htokens⟩ := exists_lexes 0 text
    obtain ⟨rfl, rfl⟩ := listing_injective (htokens.symm.trans h)
    exact hlexes
  · intro h
    exact (Lexer.yields_iff text _ _).1 (Lexer.yields_of_lexes h rfl rfl rfl rfl)

/-- Lexing a text comes to an end. It gives the tokens of the text, which cover all of it but blanks,
and at the last the end of the text or an error at a character with which no token begins. -/
theorem lexing_is_lossless (text : List Char) :
    (∀ ts stop, (Lexer.ofChars text).Yields ts stop ↔ tokens text = (ts, stop)) ∧
      Lossless text (tokens text).1 (tokens text).2 := by
  obtain ⟨w, z, hlexes, htokens⟩ := exists_lexes 0 text
  refine ⟨Lexer.yields_iff text, ?_⟩
  rw [tokens, htokens]
  exact lossless_of_lexes hlexes

end ComplexCalc
