import ComplexCalc.Proofs.Outcomes
import ComplexCalc.Proofs.Scanning
/-!
# The tokens of a text

`Lexes k cs w z` says that the lexer finds the tokens `w` in a text `cs` that stands at the offset
`k`, and that it answers `z` from then on. From it follow the places of the tokens, and the stream of
every parser: some tokens, no more than its bound, and then the same reply for ever.
-/
namespace ComplexCalc

/-! ## All tokens -/

/-- The tokens that are found from an offset on, and the reply that is repeated after them. -/
inductive Lexes : Nat → List Char → List Token → Reply → Prop
  | ending {k : Nat} {cs rest : List Char} {t : Token} :
      scan k cs = .ok (t, rest) → t.kind = .eof → Lexes k cs [] (.ok t)
  | stuck {k : Nat} {cs : List Char} {e : SyntaxError} :
      scan k cs = .error e → Lexes k cs [] (.error e)
  | token {k : Nat} {cs rest : List Char} {t : Token} {w : List Token} {z : Reply} :
      scan k cs = .ok (t, rest) → t.kind ≠ .eof → Lexes (t.offset + t.text.length) rest w z →
        Lexes k cs (t :: w) z

/-- The list of tokens before a last reply, and that reply. -/
def listing (w : List Token) : Reply → List Token × Option SyntaxError
  | .ok t => (w ++ [t], none)
  | .error e => (w, some e)

theorem exists_lexes (k : Nat) (cs : List Char) :
    ∃ w z, Lexes k cs w z ∧ tokensWith TokenKind.all k cs = listing w z := by
  fun_induction tokensWith TokenKind.all k cs with
  | case1 k cs e h => exact ⟨[], _, .stuck h, rfl⟩
  | case2 k cs t rest h ht => exact ⟨[], _, .ending h ht, rfl⟩
  | case3 k cs t rest h ht ts stop hts ih =>
    obtain ⟨w, z, hl, hw⟩ := ih
    rw [hts] at hw
    cases z <;> cases hw <;> exact ⟨t :: _, _, .token h ht hl, rfl⟩

theorem listing_fst (w : List Token) (z : Reply) : (listing w z).1 = w ++ z.toOption.toList := by
  cases z <;> simp [listing, Except.toOption]

theorem listing_injective {w v : List Token} {z y : Reply} (h : listing w z = listing v y) :
    w = v ∧ z = y := by
  cases z <;> cases y <;> simp_all [listing]

namespace Lexes

variable {k : Nat} {cs text : List Char} {w : List Token} {z : Reply}

theorem final (h : Lexes k cs w z) : Parser.Final z := by
  induction h with
  | ending _ ht =>
    intro u hu
    cases hu
    exact ht
  | stuck =>
    intro u hu
    cases hu
  | token _ _ _ ih => exact ih

theorem kind_ne_eof (h : Lexes k cs w z) : ∀ t ∈ w, t.kind ≠ .eof := by
  induction h with
  | ending | stuck => simp
  | token _ ht _ ih => simpa [ht] using ih

/-- There are no more tokens than characters. -/
theorem length_le (h : Lexes k cs w z) : w.length ≤ cs.length := by
  induction h with
  | ending | stuck => exact Nat.zero_le _
  | token hs ht _ ih => exact Nat.lt_of_le_of_lt ih ((scanWith_length hs).resolve_left ht)

/-- After the tokens of a text comes its end, or a character with which none begins. -/
theorem reply (hk : k ≤ text.length) (h : Lexes k (text.drop k) w z) :
    z = .ok (.ending text) ∨ ∃ c j, z = .error (.unknownCharacter c j) ∧ StuckAt text j c := by
  generalize hcs : text.drop k = cs at h
  induction h with
  | ending hs ht =>
    rcases scan_ok hk (hcs ▸ hs) with rfl | ⟨hne, -⟩
    · exact .inl rfl
    · exact absurd ht hne
  | stuck hs =>
    obtain ⟨c, j, rfl, -, hj⟩ := scan_error hk (hcs ▸ hs)
    exact .inr ⟨c, j, rfl, hj⟩
  | token hs ht _ ih =>
    rcases scan_ok hk (hcs ▸ hs) with rfl | ⟨-, -, -, hle, hrest⟩
    · exact absurd rfl ht
    · exact ih hle hrest.symm

end Lexes

/-- The place of a reply in the text. -/
def Reply.offset : Reply → Nat
  | .ok t => t.offset
  | .error e => e.offset

/-- The tokens of a text stand one after the other, and the last reply comes after all of them. -/
theorem Lexes.sorted {k : Nat} {text : List Char} {w : List Token} {z : Reply}
    (hk : k ≤ text.length) (h : Lexes k (text.drop k) w z) :
    (w.map Token.offset ++ [z.offset]).Pairwise (· < ·) ∧
      ∀ j ∈ w.map Token.offset ++ [z.offset], k ≤ j ∧ j ≤ text.length := by
  generalize hcs : text.drop k = cs at h
  induction h with
  | ending hs ht =>
    rcases scan_ok hk (hcs ▸ hs) with rfl | ⟨hne, -⟩
    · simpa [Reply.offset, Token.ending] using hk
    · exact absurd ht hne
  | stuck hs =>
    obtain ⟨c, j, rfl, hj, hget, -⟩ := scan_error hk (hcs ▸ hs)
    obtain ⟨hlt, -⟩ := List.getElem?_eq_some_iff.1 hget
    simpa [Reply.offset, SyntaxError.offset] using ⟨hj, Nat.le_of_lt hlt⟩
  | @token k cs rest t w z hs ht _ ih =>
    rcases scan_ok hk (hcs ▸ hs) with rfl | ⟨-, hoff, htext, hle, hrest⟩
    · exact absurd rfl ht
    · have hpos := List.length_pos_iff.2 htext
      obtain ⟨hsorted, hall⟩ := ih hle hrest.symm
      rw [List.map_cons, List.cons_append]
      refine ⟨List.pairwise_cons.2 ⟨fun j hj => ?_, hsorted⟩, ?_⟩
      · have := (hall j hj).1
        omega
      · rintro j (- | ⟨-, hj⟩)
        · omega
        · have := hall j hj
          omega

/-! ## The stream of a parser -/

namespace Lexer

theorem stream_of_ending {l : Lexer} {t : Token} (hp : l.peeked = some t) (ht : t.kind = .eof) :
    l.stream = .const (.ok t) := by
  have hn : l.next = (.ok t, { l with finished := true }) := by simp [next, peek, hp, ht]
  have hstay : Lexer.next { l with finished := true } = (.ok t, { l with finished := true }) := by
    simp [next, peek, hp, ht]
  rw [stream_of_next hn (stream_eq_const hstay), ← Stream'.const_eq]

theorem stream_of_lexes {k : Nat} {cs : List Char} {w : List Token} {z : Reply}
    (h : Lexes k cs w z) {l : Lexer} (hp : l.peeked = none) (hk : l.offset = k) (hcs : l.rest = cs) :
    l.stream = w.map .ok ++ₛ .const z := by
  induction h generalizing l with
  | @ending k cs rest t hs ht =>
    have hn : l.next = (.ok t, ⟨l.source, rest, t.offset + t.text.length, some t, true⟩) := by
      simp [next, peek, hp, hk, hcs, hs, ht]
    rw [stream_of_next hn (stream_of_ending rfl ht), ← Stream'.const_eq]
    rfl
  | @stuck k cs e hs =>
    have hn : l.next = (.error e, l.skipBlanks) := by simp [next, peek, hp, hk, hcs, hs]
    exact (stream_error hn).1
  | @token k cs rest t w z hs ht _ ih =>
    have hn : l.next = (.ok t, { l with rest := rest, offset := t.offset + t.text.length }) := by
      simp [next, peek, hp, hk, hcs, hs, ht]
    exact stream_of_next hn (ih hp rfl rfl)

theorem exists_stream (l : Lexer) : ∃ (w : List Token) (z : Reply),
    Parser.Final z ∧ w.length ≤ l.rest.length + 1 ∧ l.stream = w.map .ok ++ₛ .const z := by
  obtain ⟨w, z, h, -⟩ := exists_lexes l.offset l.rest
  have hw := h.length_le
  rcases hp : l.peeked with - | t
  · exact ⟨w, z, h.final, by omega, stream_of_lexes h hp rfl rfl⟩
  by_cases ht : t.kind = .eof
  · refine ⟨[], .ok t, ?_, Nat.zero_le _, stream_of_ending hp ht⟩
    rintro u hu
    cases hu
    exact ht
  · refine ⟨t :: w, z, h.final, Nat.succ_le_succ hw, ?_⟩
    have hn : l.next = (.ok t, { l with peeked := none }) := by simp [next, peek, hp, ht]
    exact stream_of_next hn (stream_of_lexes h rfl rfl rfl)

end Lexer

namespace Parser

/-- Before a parser lie some tokens, fewer than its bound, and then the same reply for ever. -/
theorem exists_stream (p : Parser) : ∃ (w : List Token) (z : Reply),
    Final z ∧ w.length < p.bound ∧ p.stream = w.map .ok ++ₛ .const z := by
  obtain ⟨w, z, hz, hw, hs⟩ := p.lexer.exists_stream
  refine ⟨p.pending ++ w, z, hz, ?_, ?_⟩
  · rw [List.length_append, bound]
    omega
  · rw [stream, hs, List.map_append, Stream'.append_append_stream]

theorem stream_ofChars {text : List Char} {w : List Token} {z : Reply} (h : Lexes 0 text w z)
    (journal : Journal) : (ofChars text journal).stream = w.map .ok ++ₛ .const z := by
  simpa [stream, ofChars] using Lexer.stream_of_lexes h rfl rfl rfl

theorem length_lt_bound {text : List Char} {w : List Token} {z : Reply} (h : Lexes 0 text w z)
    (journal : Journal) : w.length < (ofChars text journal).bound := by
  have := h.length_le
  simp only [bound, ofChars, Lexer.ofChars, List.length_nil]
  omega

end Parser
end ComplexCalc
