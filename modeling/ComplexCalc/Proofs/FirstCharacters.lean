import ComplexCalc.Proofs.Scanning
import ComplexCalc.Text.Blank
/-!
# First characters of tokens

The first character of a text leaves few kinds for the token there. Two kinds share a first character
only for the asterisks, which the second character tells apart, and for the keyword of the remainder,
which is also the beginning of a name. No token begins with a blank.
-/
namespace ComplexCalc

/-! ## Blanks -/

namespace Text

/-- What a check of a list of characters finds holds of each of them. -/
theorem forall_mem_of_all {P : Char → Prop} [DecidablePred P] {cs : List Char}
    (h : cs.all (fun c => decide (P c)) = true) : ∀ c ∈ cs, P c :=
  fun c hc => of_decide_eq_true (List.all_eq_true.1 h c hc)

/-- The blanks, by their numbers. -/
def blanks : List Char :=
  ([0x09, 0x0A, 0x0B, 0x0C, 0x0D, 0x1C, 0x1D, 0x1E, 0x1F, 0x20, 0x85, 0xA0, 0x1680, 0x2000, 0x2001,
    0x2002, 0x2003, 0x2004, 0x2005, 0x2006, 0x2007, 0x2008, 0x2009, 0x200A, 0x2028, 0x2029, 0x202F,
    0x205F, 0x3000] : List Nat).map Char.ofNat

theorem mem_blanks {b : Char} (h : isBlank b = true) : b ∈ blanks := by
  rw [blanks, List.mem_map]
  refine ⟨b.toNat, ?_, Char.ofNat_toNat b⟩
  simp only [isBlank, Bool.or_eq_true, Bool.and_eq_true, decide_eq_true_eq, beq_iff_eq] at h
  simp only [List.mem_cons, List.not_mem_nil, or_false]
  omega

/-- What is checked for each of the blanks holds of all of them. -/
theorem of_isBlank {P : Char → Bool} (h : blanks.all P = true) {b : Char} (hb : isBlank b = true) :
    P b = true := List.all_eq_true.1 h b (mem_blanks hb)

end Text

/-! ## Digits and letters -/

namespace Match

theorem not_isDigit_of_isNameChar {c : Char} (h : isNameChar c) : c.isDigit = false := by
  by_contra hdigit
  simp only [Bool.not_eq_false, Char.isDigit, Bool.and_eq_true, decide_eq_true_eq] at hdigit
  have hle : c.toNat ≤ 57 := hdigit.2
  simp only [isNameChar, Text.isLetter, if_pos (show c.toNat < 128 by omega), Bool.or_eq_true,
    beq_iff_eq] at h
  rcases h with hletter | rfl
  · rcases (Bool.or_eq_true ..).mp hletter with hupper | hlower
    · have hge : 65 ≤ c.toNat := (of_decide_eq_true hupper).1
      omega
    · have hge : 97 ≤ c.toNat := of_decide_eq_true ((Bool.and_eq_true ..).mp hlower).1
      omega
  · exact absurd hle (by decide)

theorem literal_of_not_isDigit {c : Char} (h : c.isDigit = false) (cs : List Char) :
    literal (c :: cs) = 0 := by
  have hbase : base? (c :: cs) = none := by
    unfold base?
    split
    case h_4 => rfl
    all_goals
      rename_i heq
      cases heq
      exact absurd h (by decide)
  simp [literal, hbase, decimal, digitRun, h]

/-- A base is told by the first two characters. -/
theorem base?_cons_cons (c d : Char) (cs : List Char) : base? (c :: d :: cs) = base? [c, d] := by
  unfold base?
  grind

theorem name_of_not_isNameChar {c : Char} (h : isNameChar c = false) (cs : List Char) :
    name (c :: cs) = 0 := by
  have hc : c ≠ '_' := by
    rintro rfl
    exact absurd h (by decide)
  simp [name, hc, h]

end Match

/-! ## How the tokens of a kind begin -/

namespace TokenKind

/-- The characters of the tokens of a kind, where all of them are the same. -/
def symbol : TokenKind → List Char
  | leftParen => ['(']
  | rightParen => [')']
  | comma => [',']
  | assign => ['=']
  | plus => ['+']
  | minus => ['-']
  | asterisk => ['*']
  | slash => ['/']
  | exponent => ['*', '*']
  | exclamation => ['!']
  | pipe => ['|']
  | mod => ['m', 'o', 'd']
  | literal | identifier | eof => []

/-- What a text begins with, if it begins with a token of the kind. -/
inductive Opens (cs : List Char) : TokenKind → Prop
  | symbol {k : TokenKind} : k.symbol ≠ [] → k.symbol <+: cs → Opens cs k
  | literal {c : Char} {rest : List Char} : cs = c :: rest → c.isDigit = true → Opens cs .literal
  | identifier {c : Char} {rest : List Char} :
      cs = c :: rest → Match.isNameChar c = true → Opens cs .identifier

theorem opens_of_length_pos {k : TokenKind} {cs : List Char} (h : 0 < k.length cs) :
    Opens cs k := by
  rcases cs with - | ⟨c, cs⟩
  · exact absurd (Nat.lt_of_lt_of_le h (k.length_le [])) (Nat.lt_irrefl 0)
  have hchar : ∀ d, 0 < Match.char d (c :: cs) → [d] <+: c :: cs := fun d hd => by
    by_cases hc : c = d
    · simp [hc]
    · exact absurd (Match.char_of_ne hc cs) (Nat.ne_of_gt hd)
  have hsingle : ∀ d, 0 < Match.single d (c :: cs) → [d] <+: c :: cs := fun d hd => by
    by_cases hc : c = d
    · simp [hc]
    · exact absurd (Match.single_of_ne hc cs) (Nat.ne_of_gt hd)
  have hword : ∀ w, 0 < Match.word w (c :: cs) → w <+: c :: cs := fun w hw => by
    by_cases hstart : w.isPrefixOf (c :: cs)
    · exact List.isPrefixOf_iff_prefix.1 hstart
    · rw [Match.word, if_neg hstart] at hw
      exact absurd hw (Nat.lt_irrefl 0)
  cases k with
  | leftParen | rightParen | comma | pipe => exact .symbol (by decide) (hchar _ h)
  | assign | plus | minus | asterisk | slash | exclamation =>
    exact .symbol (by decide) (hsingle _ h)
  | exponent | mod => exact .symbol (by decide) (hword _ h)
  | literal =>
    refine .literal rfl (c := c) ?_
    by_contra hc
    exact Nat.ne_of_gt h (Match.literal_of_not_isDigit (Bool.eq_false_iff.2 hc) cs)
  | identifier =>
    refine .identifier rfl (c := c) ?_
    by_contra hc
    exact Nat.ne_of_gt h (Match.name_of_not_isNameChar (Bool.eq_false_iff.2 hc) cs)
  | eof => exact absurd h (Nat.lt_irrefl 0)

/-- What is true of every character that begins a symbol, of the digits and of the characters of names
is true of the first character of a token. -/
theorem head_of_length_pos {P : TokenKind → Char → Bool}
    (hsymbol : ∀ k ∈ all, k.symbol.head?.all (P k)) {c : Char} {cs : List Char}
    (hliteral : c.isDigit = true → P .literal c = true)
    (hidentifier : Match.isNameChar c = true → P .identifier c = true) {k : TokenKind}
    (h : 0 < k.length (c :: cs)) : P k c = true := by
  cases opens_of_length_pos h with
  | symbol hne hk =>
    obtain ⟨d, ds, hd⟩ := List.exists_cons_of_ne_nil hne
    have := hsymbol k k.mem_all
    rw [hd] at hk this
    rw [← (List.cons_prefix_cons.1 hk).1]
    exact this
  | literal heq hc =>
    cases heq
    exact hliteral hc
  | identifier heq hc =>
    cases heq
    exact hidentifier hc

/-- A blank begins no token. -/
theorem length_of_isBlank {b : Char} (hb : Text.isBlank b = true) (cs : List Char) (k : TokenKind) :
    k.length (b :: cs) = 0 := by
  have hdigit : b.isDigit = false := by
    simpa using Text.of_isBlank (P := fun b => !b.isDigit) (by decide) hb
  have hname : Match.isNameChar b = false := by
    simpa using Text.of_isBlank (P := fun b => !Match.isNameChar b) (by decide +kernel) hb
  by_contra hne
  have := head_of_length_pos (P := fun _ c => !Text.isBlank c) (by decide) (by simp [hdigit])
    (by simp [hname]) (Nat.pos_of_ne_zero hne)
  simp [hb] at this

theorem firstAmong_of_isBlank {b : Char} (hb : Text.isBlank b = true) (cs : List Char)
    (kinds : List TokenKind) : firstAmong kinds (b :: cs) = none :=
  List.findSome?_eq_none_iff.2 fun k _ => if_neg (by rw [length_of_isBlank hb]; decide)

/-- At a character of a name there is a name or the keyword of the remainder, and nothing else. -/
theorem length_of_isNameChar {c : Char} (h : Match.isNameChar c) (cs : List Char)
    {k : TokenKind} (hmod : k ≠ .mod) (hname : k ≠ .identifier) : k.length (c :: cs) = 0 := by
  by_contra hne
  have := head_of_length_pos (P := fun k c => !Match.isNameChar c || k = .mod || k = .identifier)
    (by decide) (fun hdigit => by simp [Match.not_isDigit_of_isNameChar h] at hdigit) (by simp)
    (Nat.pos_of_ne_zero hne)
  simp [h, hmod, hname] at this

/-- At a digit there is a literal and nothing else. -/
theorem length_of_isDigit {c : Char} (h : c.isDigit = true) (cs : List Char) {k : TokenKind}
    (hk : k ≠ .literal) : k.length (c :: cs) = 0 := by
  by_contra hne
  have := head_of_length_pos (P := fun k c => !c.isDigit || k = .literal) (by decide) (by simp)
    (fun hname => by simp [Match.not_isDigit_of_isNameChar hname]) (Nat.pos_of_ne_zero hne)
  simp [h, hk] at this

/-- A text that begins with a digit begins with a literal and with no other token. -/
theorem firstAmong_of_isDigit {c : Char} {cs : List Char} (hc : c.isDigit = true)
    (hliteral : 0 < Match.literal (c :: cs)) :
    firstAmong all (c :: cs) = some (.literal, Match.literal (c :: cs)) := by
  have hother : ∀ k : TokenKind, k ≠ .literal → k.length (c :: cs) = 0 := fun _ =>
    length_of_isDigit hc cs
  have hlength : TokenKind.literal.length (c :: cs) = Match.literal (c :: cs) := rfl
  simp [firstAmong, all, hother, hlength, hliteral]

/-! ## Two tokens at one place -/

/-- A symbol is the beginning of another one only for the asterisks. -/
theorem eq_of_symbol_prefix {j k : TokenKind} (hj : j.symbol ≠ []) (h : j.symbol <+: k.symbol) :
    j = k ∨ j = .asterisk ∧ k = .exponent := by
  have hall : ∀ j ∈ all, ∀ k ∈ all, j.symbol ≠ [] → j.symbol.isPrefixOf k.symbol = true →
      j = k ∨ j = .asterisk ∧ k = .exponent := by decide
  exact hall j j.mem_all k k.mem_all hj (List.isPrefixOf_iff_prefix.2 h)

/-- Only one of two asterisks is followed by another one. -/
theorem exponent_of_asterisk {cs : List Char} (h : 0 < asterisk.length cs) :
    exponent.length cs = 0 := by
  rcases cs with - | ⟨c, - | ⟨d, cs⟩⟩
  · rfl
  · simp [length, Match.word, List.isPrefixOf]
  · by_contra hne
    have hone : c = '*' ∧ d ≠ '*' := by
      by_contra hone
      simp [length, Match.single, hone] at h
    simp [length, Match.word, List.isPrefixOf, hone.2.symm] at hne

/-- A text begins with tokens of two kinds only if it begins with the keyword of the remainder, which
is then the beginning of a name. -/
theorem eq_of_length_pos {j k : TokenKind} {cs : List Char} (hj : 0 < j.length cs)
    (hk : 0 < k.length cs) :
    j = k ∨ (j = .mod ∧ k = .identifier) ∨ (j = .identifier ∧ k = .mod) := by
  obtain ⟨c, rest, rfl⟩ : ∃ c rest, cs = c :: rest :=
    List.exists_cons_of_length_pos (Nat.lt_of_lt_of_le hj (j.length_le cs))
  by_cases hname : Match.isNameChar c = true
  · have hof : ∀ {k : TokenKind}, 0 < k.length (c :: rest) → k = .mod ∨ k = .identifier := by
      intro k hk
      by_contra hne
      exact Nat.ne_of_gt hk (length_of_isNameChar hname rest (fun h => hne (.inl h))
        (fun h => hne (.inr h)))
    rcases hof hj with rfl | rfl <;> rcases hof hk with rfl | rfl <;> simp
  by_cases hdigit : c.isDigit = true
  · have hof : ∀ {k : TokenKind}, 0 < k.length (c :: rest) → k = .literal := fun hk => by
      by_contra hne
      exact Nat.ne_of_gt hk (length_of_isDigit hdigit rest hne)
    exact .inl ((hof hj).trans (hof hk).symm)
  have hsymbol : ∀ {k : TokenKind}, 0 < k.length (c :: rest) →
      k.symbol ≠ [] ∧ k.symbol <+: c :: rest := by
    intro k hk
    cases opens_of_length_pos hk with
    | symbol hne hstart => exact ⟨hne, hstart⟩
    | literal heq hc =>
      cases heq
      exact absurd hc hdigit
    | identifier heq hc =>
      cases heq
      exact absurd hc hname
  obtain ⟨hjne, hjstart⟩ := hsymbol hj
  obtain ⟨hkne, hkstart⟩ := hsymbol hk
  rcases List.prefix_or_prefix_of_prefix hjstart hkstart with h | h
  · rcases eq_of_symbol_prefix hjne h with rfl | ⟨rfl, rfl⟩
    · exact .inl rfl
    · exact absurd (exponent_of_asterisk hj) (Nat.ne_of_gt hk)
  · rcases eq_of_symbol_prefix hkne h with rfl | ⟨rfl, rfl⟩
    · exact .inl rfl
    · exact absurd (exponent_of_asterisk hk) (Nat.ne_of_gt hj)

/-- Which kind is found first does not depend on the order of the kinds, as long as no name is tried
before the keyword of the remainder. -/
theorem firstAmong_eq_some_iff {kinds : List TokenKind} (hall : ∀ k, k ∈ kinds)
    (horder : kinds.Pairwise fun j k => ¬(j = .identifier ∧ k = .mod)) {cs : List Char}
    {k : TokenKind} {n : Nat} : firstAmong kinds cs = some (k, n) ↔
      k.length cs = n ∧ 0 < n ∧ (k = .identifier → TokenKind.mod.length cs = 0) := by
  have hfound : ∀ {k n}, firstAmong kinds cs = some (k, n) → k = .identifier →
      TokenKind.mod.length cs = 0 := by
    rintro k n h rfl
    obtain ⟨-, -, earlier, later, rfl, hearlier⟩ := firstAmong_eq_some h
    obtain ⟨-, hlater, -⟩ := List.pairwise_append.1 horder
    rcases List.mem_append.1 (hall .mod) with hmem | hmem
    · exact hearlier _ hmem
    · rcases List.mem_cons.1 hmem with hmod | hmem
      · cases hmod
      · exact absurd ⟨rfl, rfl⟩ ((List.pairwise_cons.1 hlater).1 _ hmem)
  constructor
  · intro h
    obtain ⟨hn, hpos, -⟩ := firstAmong_eq_some h
    exact ⟨hn.symm, hpos, hfound h⟩
  · rintro ⟨rfl, hpos, hname⟩
    rcases hfirst : firstAmong kinds cs with - | ⟨j, m⟩
    · have hnone := List.findSome?_eq_none_iff.1 hfirst k (hall k)
      rw [if_pos hpos] at hnone
      cases hnone
    · obtain ⟨rfl, hj, -⟩ := firstAmong_eq_some hfirst
      rcases eq_of_length_pos hj hpos with rfl | ⟨rfl, rfl⟩ | ⟨rfl, rfl⟩
      · rfl
      · exact absurd (hname rfl) (Nat.ne_of_gt hj)
      · exact absurd (hfound hfirst rfl) (Nat.ne_of_gt hpos)

theorem firstAmong_all_iff {cs : List Char} {k : TokenKind} {n : Nat} :
    firstAmong all cs = some (k, n) ↔
      k.length cs = n ∧ 0 < n ∧ (k = .identifier → TokenKind.mod.length cs = 0) :=
  firstAmong_eq_some_iff mem_all (by decide)

end TokenKind
end ComplexCalc
