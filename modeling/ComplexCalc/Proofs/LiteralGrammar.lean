import ComplexCalc.Proofs.LongestMatch
import ComplexCalc.Proofs.Respacing
/-!
# The language of literals

The literals are a regular language: digits behind the marker of a base, or a decimal with an optional
fraction, an optional exponent and an optional imaginary mark. A text begins with a literal that is as
long as the longest of its prefixes in this language, and literals with blanks between them are the
tokens of a text.
-/
namespace ComplexCalc
namespace Match

open Computability

/-! ## The grammar -/

/-- The decimal digits. -/
def digits : List Char := ['0', '1', '2', '3', '4', '5', '6', '7', '8', '9']

/-- The characters of runs. -/
def runLetters : List Char := '_' :: digits

/-- Runs that begin with a digit. -/
def runs : Language Char := oneOf digits * (oneOf runLetters)∗

/-- A point and perhaps a run. -/
def fractions : Language Char := oneOf ['.'] * (1 + runs)

/-- A mark of exponents, perhaps a sign, and any digits and underscores. -/
def exponents : Language Char := oneOf ['e', 'E'] * (1 + oneOf ['+', '-']) * (oneOf runLetters)∗

/-- The decimal literals. -/
def decimals : Language Char := runs * (1 + fractions) * (1 + exponents) * (1 + oneOf ['i'])

namespace Base

/-- The character that tells a base from the others. -/
def marker : Base → Char
  | binary => 'b'
  | octal => 'o'
  | hexadecimal => 'x'

/-- The characters of the literals in a base. -/
def letters : Base → List Char
  | binary => ['_', '0', '1']
  | octal => ['_', '0', '1', '2', '3', '4', '5', '6', '7']
  | hexadecimal => ['_', '0', '1', '2', '3', '4', '5', '6', '7', '8', '9', 'a', 'b', 'c', 'd', 'e',
      'f', 'A', 'B', 'C', 'D', 'E', 'F']

/-- The literals in a base. -/
def literals (b : Base) : Language Char := {['0', b.marker]} * (oneOf b.letters)∗

end Base

/-- The literals. -/
def literals : Language Char :=
  Base.binary.literals + Base.octal.literals + Base.hexadecimal.literals + decimals

/-! ## Classes of characters -/

/-- Characters in a row, by their numbers. -/
theorem mem_range {c : Char} {k n : Nat} (h : k ≤ c.toNat ∧ c.toNat < k + n) :
    c ∈ (List.range' k n).map Char.ofNat :=
  List.mem_map.2 ⟨c.toNat, List.mem_range'_1.2 h, Char.ofNat_toNat c⟩

theorem isDigit_iff {c : Char} : c.isDigit = true ↔ c ∈ digits := by
  constructor
  · intro h
    simp only [Char.isDigit, Bool.and_eq_true, decide_eq_true_eq] at h
    have hc : 48 ≤ c.toNat ∧ c.toNat < 48 + 10 := ⟨h.1, Nat.lt_succ_of_le h.2⟩
    exact mem_range hc
  · exact Text.forall_mem_of_all (P := fun c => c.isDigit = true) (by decide) c

theorem isRunChar_iff {c : Char} : isRunChar c = true ↔ c ∈ runLetters := by
  simp only [isRunChar, Bool.or_eq_true, isDigit_iff, beq_iff_eq, runLetters, List.mem_cons,
    or_comm]

theorem Base.allows_iff {b : Base} {c : Char} : b.allows c = true ↔ c ∈ b.letters := by
  constructor
  · intro h
    rcases (Bool.or_eq_true ..).mp h with hc | h
    · rw [eq_of_beq hc]
      cases b <;> decide
    cases b with
    | binary =>
      simp only [Bool.or_eq_true, beq_iff_eq] at h
      rcases h with rfl | rfl <;> decide
    | octal =>
      simp only [Bool.and_eq_true, decide_eq_true_eq] at h
      exact List.mem_cons_of_mem _ (mem_range (k := 48) (n := 8) ⟨h.1, Nat.lt_succ_of_le h.2⟩)
    | hexadecimal =>
      have hsplit : letters hexadecimal = '_' :: (digits ++ (['a', 'b', 'c', 'd', 'e', 'f'] ++
        ['A', 'B', 'C', 'D', 'E', 'F'])) := rfl
      rw [hsplit]
      simp only [Bool.or_eq_true, Bool.and_eq_true, decide_eq_true_eq] at h
      refine List.mem_cons_of_mem _ ?_
      rcases h with (hdigit | h) | h
      · exact List.mem_append_left _ (isDigit_iff.1 hdigit)
      · exact List.mem_append_right _ (List.mem_append_left _
          (mem_range (k := 97) (n := 6) ⟨h.1, Nat.lt_succ_of_le h.2⟩))
      · exact List.mem_append_right _ (List.mem_append_right _
          (mem_range (k := 65) (n := 6) ⟨h.1, Nat.lt_succ_of_le h.2⟩))
  · exact Text.forall_mem_of_all (P := fun c => b.allows c = true) (by cases b <;> decide) c

/-! ## Decimals -/

theorem matches_run : Matches (oneOf runLetters)∗ run := matches_kstar fun _ => isRunChar_iff

theorem matches_digitRun : Matches runs digitRun := by
  have heq : digitRun = thenMatch (headIn digits) run := by
    funext cs
    cases cs with
    | nil => rfl
    | cons c cs => by_cases hc : c ∈ digits <;> simp [digitRun, thenMatch, headIn, isDigit_iff, hc]
  rw [heq]
  exact (matches_headIn _).mul matches_run nil_not_mem_oneOf (Language.nil_mem_kstar _) apart_oneOf

theorem matches_fraction : Matches fractions fraction := by
  have heq : fraction = thenMatch (headIn ['.']) digitRun := by
    funext cs
    cases cs with
    | nil => rfl
    | cons c cs => by_cases hc : c = '.' <;> simp [fraction, thenMatch, headIn, hc]
  rw [heq]
  exact (matches_headIn _).mul matches_digitRun.optional nil_not_mem_oneOf (.inl rfl) apart_oneOf

theorem matches_exponentPart : Matches exponents exponentPart := by
  have heq : exponentPart =
      thenMatch (thenMatch (headIn ['e', 'E']) (headIn ['+', '-'])) run := by
    funext cs
    rcases cs with - | ⟨c, - | ⟨s, ds⟩⟩
    · rfl
    · by_cases hc : c = 'e' ∨ c = 'E' <;> simp [exponentPart, thenMatch, headIn, run, hc]
    · by_cases hc : c = 'e' ∨ c = 'E' <;> by_cases hs : s = '+' ∨ s = '-' <;>
        simp [exponentPart, thenMatch, headIn, hc, hs]
  have hsign : Matches (oneOf ['e', 'E'] * (1 + oneOf ['+', '-']))
      (thenMatch (headIn ['e', 'E']) (headIn ['+', '-'])) :=
    (matches_headIn _).mul (matches_headIn _).optional nil_not_mem_oneOf (.inl rfl) apart_oneOf
  rw [heq]
  exact hsign.mul matches_run (nil_not_mem_mul nil_not_mem_oneOf) (Language.nil_mem_kstar _)
    ((within_oneOf.mul within_oneOf.optional).apart begins_kstar
      (Text.forall_mem_of_all (by decide)))

theorem matches_imaginaryMark : Matches (oneOf ['i']) imaginaryMark := by
  have heq : imaginaryMark = headIn ['i'] := by
    funext cs
    cases cs with
    | nil => rfl
    | cons c cs => by_cases hc : c = 'i' <;> simp [imaginaryMark, headIn, hc]
  rw [heq]
  exact matches_headIn _

theorem decimal_eq_thenMatch : decimal =
    thenMatch (thenMatch (thenMatch digitRun fraction) exponentPart) imaginaryMark := by
  funext cs
  by_cases h : digitRun cs = 0
  · simp [decimal, thenMatch, h]
  · simp [decimal, thenMatch, h]

theorem nil_not_mem_runs : [] ∉ runs := nil_not_mem_mul nil_not_mem_oneOf

theorem within_runs : Within runs (digits ++ runLetters) := within_oneOf.mul within_kstar

theorem within_fractions : Within fractions (['.'] ++ (digits ++ runLetters)) :=
  within_oneOf.mul within_runs.optional

theorem within_exponents : Within exponents (['e', 'E'] ++ ['+', '-'] ++ runLetters) :=
  (within_oneOf.mul within_oneOf.optional).mul within_kstar

theorem begins_runs : Begins runs digits := begins_oneOf.mul nil_not_mem_oneOf

theorem matches_decimal : Matches decimals decimal := by
  have hmantissa := within_runs.mul within_fractions.optional
  rw [decimal_eq_thenMatch]
  -- Each part begins with a character that the parts before it do not have.
  refine Matches.mul (.mul
    (.mul matches_digitRun matches_fraction.optional nil_not_mem_runs (.inl rfl) ?_)
    matches_exponentPart.optional (nil_not_mem_mul nil_not_mem_runs) (.inl rfl) ?_)
    matches_imaginaryMark.optional (nil_not_mem_mul (nil_not_mem_mul nil_not_mem_runs)) (.inl rfl) ?_
  · exact within_runs.apart (begins_oneOf.mul nil_not_mem_oneOf).optional
      (Text.forall_mem_of_all (by decide))
  · exact hmantissa.apart ((begins_oneOf.mul nil_not_mem_oneOf).mul
      (nil_not_mem_mul nil_not_mem_oneOf)).optional (Text.forall_mem_of_all (by decide))
  · exact (hmantissa.mul within_exponents.optional).apart begins_oneOf.optional
      (Text.forall_mem_of_all (by decide))

/-! ## Literals -/

/-- The length of a literal in a base. -/
def Base.length (b : Base) : List Char → Nat :=
  thenMatch (word ['0', b.marker]) fun cs => (cs.takeWhile b.allows).length

theorem Base.matches_length (b : Base) : Matches b.literals b.length :=
  (matches_word _).mul (matches_kstar fun _ => b.allows_iff)
    (fun h => List.cons_ne_nil _ _ (Eq.symm h)) (Language.nil_mem_kstar _) apart_word

theorem base?_eq_some_iff {b : Base} {cs : List Char} :
    base? cs = some b ↔ ['0', b.marker] <+: cs := by
  constructor
  · intro h
    unfold base? at h
    split at h <;> cases h <;> simp [Base.marker]
  · rintro ⟨rest, rfl⟩
    cases b <;> rfl

theorem Base.length_eq (b : Base) (cs : List Char) : b.length cs =
    if base? cs = some b then 2 + ((cs.drop 2).takeWhile b.allows).length else 0 := by
  by_cases h : ['0', b.marker] <+: cs
  · rw [if_pos (base?_eq_some_iff.2 h)]
    simp [length, thenMatch, word, List.isPrefixOf_iff_prefix.2 h]
  · rw [if_neg (mt base?_eq_some_iff.1 h)]
    have hword : word ['0', b.marker] cs = 0 := if_neg (mt List.isPrefixOf_iff_prefix.1 h)
    simp [length, thenMatch, hword]

/-- Read as a decimal, a literal in a base is over behind its first digit. -/
theorem decimal_of_base? {cs : List Char} {b : Base} (h : base? cs = some b) : decimal cs = 1 := by
  obtain ⟨rest, rfl⟩ := base?_eq_some_iff.1 h
  cases b <;> simp [Base.marker, decimal, digitRun, run, isRunChar, fraction, exponentPart,
    imaginaryMark]

theorem literal_eq_max : literal = fun cs => max (max (max (Base.binary.length cs)
    (Base.octal.length cs)) (Base.hexadecimal.length cs)) (decimal cs) := by
  funext cs
  simp only [Base.length_eq]
  rcases hb : base? cs with - | b
  · simp [literal, hb]
  · have hdecimal := decimal_of_base? hb
    cases b <;> simp only [literal, hb, hdecimal, reduceCtorEq, Option.some.injEq, if_true,
      if_false] <;> omega

theorem matches_literal : Matches literals literal := by
  rw [literal_eq_max]
  exact ((Base.binary.matches_length.add Base.octal.matches_length).add
    Base.hexadecimal.matches_length).add matches_decimal

theorem Base.nil_not_mem_literals (b : Base) : [] ∉ b.literals :=
  nil_not_mem_mul fun h => List.cons_ne_nil _ _ (Eq.symm h)

theorem nil_not_mem_literals : [] ∉ literals := by
  rintro (((h | h) | h) | h)
  · exact Base.nil_not_mem_literals _ h
  · exact Base.nil_not_mem_literals _ h
  · exact Base.nil_not_mem_literals _ h
  · exact nil_not_mem_mul (nil_not_mem_mul (nil_not_mem_mul nil_not_mem_runs)) h

theorem Base.begins_literals (b : Base) : Begins b.literals digits := by
  intro c v h
  obtain ⟨u, hu, x, -, heq⟩ := Language.mem_mul.1 h
  obtain rfl : u = ['0', b.marker] := hu
  cases heq
  decide

theorem begins_literals : Begins literals digits := by
  rintro c v (((h | h) | h) | h)
  · exact Base.begins_literals _ c v h
  · exact Base.begins_literals _ c v h
  · exact Base.begins_literals _ c v h
  · exact ((begins_runs.mul nil_not_mem_runs).mul (nil_not_mem_mul nil_not_mem_runs)).mul
      (nil_not_mem_mul (nil_not_mem_mul nil_not_mem_runs)) c v h

end Match

/-- A literal is one token of its own. -/
theorem isLexeme_of_mem_literals {w : List Char} (hw : w ∈ Match.literals) (offset : Nat) :
    Token.IsLexeme ⟨.literal, w, offset⟩ := by
  have hne : w ≠ [] := fun h => Match.nil_not_mem_literals (h ▸ hw)
  obtain ⟨c, cs, rfl⟩ := List.exists_cons_of_ne_nil hne
  have hlength : Match.literal (c :: cs) = (c :: cs).length := (Match.matches_literal.mem_iff hne).1 hw
  have hdigit := Match.isDigit_iff.2 (Match.begins_literals c cs hw)
  rw [Token.IsLexeme, TokenKind.firstAmong_of_isDigit hdigit (hlength ▸ Nat.succ_pos _), hlength]

/-- A text begins with a literal as long as its longest prefix in the language of literals. Words of the
language with blanks between them are the tokens of a text. -/
theorem literal_is_longest_match :
    (∀ text, Match.IsLongest Match.literals text (Match.literal text)) ∧
      ∀ words gaps after text, (∀ w ∈ words, w ∈ Match.literals) →
        Text.Gaps gaps after words.length → text = Text.spaced gaps words after →
          ∃ ts, (Lexer.ofChars text).Yields (ts ++ [.ending text]) none ∧
            ts.map (fun t => (t.kind, t.text)) = words.map fun w => (.literal, w) := by
  refine ⟨Match.matches_literal, fun words gaps after text hwords hgaps htext => ?_⟩
  have hlexemes : ∀ t ∈ words.map fun w => (⟨.literal, w, 0⟩ : Token), t.IsLexeme := fun t ht => by
    obtain ⟨w, hw, rfl⟩ := List.mem_map.1 ht
    exact isLexeme_of_mem_literals (hwords w hw) 0
  have hspells := Spells.spaced hlexemes (by rwa [List.length_map])
  rw [List.map_map, Function.comp_def, List.map_id', ← htext] at hspells
  obtain ⟨ts, hlexes, hsame⟩ := hspells 0
  rw [Nat.zero_add] at hlexes
  refine ⟨ts, (Lexer.yields_iff ..).2 (tokens_eq_listing_iff.2 hlexes), ?_⟩
  have := congrArg (List.map fun t => (t.kind, t.text)) hsame
  simpa [Function.comp_def, Token.unplaced] using this

/-- Two literals that are no numbers are words of the language as well. -/
theorem unreadable_literals_are_tokens :
    (∀ w ∈ [['0', 'x', '_'], ['1', '_', '.', 'e', '+', '_', 'i']], w ∈ Match.literals) ∧
      Text.Gaps [[], ['\t']] [' '] 2 ∧
      ∃ ts, (Lexer.ofChars ['0', 'x', '_', '\t', '1', '_', '.', 'e', '+', '_', 'i', ' ']).Yields
          (ts ++ [⟨.eof, [], 12⟩]) none ∧
        ts.map (fun t => (t.kind, t.text)) =
          [(.literal, ['0', 'x', '_']), (.literal, ['1', '_', '.', 'e', '+', '_', 'i'])] := by
  have hwords : ∀ w ∈ [['0', 'x', '_'], ['1', '_', '.', 'e', '+', '_', 'i']], w ∈ Match.literals :=
    List.forall_mem_cons.2 ⟨(Match.matches_literal.mem_iff (List.cons_ne_nil _ _)).2 (by decide),
      List.forall_mem_singleton.2 ((Match.matches_literal.mem_iff (List.cons_ne_nil _ _)).2 (by decide))⟩
  have hgaps : Text.Gaps [[], ['\t']] [' '] 2 :=
    ⟨rfl, by decide, by decide, by decide⟩
  exact ⟨hwords, hgaps, literal_is_longest_match.2 _ _ _ _ hwords hgaps rfl⟩

end ComplexCalc
