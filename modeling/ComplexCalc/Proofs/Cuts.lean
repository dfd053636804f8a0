import ComplexCalc.Proofs.FirstCharacters
import ComplexCalc.Proofs.Lexing
import ComplexCalc.Proofs.Parsing
/-!
# Tokens without what follows them

What follows a token may keep a longer token from standing there, but the token itself does not need
it: where the text ends behind the token, the same token is found.
-/
namespace ComplexCalc

/-! ## Parts of tokens -/

namespace Match

/-- What matches within the beginning of a text matches there without the rest of the text. -/
def Cuts (part : List Char → Nat) : Prop :=
  ∀ cs rest, part (cs ++ rest) ≤ cs.length → part (cs ++ rest) = part cs

/-- The same of what matches at all. -/
def CutsBehind (part : List Char → Nat) : Prop :=
  ∀ cs rest, 0 < part (cs ++ rest) → part (cs ++ rest) ≤ cs.length → part (cs ++ rest) = part cs

theorem Cuts.behind {part : List Char → Nat} (h : Cuts part) : CutsBehind part :=
  fun cs rest _ => h cs rest

theorem takeWhile_cuts (p : Char → Bool) : Cuts fun cs => (cs.takeWhile p).length := by
  intro cs rest h
  dsimp only at h ⊢
  rw [List.takeWhile_append] at h ⊢
  split
  · rename_i hall
    rw [if_pos hall, List.length_append] at h
    rw [List.length_append, hall]
    omega
  · rfl

theorem char_cuts (c : Char) : Cuts (char c) := by
  intro cs rest h
  cases cs with
  | nil => exact Nat.eq_zero_of_le_zero h
  | cons d cs => rfl

theorem single_cuts (c : Char) : CutsBehind (single c) := by
  intro cs rest hpos h
  rcases cs with - | ⟨d, - | ⟨e, cs⟩⟩
  · exact absurd hpos (Nat.not_lt.2 h)
  · cases rest with
    | nil => rfl
    | cons e rest =>
      have hc : d = c ∧ e ≠ c := by
        by_contra hne
        rw [List.singleton_append, single, if_neg hne] at hpos
        exact absurd hpos (Nat.lt_irrefl 0)
      simp [single, hc]
  · rfl

theorem word_cuts (w : List Char) : CutsBehind (word w) := by
  intro cs rest hpos h
  by_cases hstart : w.isPrefixOf (cs ++ rest)
  · rw [word, if_pos hstart] at h ⊢
    have hcs : w <+: cs := List.prefix_of_prefix_length_le (List.isPrefixOf_iff_prefix.1 hstart)
      (List.prefix_append cs rest) h
    rw [word, if_pos (List.isPrefixOf_iff_prefix.2 hcs)]
  · rw [word, if_neg hstart] at hpos
    exact absurd hpos (Nat.lt_irrefl 0)

theorem word_append {w cs : List Char} (h : 0 < word w cs) (rest : List Char) :
    0 < word w (cs ++ rest) := by
  unfold word at h ⊢
  split at h
  · rename_i hstart
    have := (List.isPrefixOf_iff_prefix.1 hstart).trans (List.prefix_append cs rest)
    rwa [if_pos (List.isPrefixOf_iff_prefix.2 this)]
  · exact absurd h (Nat.lt_irrefl 0)

/-! ### Literals -/

theorem run_cuts : Cuts run := takeWhile_cuts isRunChar

theorem digitRun_cuts : Cuts digitRun := by
  intro cs rest h
  cases cs with
  | nil => exact Nat.eq_zero_of_le_zero h
  | cons c cs =>
    by_cases hc : c.isDigit = true
    · rw [List.cons_append, digitRun, if_pos hc] at h ⊢
      rw [digitRun, if_pos hc, run_cuts cs rest (by rw [List.length_cons] at h; omega)]
    · simp [digitRun, hc]

theorem fraction_cuts : Cuts fraction := by
  intro cs rest h
  cases cs with
  | nil => exact Nat.eq_zero_of_le_zero h
  | cons c cs =>
    by_cases hc : c = '.'
    · subst hc
      rw [List.cons_append] at h ⊢
      simp only [fraction, List.length_cons] at h ⊢
      rw [digitRun_cuts cs rest (by omega)]
    · simp [fraction, hc]

theorem exponentPart_cuts : Cuts exponentPart := by
  intro cs rest h
  rcases cs with - | ⟨c, - | ⟨s, ds⟩⟩
  · exact Nat.eq_zero_of_le_zero h
  · cases rest with
    | nil => rfl
    | cons s ds =>
      simp only [List.singleton_append, exponentPart, List.length_singleton] at h ⊢
      split at h
      · rename_i hc
        split at h
        · omega
        · rename_i hs
          rw [if_pos hc, if_neg hs, if_pos hc]
          omega
      · rename_i hc
        rw [if_neg hc, if_neg hc]
  · have hds : run (ds ++ rest) ≤ ds.length → run (ds ++ rest) = run ds := run_cuts ds rest
    have hsds := run_cuts (s :: ds) rest
    simp only [List.cons_append, exponentPart, List.length_cons] at h hsds ⊢
    split
    · rename_i hc
      rw [if_pos hc] at h
      split
      · rename_i hs
        rw [if_pos hs] at h
        rw [hds (by omega)]
      · rename_i hs
        rw [if_neg hs] at h
        rw [hsds (by omega)]
    · rfl

theorem imaginaryMark_cuts : Cuts imaginaryMark := by
  intro cs rest h
  cases cs with
  | nil => exact Nat.eq_zero_of_le_zero h
  | cons c cs => by_cases hc : c = 'i' <;> simp [imaginaryMark, hc]

/-- A part that is matched behind `n` characters ends within the text or does not need the rest. -/
theorem Cuts.drop {part : List Char → Nat} (h : Cuts part) (cs rest : List Char) {n : Nat}
    (hn : n + part ((cs ++ rest).drop n) ≤ cs.length) :
    part ((cs ++ rest).drop n) = part (cs.drop n) := by
  rw [List.drop_append_of_le_length (by omega)] at hn ⊢
  exact h _ _ (by rw [List.length_drop]; omega)

theorem decimal_cuts : Cuts decimal := by
  intro cs rest h
  unfold decimal at h ⊢
  by_cases hzero : digitRun (cs ++ rest) = 0
  · have hcs : digitRun cs = 0 := by rw [← digitRun_cuts cs rest (by omega), hzero]
    simp only [hzero, hcs, if_pos]
  · simp only [if_neg hzero] at h ⊢
    have hwhole := digitRun_cuts cs rest (by omega)
    rw [hwhole] at h hzero ⊢
    have hfraction := fraction_cuts.drop cs rest (n := digitRun cs) (by omega)
    rw [hfraction] at h ⊢
    have hexponent := exponentPart_cuts.drop cs rest
      (n := digitRun cs + fraction (cs.drop (digitRun cs))) (by omega)
    rw [hexponent] at h ⊢
    rw [imaginaryMark_cuts.drop cs rest (by omega), if_neg hzero]

theorem base?_append {cs : List Char} (hcs : 2 ≤ cs.length) (rest : List Char) :
    base? (cs ++ rest) = base? cs := by
  rcases cs with - | ⟨c, - | ⟨d, cs⟩⟩
  · simp at hcs
  · simp at hcs
  · rw [List.cons_append, List.cons_append, base?_cons_cons, ← base?_cons_cons]

theorem literal_cuts : Cuts literal := by
  intro cs rest h
  unfold literal at h
  split at h
  · rename_i b hb
    have htwo : 2 ≤ cs.length := by omega
    have hrun := (takeWhile_cuts b.allows).drop cs rest (n := 2) h
    simp only [literal, hb, base?_append htwo rest ▸ hb]
    rw [hrun]
  · rename_i hb
    have hcs : base? cs = none := by
      by_contra hne
      obtain ⟨b, hcs⟩ := Option.ne_none_iff_exists'.1 hne
      rw [base?_append (length_of_base? hcs), hcs] at hb
      cases hb
    simp only [literal, hb, hcs]
    exact decimal_cuts cs rest h

/-! ### Names -/

theorem name_cuts : CutsBehind name := by
  intro cs rest hpos h
  have hrun := takeWhile_cuts isNameChar
  rcases cs with - | ⟨c, cs⟩
  · exact absurd hpos (Nat.not_lt.2 h)
  · by_cases hc : c = '_'
    · subst hc
      rcases cs with - | ⟨d, cs⟩
      · rcases rest with - | ⟨d, rest⟩
        · rfl
        · simp only [List.singleton_append, name, List.length_singleton] at h hpos
          split at h
          · rename_i hd
            rw [List.takeWhile_cons_of_pos hd, List.length_cons] at h
            omega
          · rename_i hd
            rw [if_neg hd] at hpos
            exact absurd hpos (Nat.lt_irrefl 0)
      · have hcut := hrun (d :: cs) rest
        simp only [List.cons_append, name, List.length_cons] at h hcut ⊢
        split
        · rename_i hd
          rw [if_pos hd] at h
          rw [hcut (by omega)]
        · rfl
    · have hcut := hrun (c :: cs) rest
      simp only [List.cons_append] at h hcut ⊢
      have hname : ∀ cs, name (c :: cs) = ((c :: cs).takeWhile isNameChar).length := fun cs => by
        simp [name, hc]
      rw [hname] at h ⊢
      rw [hname]
      exact hcut h

end Match

/-! ## Tokens -/

namespace TokenKind

theorem length_cuts (k : TokenKind) : Match.CutsBehind k.length := by
  cases k with
  | leftParen | rightParen | comma | pipe => exact (Match.char_cuts _).behind
  | assign | plus | minus | asterisk | slash | exclamation => exact Match.single_cuts _
  | exponent | mod => exact Match.word_cuts _
  | literal => exact Match.literal_cuts.behind
  | identifier => exact Match.name_cuts
  | eof => exact fun _ _ h => absurd h (Nat.lt_irrefl 0)

/-- A token that ends within the beginning of a text is found there without the rest of the text. -/
theorem firstAmong_of_append {cs rest : List Char} {k : TokenKind} {n : Nat}
    (h : firstAmong all (cs ++ rest) = some (k, n)) (hn : n ≤ cs.length) :
    firstAmong all cs = some (k, n) := by
  obtain ⟨hlength, hpos, hname⟩ := firstAmong_all_iff.1 h
  rw [← hlength] at hpos hn ⊢
  refine firstAmong_all_iff.2 ⟨(k.length_cuts cs rest hpos hn).symm, hpos, fun hk => ?_⟩
  -- A keyword at the beginning of the beginning is one at the beginning of the text.
  by_contra hmod
  exact Nat.ne_of_gt (Match.word_append (Nat.pos_of_ne_zero hmod) rest) (hname hk)

end TokenKind
end ComplexCalc
