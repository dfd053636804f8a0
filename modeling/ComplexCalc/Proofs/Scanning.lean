import ComplexCalc.Lexer
import Mathlib.Data.List.Basic
/-!
# Scanning for one token

Scanning skips blanks and stops at the end of the text, at a token of the first kind that matches, or
at a character with which no token begins. No token reaches beyond the end of the text.
-/
namespace ComplexCalc

/-! ## No token is longer than the text -/

namespace Match

theorem char_le (c : Char) (cs : List Char) : char c cs ≤ cs.length := by
  cases cs with
  | nil => exact Nat.le_refl 0
  | cons d cs =>
    simp only [char, List.length_cons]
    split <;> omega

theorem single_le (c : Char) (cs : List Char) : single c cs ≤ cs.length := by
  rcases cs with - | ⟨d, - | ⟨e, cs⟩⟩
  · exact Nat.le_refl 0
  all_goals
    simp only [single, List.length_cons]
    split <;> omega

theorem word_le (w cs : List Char) : word w cs ≤ cs.length := by
  unfold word
  split
  · rename_i h
    exact (List.isPrefixOf_iff_prefix.1 h).length_le
  · exact Nat.zero_le _

/-! A text that begins with another character -/

section Other
variable {c d : Char} (h : d ≠ c) (cs : List Char)
include h

theorem char_of_ne : char c (d :: cs) = 0 := if_neg h

theorem single_of_ne : single c (d :: cs) = 0 := by
  cases cs <;> simp [single, h]

theorem word_of_ne (w : List Char) : word (c :: w) (d :: cs) = 0 := by
  simp [word, h.symm]

end Other

theorem run_le (cs : List Char) : run cs ≤ cs.length := (List.takeWhile_sublist _).length_le

theorem digitRun_le (cs : List Char) : digitRun cs ≤ cs.length := by
  cases cs with
  | nil => exact Nat.le_refl 0
  | cons c cs =>
    have := run_le cs
    simp only [digitRun, List.length_cons]
    split <;> omega

theorem fraction_le (cs : List Char) : fraction cs ≤ cs.length := by
  unfold fraction
  split
  · rename_i cs
    have := digitRun_le cs
    simp only [List.length_cons]
    omega
  · exact Nat.zero_le _

theorem exponentPart_le (cs : List Char) : exponentPart cs ≤ cs.length := by
  rcases cs with - | ⟨c, - | ⟨s, ds⟩⟩
  · exact Nat.le_refl 0
  · simp only [exponentPart, List.length_cons]
    split <;> simp
  · have := run_le ds
    have := run_le (s :: ds)
    simp only [exponentPart, List.length_cons] at *
    split
    · split <;> omega
    · omega

theorem imaginaryMark_le (cs : List Char) : imaginaryMark cs ≤ cs.length := by
  unfold imaginaryMark
  split <;> simp

/-- A part that is matched in what `n` characters leave ends within the text. -/
theorem add_le_of_drop {part : List Char → Nat} (hpart : ∀ cs, part cs ≤ cs.length)
    {cs : List Char} {n : Nat} (hn : n ≤ cs.length) : n + part (cs.drop n) ≤ cs.length := by
  have := hpart (cs.drop n)
  rw [List.length_drop] at this
  omega

theorem decimal_le (cs : List Char) : decimal cs ≤ cs.length := by
  unfold decimal
  dsimp only
  split
  · exact Nat.zero_le _
  · have hfraction := add_le_of_drop fraction_le (digitRun_le cs)
    have hexponent := add_le_of_drop exponentPart_le hfraction
    exact add_le_of_drop imaginaryMark_le hexponent

/-- A base is told by two characters. -/
theorem length_of_base? {cs : List Char} {b : Base} (h : base? cs = some b) : 2 ≤ cs.length := by
  unfold base? at h
  split at h <;> simp at h ⊢

theorem literal_le (cs : List Char) : literal cs ≤ cs.length := by
  unfold literal
  split
  · rename_i b hb
    exact add_le_of_drop (fun cs => (List.takeWhile_sublist b.allows).length_le) (length_of_base? hb)
  · exact decimal_le cs

theorem name_le (cs : List Char) : name cs ≤ cs.length := by
  have hrun : ∀ cs : List Char, (cs.takeWhile isNameChar).length ≤ cs.length := fun _ =>
    (List.takeWhile_sublist _).length_le
  unfold name
  split
  · rename_i cs
    split
    · rename_i d ds
      have := hrun (d :: ds)
      rw [List.length_cons]
      split <;> omega
    · exact Nat.zero_le _
  · exact hrun cs

end Match

theorem TokenKind.length_le (k : TokenKind) (cs : List Char) : k.length cs ≤ cs.length := by
  cases k with
  | leftParen | rightParen | comma | pipe => exact Match.char_le _ cs
  | assign | plus | minus | asterisk | slash | exclamation => exact Match.single_le _ cs
  | exponent | mod => exact Match.word_le _ cs
  | literal => exact Match.literal_le cs
  | identifier => exact Match.name_le cs
  | eof => exact Nat.zero_le _

/-! ## The first kind that matches -/

namespace TokenKind

theorem mem_all (k : TokenKind) : k ∈ all := by cases k <;> decide

/-- The kind that is found first has a token there, and no kind before it has. -/
theorem firstAmong_eq_some {kinds : List TokenKind} {cs : List Char} {k : TokenKind}
    {n : Nat} (h : firstAmong kinds cs = some (k, n)) : n = k.length cs ∧ 0 < n ∧
      ∃ earlier later, kinds = earlier ++ k :: later ∧ ∀ j ∈ earlier, j.length cs = 0 := by
  obtain ⟨earlier, j, later, rfl, hj, hearlier⟩ := List.findSome?_eq_some_iff.1 h
  split at hj
  · rename_i hpos
    cases hj
    refine ⟨rfl, hpos, earlier, later, rfl, fun i hi => ?_⟩
    have := hearlier i hi
    by_contra hne
    rw [if_pos (by omega)] at this
    cases this
  · cases hj

theorem le_length_of_firstAmong {kinds : List TokenKind} {cs : List Char} {k : TokenKind} {n : Nat}
    (h : firstAmong kinds cs = some (k, n)) : n ≤ cs.length :=
  (firstAmong_eq_some h).1 ▸ k.length_le cs

theorem ne_eof_of_firstAmong {kinds : List TokenKind} {cs : List Char} {k : TokenKind} {n : Nat}
    (h : firstAmong kinds cs = some (k, n)) : k ≠ .eof := by
  rintro rfl
  obtain ⟨hn, hpos, -⟩ := firstAmong_eq_some h
  exact absurd hn (Nat.ne_of_gt hpos)

theorem length_of_firstAmong_eq_none {cs : List Char} (h : firstAmong all cs = none)
    (k : TokenKind) : k.length cs = 0 := by
  have hk := List.findSome?_eq_none_iff.1 h k k.mem_all
  by_contra hne
  rw [if_pos (by omega)] at hk
  cases hk

end TokenKind

/-! ## What scanning finds -/

/-- The end of a text as a token. -/
def Token.ending (text : List Char) : Token := ⟨.eof, [], text.length⟩

/-- The text has a character at the offset with which no token begins, and which is no blank. -/
def StuckAt (text : List Char) (offset : Nat) (c : Char) : Prop :=
  text[offset]? = some c ∧ Text.isBlank c = false ∧
    ∀ k : TokenKind, k.length (text.drop offset) = 0

theorem drop_succ_of_drop {text cs : List Char} {c : Char} {k : Nat} (h : text.drop k = c :: cs) :
    text.drop (k + 1) = cs ∧ text[k]? = some c ∧ k < text.length := by
  have hk : k < text.length := by
    by_contra hge
    rw [List.drop_eq_nil_of_le (by omega)] at h
    cases h
  rw [List.drop_eq_getElem_cons hk] at h
  cases h
  exact ⟨rfl, by simp [hk], hk⟩

/-- What lies at a place of the text: its end, a token of the first kind that matches, or a character
with which no token begins. -/
inductive Found (text : List Char) (j : Nat) : Scan → Prop
  | ending : j = text.length → Found text j (.ok (.ending text, []))
  | token {k : TokenKind} {n : Nat} : TokenKind.firstAmong TokenKind.all (text.drop j) = some (k, n) →
      Found text j (.ok (⟨k, (text.drop j).take n, j⟩, text.drop (j + n)))
  | stuck {c : Char} : StuckAt text j c → Found text j (.error (.unknownCharacter c j))

/-- The characters from one place of the text up to another are blanks. -/
def BlankBetween (text : List Char) (i k : Nat) : Prop :=
  ∀ j c, i ≤ j → j < k → text[j]? = some c → Text.isBlank c

theorem BlankBetween.refl (text : List Char) (i : Nat) : BlankBetween text i i := fun _ _ hi hj =>
  absurd hj (Nat.not_lt.2 hi)

theorem scan_found {text : List Char} {i : Nat} (hi : i ≤ text.length) :
    ∃ j, i ≤ j ∧ j ≤ text.length ∧ BlankBetween text i j ∧ Found text j (scan i (text.drop i)) := by
  unfold scan
  generalize hcs : text.drop i = cs
  induction cs generalizing i with
  | nil =>
    have hend : i = text.length := Nat.le_antisymm hi (List.drop_eq_nil_iff.1 hcs)
    rw [scanWith, hend]
    exact ⟨text.length, Nat.le_refl _, Nat.le_refl _, .refl text _, .ending rfl⟩
  | cons c cs ih =>
    obtain ⟨hdrop, hget, hlt⟩ := drop_succ_of_drop hcs
    rw [scanWith]
    split
    · rename_i k n hk
      refine ⟨i, Nat.le_refl i, hi, BlankBetween.refl text i, ?_⟩
      rw [← hcs] at hk ⊢
      rw [List.drop_drop]
      exact .token hk
    · rename_i hnone
      split
      · rename_i hblank
        obtain ⟨j, hij, hj, hbetween, hfound⟩ := ih hlt hdrop
        refine ⟨j, by omega, hj, fun k d hk hkj hd => ?_, hfound⟩
        rcases Nat.eq_or_lt_of_le hk with rfl | hk
        · cases hget.symm.trans hd
          exact hblank
        · exact hbetween k d hk hkj hd
      · rename_i hblank
        refine ⟨i, Nat.le_refl i, hi, BlankBetween.refl text i, .stuck ⟨hget, ?_, fun k => ?_⟩⟩
        · simpa using hblank
        · rw [hcs]
          exact TokenKind.length_of_firstAmong_eq_none hnone k

/-- What scanning finds in a text from an offset on is the end of the text or a token, and the rest
of the text comes after it. -/
theorem scan_ok {text rest : List Char} {k : Nat} {t : Token} (hk : k ≤ text.length)
    (h : scan k (text.drop k) = .ok (t, rest)) :
    t = .ending text ∨ t.kind ≠ .eof ∧ k ≤ t.offset ∧ t.text ≠ [] ∧
      t.offset + t.text.length ≤ text.length ∧ rest = text.drop (t.offset + t.text.length) := by
  obtain ⟨j, hkj, -, -, hfound⟩ := scan_found hk
  rw [h] at hfound
  cases hfound with
  | ending => exact .inl rfl
  | @token kind n hj =>
    have hn := TokenKind.le_length_of_firstAmong hj
    have hpos := (TokenKind.firstAmong_eq_some hj).2.1
    have hlen : ((text.drop j).take n).length = n := List.length_take_of_le hn
    rw [List.length_drop] at hn
    refine .inr ⟨TokenKind.ne_eof_of_firstAmong hj, hkj, ?_, ?_, by rw [hlen]⟩
    · exact List.ne_nil_of_length_pos (hlen.symm ▸ hpos)
    · rw [hlen]
      dsimp only
      omega

/-- Where scanning finds no token there is a character with which none begins. -/
theorem scan_error {text : List Char} {k : Nat} {e : SyntaxError} (hk : k ≤ text.length)
    (h : scan k (text.drop k) = .error e) :
    ∃ c j, e = .unknownCharacter c j ∧ k ≤ j ∧ StuckAt text j c := by
  obtain ⟨j, hkj, -, -, hfound⟩ := scan_found hk
  rw [h] at hfound
  cases hfound with
  | stuck hc => exact ⟨_, j, rfl, hkj, hc⟩

end ComplexCalc
