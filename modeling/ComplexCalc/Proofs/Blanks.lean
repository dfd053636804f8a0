import ComplexCalc.Proofs.FirstCharacters
/-!
# Tokens before a blank

No token goes on at a blank: with a blank and anything else behind it, a text begins with the token that
it begins with alone.
-/
namespace ComplexCalc

theorem Text.ne_of_isBlank {b : Char} (hb : isBlank b = true) {c : Char} (hc : isBlank c = false) :
    b ≠ c := by
  rintro rfl
  rw [hb] at hc
  cases hc

theorem Text.not_mem_of_isBlank {b : Char} (hb : isBlank b = true) {cs : List Char}
    (hcs : ∀ c ∈ cs, isBlank c = false) : b ∉ cs := fun hmem => ne_of_isBlank hb (hcs b hmem) rfl

namespace Match

/-- A blank stands in no run and in no name. -/
theorem not_allowed_of_isBlank {b : Char} (hb : Text.isBlank b = true) :
    isRunChar b = false ∧ (∀ base : Base, base.allows b = false) ∧ isNameChar b = false := by
  have hall : Text.blanks.all (fun b => !isRunChar b && !Base.binary.allows b &&
      !Base.octal.allows b && !Base.hexadecimal.allows b && !isNameChar b) = true := by
    decide +kernel
  have h := Text.of_isBlank hall hb
  simp only [Bool.and_eq_true, Bool.not_eq_true'] at h
  obtain ⟨⟨⟨⟨hrun, hbinary⟩, hoctal⟩, hhexadecimal⟩, hname⟩ := h
  refine ⟨hrun, fun base => ?_, hname⟩
  cases base <;> assumption

section Blank
variable {b : Char} (hb : Text.isBlank b = true) (cs rest : List Char)
include hb

omit hb in
theorem takeWhile_append_of_not {p : Char → Bool} (hp : p b = false) :
    (cs ++ b :: rest).takeWhile p = cs.takeWhile p := by
  induction cs with
  | nil => simp [hp]
  | cons c cs ih => simp only [List.cons_append, List.takeWhile_cons, ih]

theorem char_append_blank {c : Char} (hc : Text.isBlank c = false) :
    char c (cs ++ b :: rest) = char c cs := by
  cases cs with
  | nil => exact if_neg (Text.ne_of_isBlank hb hc)
  | cons d cs => rfl

theorem single_append_blank {c : Char} (hc : Text.isBlank c = false) :
    single c (cs ++ b :: rest) = single c cs := by
  have hne := Text.ne_of_isBlank hb hc
  rcases cs with - | ⟨d, - | ⟨e, cs⟩⟩
  · cases rest <;> simp [single, hne]
  · simp [single, hne]
  · rfl

theorem word_append_blank {w : List Char} (hw : ∀ c ∈ w, Text.isBlank c = false) :
    word w (cs ++ b :: rest) = word w cs := by
  have hprefix : w.isPrefixOf (cs ++ b :: rest) = w.isPrefixOf cs := by
    induction w generalizing cs with
    | nil => simp
    | cons c w ih =>
      obtain ⟨hc, hw⟩ := List.forall_mem_cons.1 hw
      cases cs with
      | nil => simp [List.isPrefixOf, (Text.ne_of_isBlank hb hc).symm]
      | cons d cs => simp [List.isPrefixOf, ih _ hw]
  rw [word, hprefix, word]

/-! ## Literals -/

theorem run_append_blank : run (cs ++ b :: rest) = run cs := by
  rw [run, takeWhile_append_of_not _ _ (not_allowed_of_isBlank hb).1, run]

theorem digitRun_append_blank : digitRun (cs ++ b :: rest) = digitRun cs := by
  cases cs with
  | nil =>
    have hdigit : b.isDigit = false := (Bool.or_eq_false_iff.1 (not_allowed_of_isBlank hb).1).1
    simp [digitRun, hdigit]
  | cons c cs => simp only [List.cons_append, digitRun, run_append_blank hb]

theorem fraction_append_blank : fraction (cs ++ b :: rest) = fraction cs := by
  have hpoint : b ≠ '.' := Text.ne_of_isBlank hb (by decide)
  rcases cs with - | ⟨c, cs⟩
  · simp [fraction, hpoint]
  · by_cases hc : c = '.'
    · simp [fraction, hc, digitRun_append_blank hb]
    · simp [fraction, hc]

theorem exponentPart_append_blank : exponentPart (cs ++ b :: rest) = exponentPart cs := by
  have hne : b ∉ ['e', 'E', '+', '-'] := Text.not_mem_of_isBlank hb
    (Text.forall_mem_of_all (by decide))
  simp only [List.mem_cons, List.not_mem_nil, or_false, not_or] at hne
  rcases cs with - | ⟨c, - | ⟨s, ds⟩⟩
  · simp [exponentPart, hne]
  · have hrun : run (b :: rest) = 0 := run_append_blank hb [] rest
    simp [exponentPart, hrun, hne]
  · have hds := run_append_blank hb ds rest
    have hsds := run_append_blank hb (s :: ds) rest
    rw [List.cons_append] at hsds
    simp only [List.cons_append, exponentPart, hds, hsds]

theorem imaginaryMark_append_blank : imaginaryMark (cs ++ b :: rest) = imaginaryMark cs := by
  have hmark : b ≠ 'i' := Text.ne_of_isBlank hb (by decide)
  rcases cs with - | ⟨c, cs⟩
  · simp [imaginaryMark, hmark]
  · by_cases hc : c = 'i' <;> simp [imaginaryMark, hc]

theorem decimal_append_blank : decimal (cs ++ b :: rest) = decimal cs := by
  have hdrop : ∀ {n}, n ≤ cs.length → (cs ++ b :: rest).drop n = cs.drop n ++ b :: rest :=
    fun hn => List.drop_append_of_le_length hn
  have hwhole := digitRun_le cs
  have hfraction := add_le_of_drop fraction_le hwhole
  have hexponent := add_le_of_drop exponentPart_le hfraction
  simp only [decimal, digitRun_append_blank hb, hdrop hwhole, fraction_append_blank hb,
    hdrop hfraction, exponentPart_append_blank hb, hdrop hexponent, imaginaryMark_append_blank hb]

theorem base?_append_blank : base? (cs ++ b :: rest) = base? cs := by
  have hne : b ∉ ['0', 'b', 'o', 'x'] := Text.not_mem_of_isBlank hb
    (Text.forall_mem_of_all (by decide))
  simp only [List.mem_cons, List.not_mem_nil, or_false, not_or] at hne
  rcases cs with - | ⟨c, - | ⟨d, cs⟩⟩
  · simp [base?, hne]
  · rw [List.singleton_append, base?_cons_cons]
    simp [base?, hne]
  · rw [List.cons_append, List.cons_append, base?_cons_cons, ← base?_cons_cons]

theorem literal_append_blank : literal (cs ++ b :: rest) = literal cs := by
  unfold literal
  rw [base?_append_blank hb]
  split
  · rename_i base hbase
    rw [List.drop_append_of_le_length (length_of_base? hbase),
      takeWhile_append_of_not _ _ ((not_allowed_of_isBlank hb).2.1 base)]
  · exact decimal_append_blank hb cs rest

/-! ## Names -/

theorem name_append_blank : name (cs ++ b :: rest) = name cs := by
  have hname : isNameChar b = false := (not_allowed_of_isBlank hb).2.2
  have hunderscore : b ≠ '_' := Text.ne_of_isBlank hb (by decide)
  rcases cs with - | ⟨c, cs⟩
  · simp [name, hname, hunderscore]
  · by_cases hc : c = '_'
    · subst hc
      cases cs with
      | nil => simp [name, hname]
      | cons d cs =>
        have := takeWhile_append_of_not (d :: cs) rest hname
        rw [List.cons_append] at this
        simp only [List.cons_append, name, this]
    · have := takeWhile_append_of_not (c :: cs) rest hname
      simpa [name, hc] using congrArg List.length this

end Blank
end Match

namespace TokenKind

variable {b : Char} (hb : Text.isBlank b = true) (cs rest : List Char)
include hb

theorem length_append_blank (k : TokenKind) : k.length (cs ++ b :: rest) = k.length cs := by
  cases k with
  | leftParen | rightParen | comma | pipe => exact Match.char_append_blank hb cs rest (by decide)
  | assign | plus | minus | asterisk | slash | exclamation =>
    exact Match.single_append_blank hb cs rest (by decide)
  | exponent | mod => exact Match.word_append_blank hb cs rest (Text.forall_mem_of_all (by decide))
  | literal => exact Match.literal_append_blank hb cs rest
  | identifier => exact Match.name_append_blank hb cs rest
  | eof => rfl

/-- A blank and what comes after it do not change the token that a text begins with. -/
theorem firstAmong_append_blank (kinds : List TokenKind) :
    firstAmong kinds (cs ++ b :: rest) = firstAmong kinds cs := by
  simp only [firstAmong, length_append_blank hb]

end TokenKind
end ComplexCalc
