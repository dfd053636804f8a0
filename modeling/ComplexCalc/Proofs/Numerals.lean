import ComplexCalc.Literal
import ComplexCalc.Proofs.FirstCharacters
import ComplexCalc.Proofs.ShortestDecimal
/-!
# Numerals

A numeral is a decimal number in writing: digits, perhaps a point and further digits, perhaps an
exponent with its sign. It is read as the decimal that it writes, and it is a literal up to whatever
cannot continue it.
-/
namespace ComplexCalc

/-- One digit or more. -/
structure DigitRun where
  chars : List Char
  nonempty : chars ≠ []
  digits : ∀ c ∈ chars, c.isDigit = true

/-- The digit zero alone. -/
def DigitRun.zero : DigitRun := ⟨['0'], by simp, by simp⟩

/-- A decimal number in writing. -/
structure Numeral where
  whole : DigitRun
  fraction : Option DigitRun
  /-- Whether the exponent is negative, and its digits. -/
  exponent : Option (Bool × DigitRun)

namespace Numeral

/-- The digits after the point. -/
def fractionDigits (n : Numeral) : List Char :=
  match n.fraction with
  | some f => f.chars
  | none => []

/-- The point and the digits after it. -/
def fractionChars (n : Numeral) : List Char :=
  match n.fraction with
  | some f => '.' :: f.chars
  | none => []

/-- The exponent after its mark. -/
def exponentChars (n : Numeral) : List Char :=
  match n.exponent with
  | some (negative, ds) => 'e' :: (if negative then '-' else '+') :: ds.chars
  | none => []

/-- The characters of a numeral. -/
def chars (n : Numeral) : List Char := n.whole.chars ++ (n.fractionChars ++ n.exponentChars)

/-- The value of the exponent. -/
def exponentValue (n : Numeral) : Int :=
  match n.exponent with
  | some (negative, ds) =>
    if negative then -(Decimal.digitsValue ds.chars : Int) else Decimal.digitsValue ds.chars
  | none => 0

/-- The decimal that a numeral writes. -/
def decimal (n : Numeral) : Decimal :=
  ⟨Decimal.digitsValue (n.whole.chars ++ n.fractionDigits), n.exponentValue - n.fractionDigits.length⟩

/-! ## Reading -/

section Reading

theorem takeWhile_digits {cs : List Char} (rest : List Char) (h : ∀ c ∈ cs, c.isDigit = true)
    (hrest : ∀ c, rest.head? = some c → c.isDigit = false) :
    (cs ++ rest).takeWhile Char.isDigit = cs ∧ (cs ++ rest).dropWhile Char.isDigit = rest := by
  have hstop : rest.takeWhile Char.isDigit = [] ∧ rest.dropWhile Char.isDigit = rest := by
    cases rest with
    | nil => exact ⟨rfl, rfl⟩
    | cons c rest =>
      have hc := hrest c rfl
      simp [hc]
  rw [List.takeWhile_append_of_pos h, List.dropWhile_append_of_pos h, hstop.1, hstop.2]
  exact ⟨List.append_nil cs, rfl⟩

/-- What holds of the characters that two texts begin with holds of the one that both together
begin with. -/
theorem forall_head?_append {P : Char → Prop} {cs rest : List Char}
    (hcs : ∀ c, cs.head? = some c → P c) (hrest : ∀ c, rest.head? = some c → P c) :
    ∀ c, (cs ++ rest).head? = some c → P c := by
  cases cs with
  | nil => exact hrest
  | cons c cs => exact hcs

/-- Digits, perhaps with a point and further digits, are read as a decimal up to the exponent behind
them. -/
theorem ofChars?_append {whole fraction point rest : List Char} (hne : whole ≠ [])
    (hwhole : ∀ c ∈ whole, c.isDigit = true) (hfraction : ∀ c ∈ fraction, c.isDigit = true)
    (hpoint : point = '.' :: fraction ∨ point = [] ∧ fraction = [])
    (hrest : ∀ c, rest.head? = some c → c.isDigit = false ∧ c ≠ '.') :
    Decimal.ofChars? (whole ++ (point ++ rest)) = (Decimal.exponentPart? rest).map fun k =>
      ⟨Decimal.digitsValue (whole ++ fraction), k - fraction.length⟩ := by
  have hhead : ∀ c, (point ++ rest).head? = some c → c.isDigit = false := by
    refine forall_head?_append (fun c hc => ?_) fun c hc => (hrest c hc).1
    rcases hpoint with rfl | ⟨rfl, -⟩ <;> cases hc
    rfl
  have hpart : Decimal.fractionPart (point ++ rest) = (fraction, rest) := by
    rcases hpoint with rfl | ⟨rfl, rfl⟩
    · obtain ⟨htake, hdrop⟩ := takeWhile_digits rest hfraction fun c hc => (hrest c hc).1
      simp only [List.cons_append, Decimal.fractionPart, htake, hdrop]
    · unfold Decimal.fractionPart
      split
      · rename_i cs h
        exact absurd rfl (hrest '.' (by rw [← List.nil_append rest, h]; rfl)).2
      · rfl
  obtain ⟨htake, hdrop⟩ := takeWhile_digits (point ++ rest) hwhole hhead
  rw [Decimal.ofChars?, htake, hdrop, hpart]
  simp only [if_neg hne]

theorem exponentDigits?_chars (ds : DigitRun) :
    Decimal.exponentDigits? ds.chars = some (Decimal.digitsValue ds.chars) :=
  if_pos ⟨ds.nonempty, List.all_eq_true.2 ds.digits⟩

theorem exponentPart?_chars (n : Numeral) :
    Decimal.exponentPart? n.exponentChars = some n.exponentValue := by
  unfold exponentChars exponentValue
  rcases n.exponent with - | ⟨_ | _, ds⟩
  · rfl
  · simp [Decimal.exponentPart?, Decimal.exponent?, exponentDigits?_chars]
  · simp [Decimal.exponentPart?, Decimal.exponent?, exponentDigits?_chars]

theorem head?_exponentChars (n : Numeral) (c : Char) (h : n.exponentChars.head? = some c) : c = 'e' := by
  unfold exponentChars at h
  split at h <;> simp at h
  exact h.symm

theorem head?_fractionChars (n : Numeral) (c : Char) (h : n.fractionChars.head? = some c) :
    c = '.' := by
  unfold fractionChars at h
  split at h <;> simp at h
  exact h.symm

theorem fractionChars_cases (n : Numeral) : n.fractionChars = '.' :: n.fractionDigits ∨
    n.fractionChars = [] ∧ n.fractionDigits = [] := by
  unfold fractionChars fractionDigits
  cases n.fraction with
  | none => exact .inr ⟨rfl, rfl⟩
  | some f => exact .inl rfl

theorem isDigit_of_mem_fractionDigits (n : Numeral) (c : Char) (hc : c ∈ n.fractionDigits) :
    c.isDigit = true := by
  unfold fractionDigits at hc
  split at hc
  · rename_i f hf
    exact f.digits c hc
  · cases hc

/-- A numeral is read as the decimal it writes. -/
theorem ofChars?_chars (n : Numeral) : Decimal.ofChars? n.chars = some n.decimal := by
  rw [chars, ofChars?_append n.whole.nonempty n.whole.digits n.isDigit_of_mem_fractionDigits
    n.fractionChars_cases fun c hc => by rw [n.head?_exponentChars c hc]; decide, exponentPart?_chars]
  rfl

end Reading

/-! ## Literals -/

section Literals
variable {rest : List Char}

/-- What comes after a numeral does not continue it. -/
def Ends (rest : List Char) : Prop :=
  ∀ c, rest.head? = some c → Match.isRunChar c = false ∧ c ∉ ['.', 'e', 'E', 'b', 'o', 'x']

theorem run_append {cs : List Char} (h : ∀ c ∈ cs, c.isDigit = true)
    (hrest : ∀ c, rest.head? = some c → Match.isRunChar c = false) :
    Match.run (cs ++ rest) = cs.length := by
  have hstop : rest.takeWhile Match.isRunChar = [] := by
    cases rest with
    | nil => rfl
    | cons c rest => simp [hrest c rfl]
  have hrun : ∀ c ∈ cs, Match.isRunChar c = true := fun c hc => by simp [Match.isRunChar, h c hc]
  rw [Match.run, List.takeWhile_append_of_pos hrun, hstop, List.append_nil]

theorem digitRun_append (ds : DigitRun)
    (hrest : ∀ c, rest.head? = some c → Match.isRunChar c = false) :
    Match.digitRun (ds.chars ++ rest) = ds.chars.length := by
  obtain ⟨cs, hne, hdigits⟩ := ds
  cases cs with
  | nil => exact absurd rfl hne
  | cons c cs =>
    rw [List.cons_append, Match.digitRun, if_pos (hdigits c (by simp)),
      run_append (fun c hc => hdigits c (by simp [hc])) hrest, List.length_cons, Nat.add_comm]

theorem exponentPart_append (n : Numeral) (hrest : Ends rest) :
    Match.exponentPart (n.exponentChars ++ rest) = n.exponentChars.length := by
  have hrun : ∀ c, rest.head? = some c → Match.isRunChar c = false := fun c hc => (hrest c hc).1
  unfold exponentChars
  rcases n.exponent with - | ⟨negative, ds⟩
  · cases rest with
    | nil => rfl
    | cons c rest =>
      have hc := (hrest c rfl).2
      simp only [List.mem_cons, not_or] at hc
      simp [Match.exponentPart, hc.2.1, hc.2.2.1]
  · have hds := run_append ds.digits hrun
    cases negative <;> simp [Match.exponentPart, hds] <;> omega

theorem fraction_append (n : Numeral) (hrest : Ends rest) :
    Match.fraction (n.fractionChars ++ (n.exponentChars ++ rest)) = n.fractionChars.length := by
  have hhead : ∀ c, (n.exponentChars ++ rest).head? = some c →
      Match.isRunChar c = false ∧ c ≠ '.' := by
    refine forall_head?_append (fun c hc => ?_) fun c hc => ?_
    · rw [n.head?_exponentChars c hc]
      decide
    · have := (hrest c hc).2
      simp only [List.mem_cons, not_or] at this
      exact ⟨(hrest c hc).1, this.1⟩
  unfold fractionChars
  split
  · rename_i f hf
    rw [List.cons_append, Match.fraction, digitRun_append f fun c hc => (hhead c hc).1,
      List.length_cons, Nat.add_comm]
  · rw [List.nil_append]
    generalize n.exponentChars ++ rest = cs at hhead
    unfold Match.fraction
    split
    · exact absurd rfl (hhead '.' rfl).2
    · rfl

/-- A numeral is a decimal literal up to what does not continue it, together with an imaginary mark. -/
theorem decimal_append (n : Numeral) (hrest : Ends rest) :
    Match.decimal (n.chars ++ rest) = n.chars.length + Match.imaginaryMark rest := by
  have hchars : n.chars ++ rest = n.whole.chars ++ (n.fractionChars ++ (n.exponentChars ++ rest)) := by
    rw [chars, List.append_assoc, List.append_assoc]
  have hwhole : Match.digitRun (n.chars ++ rest) = n.whole.chars.length := by
    rw [hchars]
    refine digitRun_append n.whole (forall_head?_append (fun c hc => ?_) (forall_head?_append
      (fun c hc => ?_) fun c hc => (hrest c hc).1))
    · rw [n.head?_fractionChars c hc]
      rfl
    · rw [n.head?_exponentChars c hc]
      rfl
  have hfraction : (n.chars ++ rest).drop n.whole.chars.length =
      n.fractionChars ++ (n.exponentChars ++ rest) := by
    rw [hchars, List.drop_left]
  have hexponent : (n.chars ++ rest).drop (n.whole.chars.length + n.fractionChars.length) =
      n.exponentChars ++ rest := by
    rw [← List.drop_drop, hfraction, List.drop_left]
  have hmark : (n.chars ++ rest).drop
      (n.whole.chars.length + n.fractionChars.length + n.exponentChars.length) = rest := by
    rw [← List.drop_drop, hexponent, List.drop_left]
  have hpos : n.whole.chars.length ≠ 0 := fun h => n.whole.nonempty (List.length_eq_zero_iff.1 h)
  have hlength : n.chars.length =
      n.whole.chars.length + n.fractionChars.length + n.exponentChars.length := by
    rw [chars, List.length_append, List.length_append, Nat.add_assoc]
  simp only [Match.decimal, hwhole, if_neg hpos, hfraction, fraction_append n hrest, hexponent,
    exponentPart_append n hrest, hmark, hlength]

theorem base?_append (n : Numeral) (hrest : Ends rest) : Match.base? (n.chars ++ rest) = none := by
  have hsecond : ∀ c, (n.chars ++ rest).tail.head? = some c → c ∉ ['b', 'o', 'x'] := by
    obtain ⟨c, cs, hcs⟩ := List.exists_cons_of_ne_nil n.whole.nonempty
    have hdigits : ∀ d, cs.head? = some d → d ∉ ['b', 'o', 'x'] := by
      rintro d hd hmem
      have hdigit := n.whole.digits d (by rw [hcs]; exact List.mem_cons_of_mem c (List.mem_of_head? hd))
      simp only [List.mem_cons, List.not_mem_nil, or_false] at hmem
      rcases hmem with rfl | rfl | rfl <;> cases hdigit
    rw [chars, hcs, List.append_assoc, List.append_assoc, List.cons_append, List.tail_cons]
    refine forall_head?_append hdigits (forall_head?_append (fun d hd => ?_)
      (forall_head?_append (fun d hd => ?_) fun d hd => ?_))
    · rw [n.head?_fractionChars d hd]
      decide
    · rw [n.head?_exponentChars d hd]
      decide
    · have := (hrest d hd).2
      simp only [List.mem_cons, not_or] at this ⊢
      exact ⟨this.2.2.2.1, this.2.2.2.2.1, this.2.2.2.2.2.1, List.not_mem_nil⟩
  unfold Match.base?
  split
  · rename_i h
    exact absurd (by simp) (hsecond 'b' (by rw [h]; rfl))
  · rename_i h
    exact absurd (by simp) (hsecond 'o' (by rw [h]; rfl))
  · rename_i h
    exact absurd (by simp) (hsecond 'x' (by rw [h]; rfl))
  · rfl

theorem literal_append (n : Numeral) (hrest : Ends rest) :
    Match.literal (n.chars ++ rest) = n.chars.length + Match.imaginaryMark rest := by
  rw [Match.literal, base?_append n hrest]
  exact n.decimal_append hrest

theorem exists_digit (n : Numeral) : ∃ c cs, n.chars = c :: cs ∧ c.isDigit = true := by
  obtain ⟨c, cs, hcs⟩ := List.exists_cons_of_ne_nil n.whole.nonempty
  exact ⟨c, _, by rw [chars, hcs, List.cons_append], n.whole.digits c (by simp [hcs])⟩

/-- A numeral is a token up to what does not continue it, together with an imaginary mark. -/
theorem firstAmong_append (n : Numeral) (hrest : Ends rest) :
    TokenKind.firstAmong TokenKind.all (n.chars ++ rest) =
      some (.literal, n.chars.length + Match.imaginaryMark rest) := by
  have hliteral := n.literal_append hrest
  obtain ⟨c, cs, hcs, hc⟩ := n.exists_digit
  have hpos : 0 < n.chars.length := by
    rw [hcs]
    exact Nat.succ_pos _
  rw [hcs, List.cons_append] at hliteral ⊢
  rw [hcs] at hpos
  rw [← hliteral]
  exact TokenKind.firstAmong_of_isDigit hc (by omega)

/-! ### What literals write -/

theorem ends_nil : Ends [] := fun c h => by cases h

theorem ends_mark : Ends ['i'] := fun c h => by
  cases h
  decide

theorem mem_chars (n : Numeral) (c : Char) (hc : c ∈ n.chars) :
    c.isDigit = true ∨ c ∈ ['.', 'e', '+', '-'] := by
  rw [chars, List.mem_append, List.mem_append] at hc
  rcases hc with hc | hc | hc
  · exact .inl (n.whole.digits c hc)
  · unfold fractionChars at hc
    split at hc
    · rename_i f hf
      rcases List.mem_cons.1 hc with rfl | hc
      · exact .inr (by simp)
      · exact .inl (f.digits c hc)
    · cases hc
  · unfold exponentChars at hc
    split at hc
    · rename_i negative ds hds
      rcases List.mem_cons.1 hc with rfl | hc
      · exact .inr (by simp)
      rcases List.mem_cons.1 hc with rfl | hc
      · exact .inr (by cases negative <;> simp)
      · exact .inl (ds.digits c hc)
    · cases hc

theorem not_mem_chars (n : Numeral) {c : Char} (hc : c ∈ ['_', 'i']) : c ∉ n.chars := by
  intro hmem
  have h := n.mem_chars c hmem
  simp only [List.mem_cons, List.not_mem_nil, or_false] at hc
  rcases hc with rfl | rfl <;> revert h <;> decide

theorem filter_chars (n : Numeral) : n.chars.filter (· ≠ '_') = n.chars := by
  refine List.filter_eq_self.2 fun c hc => decide_eq_true fun h => ?_
  exact n.not_mem_chars (by simp) (h ▸ hc)

/-- A numeral is the literal of a real number. -/
theorem read_chars (n : Numeral) : Literal.read n.chars = .ok (.ofReal n.decimal.toFloat) := by
  have hbase := n.base?_append ends_nil
  rw [List.append_nil] at hbase
  have hlast : n.chars.getLast? ≠ some 'i' := fun h =>
    n.not_mem_chars (by simp) (List.mem_of_getLast? h)
  simp only [Literal.read, filter_chars, hbase, Literal.readDecimal, if_neg hlast, ofChars?_chars]

/-- A numeral with an imaginary mark is the literal of an imaginary number. -/
theorem read_imaginary (n : Numeral) :
    Literal.read (n.chars ++ ['i']) = .ok ⟨0.0, n.decimal.toFloat⟩ := by
  have hfilter : (n.chars ++ ['i']).filter (· ≠ '_') = n.chars ++ ['i'] := by
    rw [List.filter_append, filter_chars]
    rfl
  simp only [Literal.read, hfilter, n.base?_append ends_mark, Literal.readDecimal,
    List.getLast?_concat, if_true, List.dropLast_concat, ofChars?_chars]

end Literals
end Numeral
end ComplexCalc
