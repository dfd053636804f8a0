import ComplexCalc.Proofs.Numerals
/-!
# The texts of real numbers read back

The text of a decimal is a numeral of the same value, in whichever layout it is written. So the text of
a finite real number is its sign and a numeral that is read as its absolute value.
-/
namespace ComplexCalc

/-! ## Values of digits -/

namespace Decimal

theorem digitsValue_append (cs ds : List Char) :
    digitsValue (cs ++ ds) = digitsValue cs * 10 ^ ds.length + digitsValue ds := by
  have h := Nat.ofDigitChars_append (b := 10) (l := cs) (m := ds) 0
  rw [Nat.ofDigitChars_eq_ofDigitChars_zero (l := ds), Nat.mul_comm] at h
  exact h

theorem digitsValue_zeros (n : Nat) : digitsValue (List.replicate n '0') = 0 :=
  Nat.ofDigitChars_replicate_zero.trans (Nat.mul_zero _)

theorem digitsValue_zeros_append (n : Nat) (cs : List Char) :
    digitsValue (List.replicate n '0' ++ cs) = digitsValue cs := by
  rw [digitsValue_append, digitsValue_zeros, Nat.zero_mul, Nat.zero_add]

theorem digitsValue_append_zeros (cs : List Char) (n : Nat) :
    digitsValue (cs ++ List.replicate n '0') = digitsValue cs * 10 ^ n := by
  rw [digitsValue_append, digitsValue_zeros, List.length_replicate, Nat.add_zero]

theorem digitsValue_toDigits (n : Nat) : digitsValue (Nat.toDigits 10 n) = n :=
  Nat.ofDigitChars_ten_toDigits

theorem isDigit_of_mem_replicate {n : Nat} {c : Char} (h : c ∈ List.replicate n '0') :
    c.isDigit = true := by
  rw [List.eq_of_mem_replicate h]
  rfl

theorem isDigit_of_mem_toDigits {n : Nat} {c : Char} (h : c ∈ Nat.toDigits 10 n) :
    c.isDigit = true :=
  Nat.isDigit_of_mem_toDigits (by decide) (by decide) h

/-- A text is what is left without its zeros at the end, and these zeros. -/
theorem exists_zeros (cs : List Char) :
    ∃ j, cs = (cs.reverse.dropWhile (· == '0')).reverse ++ List.replicate j '0' := by
  have hsplit := congrArg List.reverse (List.takeWhile_append_dropWhile (p := (· == '0')) (l := cs.reverse))
  rw [List.reverse_append, List.reverse_reverse] at hsplit
  refine ⟨(cs.reverse.takeWhile (· == '0')).length, ?_⟩
  conv_lhs => rw [← hsplit]
  congr 1
  refine List.eq_replicate_iff.2 ⟨List.length_reverse, fun c hc => ?_⟩
  have hzero := List.mem_takeWhile_imp (p := fun d : Char => d == '0') (List.mem_reverse.1 hc)
  exact eq_of_beq hzero

/-- The significant digits and the place of the first one give the value of a decimal. -/
theorem digits_spec (d : Decimal) : ∃ (ds : DigitRun) (k : ℤ), d.digits = (ds.chars, k) ∧
    d.value = digitsValue ds.chars * 10 ^ (k + 1 - ds.chars.length) := by
  obtain ⟨j, hj⟩ := exists_zeros (Nat.toDigits 10 d.coefficient)
  have hvalue := digitsValue_toDigits d.coefficient
  have hdigits : ∀ c ∈ Nat.toDigits 10 d.coefficient, c.isDigit = true :=
    fun c => isDigit_of_mem_toDigits
  unfold digits
  dsimp only
  generalize Nat.toDigits 10 d.coefficient = all at *
  generalize (all.reverse.dropWhile (· == '0')).reverse = ds at hj ⊢
  subst hj
  rw [digitsValue_append_zeros] at hvalue
  split
  · refine ⟨.zero, 0, rfl, ?_⟩
    have hzero : d.coefficient = 0 := hvalue.symm.trans (Nat.zero_mul _)
    rw [value, hzero]
    simp [DigitRun.zero, digitsValue]
  · rename_i hne
    refine ⟨⟨ds, fun h => hne h, fun c hc => hdigits c (List.mem_append_left _ hc)⟩, _, rfl, ?_⟩
    rw [value, ← hvalue, Nat.cast_mul, Nat.cast_pow, Nat.cast_ofNat, mul_assoc, ← zpow_natCast,
      ← zpow_add₀ (by norm_num), List.length_append, List.length_replicate]
    congr 2
    push_cast
    ring

/-! ## Layouts -/

theorem value_whole (ds : DigitRun) : (Numeral.decimal ⟨ds, none, none⟩).value = digitsValue ds.chars := by
  simp [value, Numeral.decimal, Numeral.fractionDigits, Numeral.exponentValue]

theorem value_point (ds es : DigitRun) : (Numeral.decimal ⟨ds, some es, none⟩).value =
    digitsValue (ds.chars ++ es.chars) * 10 ^ (-es.chars.length : ℤ) := by
  simp [value, Numeral.decimal, Numeral.fractionDigits, Numeral.exponentValue]

theorem chars_whole (ds : DigitRun) : Numeral.chars ⟨ds, none, none⟩ = ds.chars := by
  simp [Numeral.chars, Numeral.fractionChars, Numeral.exponentChars]

theorem chars_point (ds es : DigitRun) :
    Numeral.chars ⟨ds, some es, none⟩ = ds.chars ++ '.' :: es.chars := by
  simp [Numeral.chars, Numeral.fractionChars, Numeral.exponentChars]

section Positional
variable (layout : Layout) (ds : DigitRun) {k : ℤ}

/-- Digits that come after the point have zeros before them. -/
theorem positional_of_neg (hk : k < 0) :
    ∃ n : Numeral, positional layout ds.chars k = n.chars ∧
      n.decimal.value = digitsValue ds.chars * 10 ^ (k + 1 - ds.chars.length) := by
  have hfraction : ∀ c ∈ List.replicate (-k - 1).toNat '0' ++ ds.chars, c.isDigit = true :=
    fun c hc => (List.mem_append.1 hc).elim isDigit_of_mem_replicate (ds.digits c)
  refine ⟨⟨.zero, some ⟨_, by simp [ds.nonempty], hfraction⟩, none⟩, ?_, ?_⟩
  · rw [positional, if_pos hk, chars_point]
    rfl
  · have hzero : DigitRun.zero.chars = List.replicate 1 '0' := rfl
    have hlength : 0 < ds.chars.length := List.length_pos_iff.2 ds.nonempty
    rw [value_point, hzero, digitsValue_zeros_append, digitsValue_zeros_append, List.length_append,
      List.length_replicate]
    congr 2
    omega

/-- Digits that end before the point have zeros after them. -/
theorem positional_of_le (hk : 0 ≤ k) (hle : ds.chars.length ≤ k.toNat + 1) :
    ∃ n : Numeral, positional layout ds.chars k = n.chars ∧
      n.decimal.value = digitsValue ds.chars * 10 ^ (k + 1 - ds.chars.length) := by
  have hexponent : k + 1 - ds.chars.length = (k.toNat + 1 - ds.chars.length : Nat) := by omega
  have hwhole : ∀ c ∈ ds.chars ++ List.replicate (k.toNat + 1 - ds.chars.length) '0',
      c.isDigit = true :=
    fun c hc => (List.mem_append.1 hc).elim (ds.digits c) isDigit_of_mem_replicate
  have hne : ds.chars ++ List.replicate (k.toNat + 1 - ds.chars.length) '0' ≠ [] := by
    simp [ds.nonempty]
  rw [positional, if_neg (Int.not_lt.2 hk), hexponent, zpow_natCast]
  dsimp only
  rw [if_pos hle]
  cases layout.keepsFraction with
  | true =>
    have hzero : DigitRun.zero.chars = List.replicate 1 '0' := rfl
    refine ⟨⟨⟨_, hne, hwhole⟩, some .zero, none⟩, ?_, ?_⟩
    · rw [chars_point]
      rfl
    · rw [value_point, hzero, digitsValue_append_zeros, digitsValue_append_zeros, List.length_replicate]
      push_cast
      simp [zpow_neg]
  | false =>
    refine ⟨⟨⟨_, hne, hwhole⟩, none, none⟩, ?_, ?_⟩
    · rw [chars_whole]
      exact List.append_nil _
    · rw [value_whole, digitsValue_append_zeros]
      push_cast
      rfl

/-- Digits around the point. -/
theorem positional_of_lt (hk : 0 ≤ k) (hlt : k.toNat + 1 < ds.chars.length) :
    ∃ n : Numeral, positional layout ds.chars k = n.chars ∧
      n.decimal.value = digitsValue ds.chars * 10 ^ (k + 1 - ds.chars.length) := by
  refine ⟨⟨⟨ds.chars.take (k.toNat + 1), by simp [ds.nonempty],
      fun c hc => ds.digits c (List.mem_of_mem_take hc)⟩,
    some ⟨ds.chars.drop (k.toNat + 1), by simpa using hlt,
      fun c hc => ds.digits c (List.mem_of_mem_drop hc)⟩, none⟩, ?_, ?_⟩
  · rw [positional, if_neg (Int.not_lt.2 hk), chars_point]
    exact if_neg (Nat.not_le.2 hlt)
  · rw [value_point, List.take_append_drop, List.length_drop]
    congr 2
    omega

/-- Digits in a layout are a numeral that the first of them counts `10 ^ k` in. -/
theorem positional_numeral (k : ℤ) :
    ∃ n : Numeral, positional layout ds.chars k = n.chars ∧
      n.decimal.value = digitsValue ds.chars * 10 ^ (k + 1 - ds.chars.length) := by
  rcases lt_or_ge k 0 with hk | hk
  · exact positional_of_neg layout ds hk
  · rcases Nat.lt_or_ge (k.toNat + 1) ds.chars.length with hlt | hle
    · exact positional_of_lt layout ds hk hlt
    · exact positional_of_le layout ds hk hle

end Positional

/-- An exponent is written with its sign and two digits at least. -/
theorem exponent_numeral (k : ℤ) : ∃ ds : DigitRun,
    exponentText k = (if k < 0 then '-' else '+') :: ds.chars ∧ digitsValue ds.chars = k.natAbs := by
  refine ⟨⟨List.replicate (2 - (Nat.toDigits 10 k.natAbs).length) '0' ++ Nat.toDigits 10 k.natAbs,
    by simp [Nat.toDigits_ne_nil], fun c hc => ?_⟩, rfl, ?_⟩
  · exact (List.mem_append.1 hc).elim isDigit_of_mem_replicate isDigit_of_mem_toDigits
  · rw [digitsValue_zeros_append, digitsValue_toDigits]

/-- Digits with an exponent are a numeral of the same value. -/
theorem scientific_numeral (ds : DigitRun) (k : ℤ) :
    ∃ n : Numeral, scientific ds.chars k = n.chars ∧
      n.decimal.value = digitsValue ds.chars * 10 ^ (k + 1 - ds.chars.length) := by
  obtain ⟨es, hes, hvalue⟩ := exponent_numeral k
  have hsign : (if decide (k < 0) = true then -(digitsValue es.chars : ℤ) else digitsValue es.chars) =
      k := by
    simp only [hvalue, decide_eq_true_eq]
    split <;> omega
  obtain ⟨cs, hne, hdigits⟩ := ds
  cases cs with
  | nil => exact absurd rfl hne
  | cons c cs =>
    have hlead : ∀ d ∈ [c], d.isDigit = true := fun d hd => hdigits d (by simp_all)
    cases cs with
    | nil =>
      refine ⟨⟨⟨[c], by simp, hlead⟩, none, some (decide (k < 0), es)⟩, ?_, ?_⟩
      · simp [scientific, hes, Numeral.chars, Numeral.fractionChars, Numeral.exponentChars]
      · simp only [value, Numeral.decimal, Numeral.fractionDigits, Numeral.exponentValue, hsign,
          List.append_nil, List.length_singleton]
        congr 2
        simp
    | cons d cs =>
      refine ⟨⟨⟨[c], by simp, hlead⟩, some ⟨d :: cs, by simp, fun e he => hdigits e (by simp_all)⟩,
        some (decide (k < 0), es)⟩, ?_, ?_⟩
      · simp [scientific, hes, Numeral.chars, Numeral.fractionChars, Numeral.exponentChars]
      · simp only [value, Numeral.decimal, Numeral.fractionDigits, Numeral.exponentValue, hsign,
          List.singleton_append, List.length_cons]
        congr 2
        omega

/-- The text of a decimal is a numeral of the same value. -/
theorem text_numeral (layout : Layout) (d : Decimal) :
    ∃ n : Numeral, text layout d = n.chars ∧ n.decimal.value = d.value := by
  obtain ⟨ds, k, hds, hvalue⟩ := d.digits_spec
  unfold text
  rw [hds, hvalue]
  dsimp only
  split
  · exact positional_numeral layout ds k
  · exact scientific_numeral ds k

end Decimal

/-! ## Signed numerals -/

/-- The text is a numeral that is read as the absolute value of a number, after a minus sign if the
number is negative. -/
def Double.Written (x : Float) (cs : List Char) : Prop :=
  ∃ n : Numeral, cs = (if Double.isNegative x then ['-'] else []) ++ n.chars ∧
    n.decimal.toFloat = x.abs

section Written
variable {x : Float}

theorem Double.isFinite_iff : x.isFinite = true ↔ ∃ v, magnitude? x = some v := by
  change x.toModel.unpack.isFinite = true ↔ _
  unfold magnitude?
  rcases x.toModel.unpack with s | _ | s | _
  · exact iff_of_false (fun h => by cases h) fun ⟨_, h⟩ => by cases h
  · exact iff_of_false (fun h => by cases h) fun ⟨_, h⟩ => by cases h
  · exact iff_of_true rfl ⟨_, rfl⟩
  · exact iff_of_true rfl ⟨_, rfl⟩

theorem Double.unpack_of_magnitude_zero {d : Nat} (h : magnitude? x = some ⟨0, d⟩) :
    ∃ s, x.toModel.unpack = .zero s := by
  unfold magnitude? at h
  rcases hx : x.toModel.unpack with s | _ | s | ⟨s, m, e, hm⟩ <;> simp only [hx] at h
  · cases h
  · cases h
  · exact ⟨s, rfl⟩
  · unfold scale at h
    split at h <;> simp at h <;> omega

theorem toList_toString (n : ℤ) :
    (toString n).toList = (if n < 0 then ['-'] else []) ++ Nat.toDigits 10 n.natAbs := by
  cases n with
  | ofNat k => exact Nat.toList_repr
  | negSucc k =>
    rw [if_pos (Int.negSucc_lt_zero k)]
    exact (String.toList_append ..).trans (congrArg _ Nat.toList_repr)

/-- The text of a finite real number writes it. -/
theorem Decimal.realText_written (h : x.isFinite = true) : Double.Written x (realText x).toList := by
  obtain ⟨⟨num, den⟩, hv⟩ := Double.isFinite_iff.1 h
  unfold realText realTextIn
  rw [hv]
  dsimp only
  cases num with
  | zero =>
    obtain ⟨n, hn, hvalue⟩ := text_numeral realLayout ⟨0, 0⟩
    obtain ⟨s, hs⟩ := Double.unpack_of_magnitude_zero hv
    refine ⟨n, hn ▸ String.toList_ofList, ?_⟩
    rw [toFloat_congr hvalue, ← Double.ofModel_pack_unpack x.abs, Double.unpack_abs, hs]
    rfl
  | succ k =>
    obtain ⟨n, hn, hvalue⟩ := text_numeral realLayout (shortest x.abs ⟨k + 1, den⟩)
    refine ⟨n, hn ▸ String.toList_ofList, ?_⟩
    rw [toFloat_congr hvalue, toFloat_shortest hv (Nat.succ_ne_zero k)]

/-- An integer as a double is written as an integer. -/
theorem Decimal.integer_written {n : Int} (hx : Double.integer? x = some n) (hn : n ≠ 0) :
    Double.Written x (toString n).toList := by
  unfold Double.integer? at hx
  rcases hv : Double.magnitude? x with - | ⟨num, den⟩ <;> rw [hv] at hx
  · cases hx
  dsimp only at hx
  split at hx
  · rename_i hdvd
    have hx := Option.some.inj hx
    obtain ⟨hsign, habs⟩ : (Double.isNegative x = true ↔ n < 0) ∧ n.natAbs = num / den := by
      generalize num / den = q at hx ⊢
      split at hx <;> rename_i hneg
      · exact ⟨iff_of_true hneg (by omega), by omega⟩
      · exact ⟨iff_of_false hneg (by omega), by omega⟩
    have hnum : num ≠ 0 := by
      rintro rfl
      rw [Nat.zero_div] at habs
      exact hn (Int.natAbs_eq_zero.1 habs)
    have hden : (den : ℚ) ≠ 0 := Nat.cast_ne_zero.2 (Double.den_pos_of_magnitude hv).ne'
    have hquotient : Ratio.value ⟨num, den⟩ = (num / den : Nat) :=
      (Nat.cast_div (Nat.dvd_of_mod_eq_zero hdvd) hden).symm
    refine ⟨⟨⟨Nat.toDigits 10 (num / den), Nat.toDigits_ne_nil, fun c => isDigit_of_mem_toDigits⟩,
      none, none⟩, ?_, (Double.Is.abs hv hnum).toFloat ?_⟩
    · simp only [toList_toString, habs, hsign, Numeral.chars, Numeral.fractionChars,
        Numeral.exponentChars, List.append_nil]
    · simp only [value, Numeral.decimal, Numeral.fractionDigits, Numeral.exponentValue,
        List.append_nil, digitsValue_toDigits, hquotient]
      simp
  · cases hx

end Written
end ComplexCalc
