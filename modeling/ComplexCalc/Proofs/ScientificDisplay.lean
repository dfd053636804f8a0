import ComplexCalc.Proofs.DisplayedNumbers
import ComplexCalc.Proofs.Modulus
import ComplexCalc.Proofs.PowersOfTen
/-!
# Numbers shown with a power of ten

The coefficient of a number that is shown with a power of ten is a quotient of doubles, rounded to the
precision. The quotient is close enough to the range from one to ten to be rounded into it, and ten itself
is shown as one with the next exponent. Two doubles are shown with a power that is zero as a double, which
fails, and a few others have coefficients beyond ten.
-/
namespace ComplexCalc

open Double

namespace Display

variable {m : RealFunctions} {precision : Nat} {x y : Float} {q d : ℚ} {r : Ratio} {n : Nat}

/-! ## Coefficients -/

theorem isDouble_ten : IsDouble 10 := isDouble_natCast (n := 10) (by norm_num)

theorem isDouble_quotientLimit : IsDouble quotientLimit := by
  have h := isDouble_grid (n := 10 * 2 ^ 34 + 85) (g := -34) (by norm_num) (by norm_num) (by norm_num)
  convert h using 1
  rw [quotientLimit]
  norm_num

theorem isDouble_belowOne : IsDouble (1 - 1 / 2 ^ 40) := by
  have h := isDouble_grid (n := 2 ^ 40 - 1) (g := -40) (by norm_num) (by norm_num) (by norm_num)
  convert h using 1
  norm_num

/-- What is less than half a unit outside two neighbouring powers of ten is rounded between them. -/
theorem neighbour_between {w : ℚ} {k : Nat} (hnear : |(n : ℚ) - w| ≤ 1 / 2) (hlow : 10 ^ k - 1 / 2 < w)
    (hhigh : w < 10 ^ (k + 1) + 1 / 2) :
    1 ≤ (n : ℚ) * 10 ^ (-k : ℤ) ∧ (n : ℚ) * 10 ^ (-k : ℤ) ≤ 10 := by
  obtain ⟨hnear, hnear'⟩ := abs_le.1 hnear
  have hle : 10 ^ k < n + 1 := by
    have : (10 : ℚ) ^ k < n + 1 := by linarith
    exact_mod_cast this
  have hge : n < 10 ^ (k + 1) + 1 := by
    have : (n : ℚ) < 10 ^ (k + 1) + 1 := by linarith
    exact_mod_cast this
  have hle : (10 : ℚ) ^ k ≤ n := by exact_mod_cast Nat.le_of_lt_succ hle
  have hge : (n : ℚ) ≤ 10 * 10 ^ k := by
    rw [← pow_succ']
    exact_mod_cast Nat.le_of_lt_succ hge
  rw [zpow_neg, zpow_natCast, ← div_eq_mul_inv, le_div_iff₀ (by positivity), div_le_iff₀ (by positivity)]
  exact ⟨by rwa [one_mul], hge⟩

/-- Ten significant digits of a fraction that is at most a tiny bit outside. -/
theorem rounded_between (hnum : 0 < r.num) (hden : 0 < r.den) (hlow : 1 - 1 / 2 ^ 40 ≤ r.value)
    (hhigh : r.value ≤ quotientLimit) :
    1 ≤ (Decimal.rounded 10 r).value ∧ (Decimal.rounded 10 r).value ≤ 10 := by
  obtain ⟨horder, horder'⟩ := Ratio.order_spec hnum hden
  have hnear := Ratio.neighbours_near (v := r.shift (10 - 1 - r.order)) (Ratio.den_shift_pos hden _)
  have hvalue : (Decimal.rounded 10 r).value =
      ((r.shift (10 - 1 - r.order)).neighbours.1 : ℚ) * 10 ^ (-(10 - 1 - r.order)) := rfl
  rw [Ratio.value_shift] at hnear
  rw [hvalue]
  generalize (r.shift (10 - 1 - r.order)).neighbours.1 = digits at hnear ⊢
  rw [quotientLimit] at hhigh
  have hmin : -1 ≤ r.order := by
    by_contra hlt
    have hle := ten_zpow_le (e := r.order + 1) (f := -1) (by omega)
    norm_num at hle hlow
    linarith
  have hmax : r.order ≤ 1 := by
    by_contra hgt
    have hle := ten_zpow_le (e := 2) (f := r.order) (by omega)
    norm_num at hle hhigh
    linarith
  generalize r.order = order at *
  obtain rfl | rfl | rfl : order = -1 ∨ order = 0 ∨ order = 1 := by omega
  · exact neighbour_between (k := 10) hnear (by norm_num at *; linarith) (by norm_num at *; linarith)
  · exact neighbour_between (k := 9) hnear (by norm_num at *; linarith) (by norm_num at *; linarith)
  · exact neighbour_between (k := 8) hnear (by norm_num at *; linarith) (by norm_num at *; linarith)

/-- The quotient of a double by a power of ten, rounded to ten digits. -/
theorem coefficient_between (hx : Is x q) (hy : Is y d) (hlow : (1 - 1 / 2 ^ 40) * d ≤ q)
    (hhigh : q ≤ quotientLimit * d) :
    ∃ b, Measures (Decimal.roundSignificant 10 (x / y)) b ∧ 1 ≤ b ∧ b ≤ 10 := by
  have hpositive : (0 : ℚ) < 1 - 1 / 2 ^ 40 := by norm_num
  rw [← le_div_iff₀ hy.pos] at hlow
  rw [← div_le_iff₀ hy.pos] at hhigh
  obtain ⟨w, hw, hlw, hwu⟩ := ofRat_between isDouble_belowOne isDouble_quotientLimit hpositive.le hlow hhigh
  have hquotient := hw.is (hpositive.trans_le hlw)
  rw [← hx.div hy] at hquotient
  obtain ⟨⟨num, den⟩, hv, rfl, hnum, hden⟩ := hquotient.magnitude
  obtain ⟨hone, hten⟩ := rounded_between hnum hden hlw hwu
  obtain ⟨b, hb, hle, hge⟩ := ofRat_between isDouble_one isDouble_ten zero_le_one hone hten
  refine ⟨b, ?_, hle, hge⟩
  unfold Decimal.roundSignificant
  rw [hv, hquotient.isNegative]
  cases num with
  | zero => exact absurd hnum (lt_irrefl 0)
  | succ k =>
    rw [← Decimal.toFloat_eq_ofRat] at hb
    exact hb

/-! ## Texts -/

/-- A coefficient is written as an integer if it is one. -/
theorem coefficient_written (hx : x.isFinite = true) (hne : (x == 0.0) = false) :
    Double.Written x (match integer? x with
      | some n => toString n
      | none => Decimal.realText x).toList := by
  split
  · rename_i n hn
    refine Decimal.integer_written hn ?_
    rintro rfl
    rw [beq_zero_of_integer x hn] at hne
    cases hne
  · exact Decimal.realText_written hx

/-- The coefficient with an exponent. A quotient that is rounded to ten is shown as one. -/
def coefficient (precision : Nat) (x : Float) (e : ℤ) : Float :=
  let b := Decimal.roundSignificant precision (x / powerOfTen e)
  if b == 10.0 then 1.0 else b

theorem scientific_text (hunit : (powerOfTen (exponent m x) == 0.0) = false)
    (hb : (coefficient precision x (exponent m x)).isFinite = true)
    (hne : (coefficient precision x (exponent m x) == 0.0) = false) :
    ∃ e cs, scientific m precision x = .ok (cs ++ "×10" ++ superscript e) ∧
      Double.Written (coefficient precision x (exponent m x)) cs.toList := by
  have hwritten := coefficient_written hb hne
  unfold coefficient scientific at *
  dsimp only at *
  rw [hunit]
  generalize Decimal.roundSignificant precision (x / powerOfTen (exponent m x)) = b at *
  cases hten : b == 10.0 with
  | true =>
    rw [hten] at hwritten
    exact ⟨_, _, rfl, hwritten⟩
  | false =>
    rw [hten] at hwritten
    exact ⟨_, _, rfl, hwritten⟩

/-! ## Which numbers are shown with a power of ten -/

/-- A number of large or small magnitude is shown with a power of ten, also if it is an integer. -/
theorem real_eq_inUnits (hfinite : x.isFinite = true) (hne : (x == 0.0) = false)
    (hrange : x.abs < 1e-3 ∨ 1e7 ≤ x.abs) : real m precision x = real.inUnits m precision x := by
  rw [real_of_finite hfinite]
  split
  · rename_i n hn
    refine if_neg fun hlt => ?_
    have habs := integer?_abs x
    rw [hn, Option.map_some, integer?_eq_some_iff] at habs
    have hpos : n.natAbs ≠ 0 := by
      rintro hzero
      rw [Int.natAbs_eq_zero.1 hzero] at hn
      rw [beq_zero_of_integer x hn] at hne
      cases hne
    rcases hrange with hsmall | hlarge
    · obtain ⟨u, hu⟩ := isFinite_iff_value?.1 (rfl : Float.isFinite 1e-3 = true)
      have hu1 := (le_iff_of_value? hu value?_one).1 rfl
      have hlt := (lt_iff_of_value? habs hu).1 hsmall
      have hone : (1 : ℚ) ≤ n.natAbs := by exact_mod_cast Nat.one_le_iff_ne_zero.2 hpos
      rw [Int.cast_natCast] at hlt
      linarith
    · have hmillions := integer?_eq_some_iff.1 (by rfl : integer? 1e7 = some 10000000)
      have hle := (le_iff_of_value? hmillions habs).1 hlarge
      have hle : (10000000 : ℤ) ≤ n.natAbs := by exact_mod_cast hle
      omega
  · rcases hrange with hsmall | hlarge
    · exact if_pos (by rw [decide_eq_true hsmall, Bool.true_or])
    · exact if_pos (by rw [decide_eq_true (p := x.abs ≥ 1e7) hlarge, Bool.or_true])

/-- The absolute value is this multiple of the smallest double. -/
def HasSteps (x : Float) (n : Nat) : Prop := value? x.abs = some ((n : ℚ) * 2 ^ (-1074 : ℤ))

/-- The number is the smallest double or twice it, up to the sign. -/
def Tiny (x : Float) : Prop := HasSteps x 1 ∨ HasSteps x 2

/-- The multiples of the smallest double that are told apart have the bits of the factor. -/
theorem ofBits_is (hn : n ∈ 1 :: 2 :: unevenSteps) :
    Is (Float.ofBits n.toUInt64) (n * 2 ^ (-1074 : ℤ)) := by
  have hall : ∀ n ∈ 1 :: 2 :: unevenSteps, n ≠ 0 ∧ isNegative (Float.ofBits n.toUInt64) = false ∧
      magnitude? (Float.ofBits n.toUInt64) = some (steps n) := by
    decide +kernel
  obtain ⟨hne, hsign, hmagnitude⟩ := hall n hn
  exact is_steps hmagnitude hne hsign

theorem HasSteps.abs_eq (h : HasSteps x n) (hn : n ∈ 1 :: 2 :: unevenSteps) :
    x.abs = Float.ofBits n.toUInt64 :=
  eq_of_value? (isNegative_abs x) (ofBits_is hn).isNegative h (ofBits_is hn).value?

theorem hasSteps_iff (hn : n ∈ 1 :: 2 :: unevenSteps) :
    HasSteps x n ↔ (x.abs == Float.ofBits n.toUInt64) = true := by
  have his := ofBits_is hn
  constructor
  · intro h
    exact beq_of_value? h his.value?
  · intro h
    rw [HasSteps, his.eq_of_beq h]
    exact his.value?

theorem tiny_iff :
    Tiny x ↔ (x.abs == Float.ofBits 1) = true ∨ (x.abs == Float.ofBits 2) = true :=
  or_congr (hasSteps_iff (by decide)) (hasSteps_iff (by decide))

/-! ## Which numbers can be shown -/

theorem HasSteps.is (h : HasSteps x n) (hn : 0 < n) : Is x.abs (n * 2 ^ (-1074 : ℤ)) :=
  Measures.is ⟨isNegative_abs x, h⟩ (by positivity)

/-- A number that is not zero is a positive multiple of the smallest double. -/
theorem exists_hasSteps (hfinite : x.isFinite = true) (hne : (x == 0.0) = false) :
    ∃ n, 0 < n ∧ HasSteps x n := by
  obtain ⟨u, hu⟩ := isFinite_iff_value?.1 hfinite
  have his := is_abs hu ((ne_zero_iff_value? hu).1 hne)
  obtain ⟨n, hn, hsteps⟩ := his.exists_steps
  rw [hsteps] at his
  exact ⟨n, hn, his.value?⟩

theorem HasSteps.ne_zero (h : HasSteps x n) (hn : n ≠ 0) : (x == 0.0) = false := by
  refine Bool.eq_false_iff.2 fun hzero => ?_
  have habs := (Measures.abs (value?_of_zero hzero)).value.symm.trans h
  rw [abs_zero, Option.some_inj] at habs
  exact absurd habs (by positivity)

theorem HasSteps.isFinite (h : HasSteps x n) : x.isFinite = true := by
  rw [isFinite_iff, ← magnitude?_abs, ← isFinite_iff, isFinite_iff_value?]
  exact ⟨_, h⟩

theorem HasSteps.eq {k : Nat} (h : HasSteps x n) (h' : HasSteps x k) : n = k := by
  have heq := Option.some_inj.1 (h.symm.trans h')
  exact_mod_cast mul_right_cancel₀ (by positivity) heq

theorem HasSteps.three_le (h : HasSteps x n) (hn : 0 < n) (htiny : ¬Tiny x) : 3 ≤ n := by
  by_contra hlt
  obtain rfl | rfl : n = 1 ∨ n = 2 := by omega
  · exact htiny (.inl h)
  · exact htiny (.inr h)

theorem not_tiny_of_zero (hx : (x == 0.0) = true) : ¬Tiny x := by
  rintro (h | h)
  · exact absurd hx (Bool.eq_false_iff.1 (h.ne_zero one_ne_zero))
  · exact absurd hx (Bool.eq_false_iff.1 (h.ne_zero two_ne_zero))

/-- Twice the smallest double is below one. -/
theorem not_tiny_of_integer {k : ℤ} (hx : integer? x = some k) : ¬Tiny x := by
  have habs := integer?_abs x
  rw [hx, Option.map_some, integer?_eq_some_iff, Int.cast_natCast] at habs
  have hstep : (2 : ℚ) ^ (-1074 : ℤ) < 2 ^ (-1 : ℤ) :=
    zpow_lt_zpow_right₀ one_lt_two (by norm_num)
  rw [zpow_neg_one] at hstep
  have hsteps : ∀ n : Nat, 0 < n → n ≤ 2 → ¬HasSteps x n := by
    intro n hn hn' h
    have heq := Option.some_inj.1 (habs.symm.trans h)
    have hn' : (n : ℚ) ≤ 2 := by exact_mod_cast hn'
    have hlow : (0 : ℚ) < k.natAbs := heq ▸ by positivity
    have hhigh : (k.natAbs : ℚ) < 1 := by
      rw [heq]
      calc (n : ℚ) * 2 ^ (-1074 : ℤ) ≤ 2 * 2 ^ (-1074 : ℤ) :=
            mul_le_mul_of_nonneg_right hn' (by positivity)
        _ < 1 := by linarith
    have hlow : 0 < k.natAbs := by exact_mod_cast hlow
    have hhigh : k.natAbs < 1 := by exact_mod_cast hhigh
    omega
  rintro (h | h)
  · exact hsteps 1 (by decide) (by decide) h
  · exact hsteps 2 (by decide) (by decide) h

theorem shown_of_zero (hx : (x == 0.0) = true) : Shown m precision x := by
  have hinteger : integer? x = some 0 := integer?_eq_some_iff.2 (by rw [value?_of_zero hx, Int.cast_zero])
  exact ⟨_, real_of_integer hinteger (by decide)⟩

/-- Showing a number fails only where its power of ten is zero as a double. -/
theorem shown_of_unit
    (h : x.isFinite = true → (powerOfTen (exponent m x.abs) == 0.0) = false) : Shown m precision x := by
  by_cases hfinite : x.isFinite = true
  · obtain ⟨text, htext⟩ : ∃ text, real.inUnits m precision x = .ok text := by
      unfold real.inUnits scientific
      dsimp only
      rw [h hfinite]
      exact ⟨_, rfl⟩
    unfold Shown
    rw [real_of_finite hfinite, htext]
    split <;> split <;> exact ⟨_, rfl⟩
  · unfold Shown real
    cases hnan : x.isNaN with
    | true => exact ⟨_, rfl⟩
    | false =>
      cases hinf : x.isInf with
      | true => exact ⟨_, rfl⟩
      | false => exact absurd (isFinite_iff_not_special.2 ⟨hnan, hinf⟩) hfinite

theorem shown_of_imaginary {text : String} (h : imaginary m precision y = .ok text) :
    Shown m precision y := by
  unfold imaginary at h
  split at h
  · rename_i hone
    rw [Double.eq_of_beq hone rfl]
    exact shown_one
  · split at h
    · rename_i hone
      rw [Double.eq_of_beq hone rfl]
      exact ⟨"-1", rfl⟩
    · split at h
      · exact shown_of_zero ‹_›
      · rcases hreal : real m precision y with φ | text
        · rw [hreal] at h
          cases h
        · exact ⟨text, hreal⟩

theorem shown_of_number {z : Number} {text : String} (h : number m precision z = .ok text) :
    Shown m precision z.re ∧ Shown m precision z.im := by
  unfold number at h
  split at h
  · rename_i hzero
    rw [Bool.and_eq_true] at hzero
    exact ⟨shown_of_zero hzero.1, shown_of_zero hzero.2⟩
  · rcases him : imaginary m precision z.im with φ | im <;> rw [him] at h
    · cases h
    · refine ⟨?_, shown_of_imaginary him⟩
      cases hzero : z.re == 0.0 with
      | true => exact shown_of_zero hzero
      | false =>
        rcases hre : real m precision z.re with φ | re
        · rw [hzero, hre] at h
          cases h
        · exact ⟨re, hre⟩

section Shown
variable (hm : m.Accurate)
include hm

/-- The two smallest doubles are below the least power of ten that is not zero as a double. -/
theorem Tiny.not_shown (h : Tiny x) : ¬Shown m precision x := by
  obtain ⟨n, hn, h⟩ : ∃ n ∈ [1, 2], HasSteps x n :=
    h.elim (fun h => ⟨1, by decide, h⟩) fun h => ⟨2, by decide, h⟩
  have hall : ∀ n ∈ [1, 2], 0 < n ∧ n ≤ 2 ∧ Float.ofBits n.toUInt64 < 1e-3 := by decide +kernel
  obtain ⟨hpos, htwo, hsmall⟩ := hall n hn
  have habs := h.abs_eq (List.mem_append_left unevenSteps hn)
  have hexponent : exponent m x.abs = -324 :=
    exponent_eq hm below_smallest.1 below_smallest.2 (h.is hpos) hpos htwo
  rintro ⟨text, htext⟩
  rw [real_eq_inUnits h.isFinite (h.ne_zero hpos.ne') (.inl (habs ▸ hsmall)), real.inUnits, scientific,
    hexponent, powerOfTen_eq_zero] at htext
  cases htext

theorem shown_iff : Shown m precision x ↔ ¬Tiny x := by
  refine ⟨fun h htiny => htiny.not_shown hm h, fun h => ?_⟩
  cases hzero : x == 0.0 with
  | true => exact shown_of_zero hzero
  | false =>
    refine shown_of_unit fun hfinite => ?_
    obtain ⟨n, hn, hsteps⟩ := exists_hasSteps hfinite hzero
    exact powerOfTen_exponent_ne_zero hm (hsteps.is hn) (hsteps.three_le hn h)

/-- A value can be shown if none of its components is one of the two smallest doubles, up to the sign. -/
theorem value_shown_iff {v : Value} : (∃ text, value m precision v = .ok text) ↔
    ∀ z, v = .number z → ¬Tiny z.re ∧ ¬Tiny z.im := by
  cases v with
  | none => exact iff_of_true ⟨_, rfl⟩ fun z hz => by cases hz
  | number z =>
    constructor
    · rintro ⟨text, htext⟩ w hw
      cases hw
      obtain ⟨hre, him⟩ := shown_of_number htext
      exact ⟨(shown_iff hm).1 hre, (shown_iff hm).1 him⟩
    · intro h
      obtain ⟨hre, him⟩ := h z rfl
      exact number_shown ((shown_iff hm).2 hre) ((shown_iff hm).2 him)

/-- An integer can be shown. -/
theorem integer_shown {z : Number} {k : ℤ} (hz : z.integer? = some k) :
    ∃ text, value m precision (.number z) = .ok text := by
  obtain ⟨hreal, hre, -⟩ := Number.integer?_eq_some_iff.1 hz
  refine (value_shown_iff hm).2 fun w hw => ?_
  cases hw
  exact ⟨not_tiny_of_integer hre, not_tiny_of_zero hreal⟩

end Shown

/-! ## The range of coefficients -/

theorem value?_ten : value? 10.0 = some 10 :=
  integer?_eq_some_iff.1 (rfl : integer? 10.0 = some 10)

/-- Of a coefficient from one to ten, ten itself is shown as one. -/
theorem coefficient_measures {e : ℤ}
    (hb : Measures (Decimal.roundSignificant precision (x / powerOfTen e)) q) (hlow : 1 ≤ q)
    (hhigh : q ≤ 10) : ∃ u, Measures (coefficient precision x e) u ∧ 1 ≤ u ∧ u < 10 := by
  unfold coefficient
  generalize Decimal.roundSignificant precision (x / powerOfTen e) = b at hb ⊢
  dsimp only
  split
  · exact ⟨1, is_one.measures, le_rfl, by norm_num⟩
  · rename_i hten
    refine ⟨q, hb, hlow, lt_of_le_of_ne hhigh ?_⟩
    rintro rfl
    exact hten (beq_of_value? hb.value value?_ten)

section Coefficient
variable (hm : m.Accurate)
include hm

/-- Apart from the uneven multiples of the smallest double, coefficients are in their range. -/
theorem coefficient_range (h : Is x (n * 2 ^ (-1074 : ℤ))) (hlarge : 3 ≤ n) (heven : n ∉ unevenSteps) :
    ∃ u, Measures (coefficient 10 x (exponent m x)) u ∧ 1 ≤ u ∧ u < 10 := by
  obtain ⟨d, hd, hlow, hhigh⟩ := quotient_bounds hm h hlarge heven
  obtain ⟨q, hq, hone, hten⟩ := coefficient_between h hd hlow hhigh
  exact coefficient_measures hq hone hten

/-- The coefficients of the uneven multiples are beyond ten. -/
theorem coefficient_of_uneven (h : Is x (n * 2 ^ (-1074 : ℤ))) (hn : n ∈ unevenSteps) :
    (coefficient 10 x (exponent m x)).isFinite = true ∧ (coefficient 10 x (exponent m x) == 0.0) = false ∧
      10.0 ≤ coefficient 10 x (exponent m x) := by
  -- An uneven multiple is in a row of the table: above the last one of the row before.
  have hall : ∀ n ∈ unevenSteps, ∃ p ∈ smallPowers, ∃ p' ∈ smallPowers, p'.1 = p.1 + 1 ∧ p.2.2 < n ∧
      n ≤ p'.2.2 ∧ (coefficient 10 (Float.ofBits n.toUInt64) p'.1).isFinite = true ∧
      (coefficient 10 (Float.ofBits n.toUInt64) p'.1 == 0.0) = false ∧
      10.0 ≤ coefficient 10 (Float.ofBits n.toUInt64) p'.1 := by
    decide +kernel
  obtain ⟨⟨e, u, last⟩, hmem, ⟨e', u', last'⟩, hmem', he, habove, hbelow, hcoefficient⟩ := hall n hn
  obtain rfl : e' = e + 1 := he
  have hbits := ofBits_is (List.mem_append_right [1, 2] hn)
  obtain rfl : x = Float.ofBits n.toUInt64 :=
    eq_of_value? h.isNegative hbits.isNegative h.value? hbits.value?
  have hexponent : exponent m (Float.ofBits n.toUInt64) = e + 1 :=
    exponent_eq hm (smallPower_spec hmem).2 (smallPower_spec hmem').2 h habove hbelow
  rw [hexponent]
  exact hcoefficient

/-- A number of large or small magnitude is shown with a coefficient and a power of ten. The coefficient
is from one to below ten unless the number is an uneven multiple of the smallest double. -/
theorem real_scientific (hfinite : x.isFinite = true) (hne : (x == 0.0) = false)
    (hrange : x.abs < 1e-3 ∨ 1e7 ≤ x.abs) (htiny : ¬Tiny x) :
    ∃ b e cs, real m 10 x =
        .ok ("(" ++ (if x > 0.0 then "" else "-") ++ (cs ++ "×10" ++ superscript e) ++ ")") ∧
      Double.Written b cs.toList ∧ (1.0 ≤ b ∧ b < 10.0 ↔ ∀ n ∈ unevenSteps, ¬HasSteps x n) := by
  obtain ⟨n, hn, hsteps⟩ := exists_hasSteps hfinite hne
  have his := hsteps.is hn
  have hlarge := hsteps.three_le hn htiny
  have hunit := powerOfTen_exponent_ne_zero hm his hlarge
  obtain ⟨hb, hzero, hb'⟩ : (coefficient 10 x.abs (exponent m x.abs)).isFinite = true ∧
      (coefficient 10 x.abs (exponent m x.abs) == 0.0) = false ∧
      (1.0 ≤ coefficient 10 x.abs (exponent m x.abs) ∧ coefficient 10 x.abs (exponent m x.abs) < 10.0 ↔
        n ∉ unevenSteps) := by
    by_cases huneven : n ∈ unevenSteps
    · obtain ⟨hb, hzero, hten⟩ := coefficient_of_uneven hm his huneven
      exact ⟨hb, hzero, iff_of_false (fun h => not_lt_of_le hten h.2) (not_not_intro huneven)⟩
    · obtain ⟨u, hu, hlow, hhigh⟩ := coefficient_range hm his hlarge huneven
      refine ⟨hu.isFinite, (ne_zero_iff_value? hu.value).2 (by linarith), iff_of_true ⟨?_, ?_⟩ huneven⟩
      · exact (le_iff_of_value? value?_one hu.value).2 hlow
      · exact (lt_iff_of_value? hu.value value?_ten).2 hhigh
  obtain ⟨e, cs, htext, hwritten⟩ := scientific_text hunit hb hzero
  refine ⟨_, e, cs, ?_, hwritten, hb'.trans ?_⟩
  · rw [real_eq_inUnits hfinite hne hrange, real.inUnits, htext]
    rfl
  · exact ⟨fun h k hk hx => h (hsteps.eq hx ▸ hk), fun h hk => h n hk hsteps⟩

end Coefficient

end Display

/-! ## A logarithm that is a whole number -/

/-- The real functions of the machine with a logarithm that knows integers only: that of a power of ten is
exact, and that of any other number is the one of the power below. -/
def RealFunctions.wholeLog10 : RealFunctions :=
  { RealFunctions.machine with
    log10 := fun x =>
      match magnitude? x with
      | some v => Float.ofInt v.order
      | none => x }

theorem Double.floor_of_integer {x : Float} {n : ℤ} (h : integer? x = some n) : floor x = n := by
  unfold integer? at h
  unfold floor
  rcases hv : magnitude? x with - | ⟨num, den⟩ <;> rw [hv] at h
  · cases h
  · have hden : (den : ℤ) ≠ 0 := by exact_mod_cast (den_pos_of_magnitude hv).ne'
    dsimp only at h ⊢
    split at h
    · rename_i hdvd
      obtain ⟨k, rfl⟩ := Nat.dvd_of_mod_eq_zero hdvd
      rw [Nat.mul_div_cancel_left k (den_pos_of_magnitude hv), Option.some_inj] at h
      rw [← h]
      split
      · rw [Nat.cast_mul, ← mul_neg, Int.mul_ediv_cancel_left _ hden]
      · rw [Nat.cast_mul, Int.mul_ediv_cancel_left _ hden]
    · cases h

theorem Double.floor_ofInt {n : ℤ} (hn : |n| ≤ 2 ^ 53) : floor (Float.ofInt n) = n := by
  obtain ⟨k, hk⟩ := IsNearest.ofInt (n := n) (hn.trans_lt (pow_lt_pow_right₀ one_lt_two (by decide)))
  exact floor_of_integer (integer?_eq_some_iff.2 (hk.eq_of_isDouble (isDouble_intCast hn) ▸ hk.1))

theorem RealFunctions.wholeLog10_accurate : wholeLog10.Accurate := by
  have hexponent : ∀ {x q}, Is x q → (10 : ℚ) ^ Display.exponent wholeLog10 x ≤ q ∧
      q < 10 ^ (Display.exponent wholeLog10 x + 1) := by
    intro x q h
    obtain ⟨v, hv, rfl, hnum, hden⟩ := h.magnitude
    obtain ⟨hle, hlt⟩ := Ratio.order_spec hnum hden
    have hhigh := Display.le_308_of_lt (e := v.order)
      ((hle.trans_lt h.measures.isDouble.lt_two_pow).trans
        (pow_lt_pow_right₀ one_lt_two (Nat.lt_succ_self 1024)))
    have hlow : -325 < v.order := by
      by_contra hge
      have hpower := Display.ten_zpow_le (e := v.order + 1) (f := -324) (by omega)
      have hpos : (0 : ℚ) < 10 ^ (-324 : ℤ) := by positivity
      have hsmallest := h.smallest_le
      have hbelow := Display.below_smallest.1.2
      rw [Nat.zero_add, Nat.cast_one, one_mul] at hbelow
      linarith
    have heq : Display.exponent wholeLog10 x = v.order := by
      have hlog : wholeLog10.log10 x = Float.ofInt v.order := by
        change (match magnitude? x with | some v => Float.ofInt v.order | none => x) = _
        rw [hv]
      rw [Display.exponent, hlog]
      exact Double.floor_ofInt (abs_le.2 (by omega))
    rw [heq]
    exact ⟨hle, hlt⟩
  refine ⟨fun h => ?_, fun h => ?_⟩
  · exact (mul_le_of_le_one_left (by positivity) (by norm_num)).trans (hexponent h).1
  · exact (hexponent h).2.le.trans (le_mul_of_one_le_left (by positivity) (by norm_num))

/-! ## The display of a value -/

/-- A value is displayed at every precision if none of its components is one of the two smallest doubles, up
to the sign, and only then. A number of large or small magnitude is shown as a coefficient with a power of
ten, and the coefficient is from one to below ten except for a few multiples of the smallest double. -/
theorem display_text_and_coefficient {m : RealFunctions} (hm : m.Accurate) (precision : Nat) (v : Value)
    (x : Float) :
    ((∃ text, Display.value m precision v = .ok text) ↔
      ∀ z, v = .number z → ¬Display.Tiny z.re ∧ ¬Display.Tiny z.im) ∧
    (x.isFinite = true → (x == 0.0) = false → (x.abs < 1e-3 ∨ 1e7 ≤ x.abs) → ¬Display.Tiny x →
      ∃ b e cs, Display.real m 10 x =
          .ok ("(" ++ (if x > 0.0 then "" else "-") ++ (cs ++ "×10" ++ Display.superscript e) ++ ")") ∧
        Double.Written b cs.toList ∧
        (1.0 ≤ b ∧ b < 10.0 ↔ ∀ n ∈ Display.unevenSteps, ¬Display.HasSteps x n)) :=
  ⟨Display.value_shown_iff hm, Display.real_scientific hm⟩

/-- A large power of ten and one that is small. -/
theorem display_text_and_coefficient_of_large :
    RealFunctions.wholeLog10.Accurate ∧
    (∀ precision, ∃ text, Display.value .wholeLog10 precision (.number ⟨-1e22, 1e-5⟩) = .ok text) ∧
    ∃ b e cs, Display.real .wholeLog10 10 (-1e22) =
        .ok ("(-" ++ (cs ++ "×10" ++ Display.superscript e) ++ ")") ∧
      Double.Written b cs.toList ∧ 1.0 ≤ b ∧ b < 10.0 := by
  have hm := RealFunctions.wholeLog10_accurate
  have hre : ¬Display.Tiny (-1e22) := fun h => absurd (Display.tiny_iff.1 h) (by decide +kernel)
  have him : ¬Display.Tiny 1e-5 := fun h => absurd (Display.tiny_iff.1 h) (by decide +kernel)
  refine ⟨hm, fun precision => ?_, ?_⟩
  · refine (display_text_and_coefficient hm precision _ 0.0).1.2 fun z hz => ?_
    cases hz
    exact ⟨hre, him⟩
  · obtain ⟨b, e, cs, htext, hwritten, hrange⟩ :=
      (display_text_and_coefficient hm 10 .none (-1e22)).2 rfl rfl (.inr rfl) hre
    rw [if_neg (by decide : ¬(-1e22 : Float) > 0.0)] at htext
    refine ⟨b, e, cs, htext, hwritten, hrange.2 fun n hn h => ?_⟩
    have hall : ∀ n ∈ Display.unevenSteps, ((-1e22 : Float).abs == Float.ofBits n.toUInt64) = false := by
      decide
    rw [Display.hasSteps_iff (List.mem_append_right [1, 2] hn), hall n hn] at h
    cases h

/-- The smallest double has no display, and a coefficient that is written with its power is beyond ten. -/
theorem display_fails_and_exceeds_ten :
    RealFunctions.wholeLog10.Accurate ∧
    (∀ precision text, Display.value .wholeLog10 precision (.number ⟨5e-324, 0.0⟩) ≠ .ok text) ∧
    (Display.value .wholeLog10 10 (.number ⟨1e-321, 0.0⟩)).toOption = some "(10.1×10⁻³²²)" := by
  have hm := RealFunctions.wholeLog10_accurate
  refine ⟨hm, fun precision text htext => ?_, by decide +kernel⟩
  obtain ⟨hre, -⟩ := (Display.value_shown_iff hm).1 ⟨text, htext⟩ _ rfl
  exact hre (.inl ((Display.hasSteps_iff (by decide)).2 (by decide +kernel)))

end ComplexCalc
