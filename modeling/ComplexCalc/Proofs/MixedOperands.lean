import ComplexCalc.Proofs.Opposites
import ComplexCalc.Proofs.EqualNumbers
/-!
# Real operands and numbers on the real axis

Arithmetic on a number and a real operand acts on the components of the number. The same real number as
a `Number` goes through a product with zero, a difference from zero or the scaled division instead. For
finite operands both ways give equal numbers, also where they overflow: the results differ in the sign
of a zero at most. Division by a real zero fails in both ways.
-/
namespace ComplexCalc

namespace Double

variable {x k zero : Float} {v : ℚ}

/-! ## Zeros and units as operands -/

theorem matches_plain (x : Float) : Matches (plain x) x := by
  by_cases hx : (x == 0.0) = true
  · exact .of_zero (congrArg (· == 0.0) (plain_of_zero hx)) hx
  · rw [plain, if_neg hx]

/-- Adding a zero of either sign changes the sign of a zero at most. -/
theorem matches_add_zero (x : Float) (hzero : (zero == 0.0) = true) : Matches (x + zero) x := by
  have hsum : Matches (x + zero) (plain x + 0.0) := (matches_plain x).symm.add (.of_zero hzero rfl)
  rw [plain_add_zero] at hsum
  exact hsum.trans (matches_plain x)

theorem matches_zero_add (x : Float) (hzero : (zero == 0.0) = true) : Matches (zero + x) x := by
  rw [add_commutes]
  exact matches_add_zero x hzero

theorem matches_sub_zero (x : Float) (hzero : (zero == 0.0) = true) : Matches (x - zero) x := by
  have hsub : Matches (x - zero) (x - 0.0) := (Matches.refl x).sub (.of_zero hzero rfl)
  rwa [sub_positive_zero] at hsub

/-- What is taken from zero is the opposite, apart from the sign of a zero. -/
theorem matches_zero_sub (hx : x.isFinite = true) : Matches (0.0 - x) (-x) := by
  obtain ⟨v, hv⟩ := isFinite_iff_value?.1 hx
  rw [sub_eq_add hv]
  exact matches_zero_add (-x) rfl

theorem mul_zero_eq_zero (hx : x.isFinite = true) (hzero : (zero == 0.0) = true) :
    (x * zero == 0.0) = true := by
  obtain ⟨v, hv⟩ := isFinite_iff_value?.1 hx
  obtain ⟨s, hs⟩ := (beq_zero_iff zero).1 hzero
  have hmul := value?_mul hv (value?_of_unpack_zero hs) (by rw [mul_zero]; exact ⟨0.0, rfl⟩)
  rw [mul_zero] at hmul
  exact beq_of_value? hmul rfl

theorem matches_mul_one (hx : x.isFinite = true) : Matches (x * 1.0) x := by
  obtain ⟨v, hv⟩ := isFinite_iff_value?.1 hx
  have hmul := value?_mul hv value?_one (by rw [mul_one]; exact ⟨x, hv⟩)
  rw [mul_one] at hmul
  exact .of_beq (beq_of_value? hmul hv)

theorem matches_mul_minus_one (hx : x.isFinite = true) : Matches (x * -1.0) (-x) := by
  obtain ⟨v, hv⟩ := isFinite_iff_value?.1 hx
  have hproduct : v * -1 = -v := mul_neg_one v
  have hmul := value?_mul hv (value?_neg value?_one) (hproduct ▸ ⟨-x, value?_neg hv⟩)
  rw [hproduct] at hmul
  exact .of_beq (beq_of_value? hmul (value?_neg hv))

/-! ## Quotients by an absolute value -/

/-- A double divided by its absolute value is one with its sign. -/
theorem div_abs (hk : k.isFinite = true) (hzero : (k == 0.0) = false) :
    k / k.abs = 1.0 ∧ k.abs = k ∨ k / k.abs = -1.0 ∧ k.abs = -k := by
  obtain ⟨v, hv⟩ := isFinite_iff_value?.1 hk
  have hv := is_abs hv ((ne_zero_iff_value? hv).1 hzero)
  rcases hsign : isNegative k with _ | _
  · have habs := abs_of_not_negative hsign
    rw [habs] at hv ⊢
    exact .inl ⟨hv.div_self_eq_one, rfl⟩
  · have habs := abs_of_negative hsign
    have hk : k = -k.abs := by rw [habs, opposite_opposite]
    refine .inr ⟨?_, habs⟩
    have hquotient : k / k.abs = -(k.abs / k.abs) := (congrArg (· / k.abs) hk).trans (opposite_div _ _)
    rw [hquotient, hv.div_self_eq_one]

end Double

namespace Number

open Double

variable {z : Number} {k : Float}

/-! ## Both ways of each operation -/

theorem matches_realSub (hre : z.re.isFinite = true) : Matches (.realSub k z) (.ofReal k - z) := by
  obtain ⟨v, hv⟩ := isFinite_iff_value?.1 hre
  have hsub : k - z.re = -z.re + k := by rw [sub_eq_add hv, add_commutes]
  refine ⟨?_, matches_add_zero _ rfl⟩
  change Double.Matches (0.0 - z.re + k) (k - z.re)
  rw [hsub]
  exact (matches_zero_sub hre).add (.refl k)

theorem matches_mulReal (hre : z.re.isFinite = true) (him : z.im.isFinite = true) :
    Matches (z.mulReal k) (z * .ofReal k) := by
  have hzero : ((0.0 : Float) == 0.0) = true := rfl
  exact ⟨(matches_sub_zero _ (mul_zero_eq_zero him hzero)).symm,
    (matches_zero_add _ (mul_zero_eq_zero hre hzero)).symm⟩

/-- Division by a number on the real axis multiplies by its sign and divides by its absolute value. -/
theorem div_ofReal (hk : k.isFinite = true) (hzero : (k == 0.0) = false) :
    z.div (.ofReal k) = .ok ⟨(z * ⟨k / k.abs, -0.0⟩).re / k.abs, (z * ⟨k / k.abs, -0.0⟩).im / k.abs⟩ := by
  obtain ⟨v, hv⟩ := isFinite_iff_value?.1 hk
  have habs := is_abs hv ((ne_zero_iff_value? hv).1 hzero)
  have hlarger : larger k.abs (0.0 : Float).abs = k.abs := by
    refine if_neg fun hlt => ?_
    exact absurd ((lt_iff_of_value? habs.value? (y := 0.0) rfl).1 hlt) habs.pos.le.not_gt
  have hscale : (k.abs == 0.0) = false := (ne_zero_iff_value? habs.value?).2 habs.pos.ne'
  -- The squared modulus of the scaled divisor is one.
  have hunit : k / k.abs * (k / k.abs) + 0.0 * 0.0 = 1.0 := by
    rcases div_abs hk hzero with ⟨hc, -⟩ | ⟨hc, -⟩ <;> rw [hc] <;> rfl
  have hmodulus : 1.0 * k.abs = k.abs := by
    rw [is_one.mul habs, one_mul]
    exact habs.ofRat_eq
  have hnonzero : ((k == 0.0) && ((0.0 : Float) == 0.0)) = false := by rw [hzero]; rfl
  unfold Number.div divReal
  simp only [ofReal, hnonzero, hlarger, hscale, habs.zero_div, hunit, hmodulus, Bool.false_eq_true,
    if_false]

/-- Both divisions by a real number, apart from the signs of zeros. -/
theorem matches_div_ofReal (hre : z.re.isFinite = true) (him : z.im.isFinite = true)
    (hk : k.isFinite = true) (hzero : (k == 0.0) = false) :
    ∃ w, z.div (.ofReal k) = .ok w ∧ Matches ⟨z.re / k, z.im / k⟩ w := by
  -- The sign of the divisor can be moved to the dividend.
  have hquotient : ∀ x : Float, x.isFinite = true →
      Double.Matches (x * (k / k.abs) / k.abs) (x / k) := by
    intro x hx
    rcases div_abs hk hzero with ⟨hunit, habs⟩ | ⟨hunit, habs⟩ <;> rw [hunit, habs]
    · exact (matches_mul_one hx).div k
    · rw [← opposite_div_opposite x k]
      exact (matches_mul_minus_one hx).div (-k)
  have hzero_mul : ∀ x : Float, x.isFinite = true → (x * -0.0 == 0.0) = true :=
    fun x hx => mul_zero_eq_zero hx rfl
  refine ⟨_, div_ofReal hk hzero, ?_, ?_⟩
  · exact (((matches_sub_zero _ (hzero_mul _ him)).div _).trans (hquotient _ hre)).symm
  · exact (((matches_zero_add _ (hzero_mul _ hre)).div _).trans (hquotient _ him)).symm

end Number

/-! ## Operations on operands -/

open Double

/-- Both operations give a number, and the numbers are equal. -/
def GiveEqual (a b : Except Failure Number) : Prop :=
  ∃ z w, a = .ok z ∧ b = .ok w ∧ (z == w) = true

/-- Matching numbers are equal unless they have a NaN. -/
theorem GiveEqual.of_matches {z w : Number} (h : z.Matches w) (hre : z.re.isNaN = false)
    (him : z.im.isNaN = false) : GiveEqual (.ok z) (.ok w) := by
  have hbeq : ∀ {x y : Float}, Matches x y → x.isNaN = false → (x == y) = true := by
    rintro x y (hxy | ⟨hx, -⟩) hnan
    · exact hxy
    · rw [hx] at hnan
      cases hnan
  exact ⟨z, w, rfl, rfl, Bool.and_eq_true_iff.2 ⟨hbeq h.1 hre, hbeq h.2 him⟩⟩

section Operands
variable {z : Number} {k : Float}

/-- A finite real operand and the number on the real axis give equal results in every operation, and
dividing by zero fails for both. -/
theorem real_operand_agrees_with_number (hre : z.re.isFinite = true) (him : z.im.isFinite = true)
    (hk : k.isFinite = true) :
    let x : Native := .value (.number z)
    let y : Native := .real k
    let y' : Native := .value (.number (.ofReal k))
    GiveEqual (x.add y) (x.add y') ∧ GiveEqual (x.sub y) (x.sub y') ∧ GiveEqual (y.sub x) (y'.sub x) ∧
      GiveEqual (x.mul y) (x.mul y') ∧ ((k == 0.0) = false → GiveEqual (x.div y) (x.div y')) ∧
      ((k == 0.0) = true → x.div y = noValue .divisionByZero ∧ x.div y' = noValue .divisionByZero) := by
  intro x y y'
  refine ⟨.of_matches (.refl _) (isNaN_add hre hk) (isNaN_add him rfl),
    .of_matches (.refl _) (isNaN_sub hre hk) (isNaN_sub him rfl), ?_, ?_, ?_, ?_⟩
  · have h : Number.Matches (.realSub k z) (.ofReal k - z) := Number.matches_realSub hre
    have hzero : (0.0 : Float).isFinite = true := rfl
    exact .of_matches h (h.1.isNaN_eq.trans (isNaN_sub hk hre)) (h.2.isNaN_eq.trans (isNaN_sub hzero him))
  · exact .of_matches (Number.matches_mulReal hre him) (isNaN_mul hre hk) (isNaN_mul him hk)
  · intro hzero
    obtain ⟨w, hw, h⟩ := Number.matches_div_ofReal hre him hk hzero
    have hreal : x.div y = .ok ⟨z.re / k, z.im / k⟩ := if_neg (Bool.eq_false_iff.1 hzero)
    have hnumber : x.div y' = .ok w := hw
    rw [hreal, hnumber]
    exact .of_matches h (isNaN_div hre hk hzero) (isNaN_div him hk hzero)
  · intro hzero
    have hnumber : ((k == 0.0) && ((0.0 : Float) == 0.0)) = true := by rw [hzero]; rfl
    exact ⟨if_pos hzero, if_pos hnumber⟩

/-- The smallest double below zero as the divisor, which makes the quotient infinite. -/
theorem real_operand_agrees_with_number_on_overflow :
    let z : Number := ⟨1e308, -0.0⟩
    let k : Float := -5e-324
    z.re.isFinite = true ∧ z.im.isFinite = true ∧ k.isFinite = true ∧ (k == 0.0) = false ∧
      (z.re / k).isInf = true ∧
      GiveEqual (Native.div (.value (.number z)) (.real k))
        (Native.div (.value (.number z)) (.value (.number (.ofReal k)))) := by
  intro z k
  have hre : z.re.isFinite = true := by decide +kernel
  have him : z.im.isFinite = true := by decide
  have hk : k.isFinite = true := by decide +kernel
  have hzero : (k == 0.0) = false := by decide +kernel
  obtain ⟨-, -, -, -, hdiv, -⟩ := real_operand_agrees_with_number (z := z) (k := k) hre him hk
  exact ⟨hre, him, hk, hzero, by decide +kernel, hdiv hzero⟩

end Operands
end ComplexCalc
