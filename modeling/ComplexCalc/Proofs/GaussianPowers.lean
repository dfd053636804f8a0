import ComplexCalc.Elementary
import ComplexCalc.Proofs.ExactArithmetic
/-!
# Powers of Gaussian integers

A number with integer components is a Gaussian integer. As long as the modulus of a product does not
exceed `2 ^ 53`, neither does any integer that the product is computed from, so that the product is
exact. Repeated squaring computes nothing but divisors of its result, and their moduli do not exceed
the one of the result. So every product on the way is exact if the result is of a modulus up to `2 ^ 53`.
-/
namespace ComplexCalc.Number

/-- The Gaussian integer that the number is, if it is one. -/
def gaussian? (z : Number) : Option GaussianInt :=
  match Double.integer? z.re, Double.integer? z.im with
  | some a, some b => some ⟨a, b⟩
  | _, _ => none

/-- No integer that the product is computed from exceeds `2 ^ 53`: neither a product of components nor
a component of the product. -/
def Fits (g h : GaussianInt) : Prop :=
  (|g.re * h.re| ≤ 2 ^ 53 ∧ |g.im * h.im| ≤ 2 ^ 53 ∧ |g.re * h.im| ≤ 2 ^ 53 ∧ |g.im * h.re| ≤ 2 ^ 53) ∧
    |(g * h).re| ≤ 2 ^ 53 ∧ |(g * h).im| ≤ 2 ^ 53

instance (g h : GaussianInt) : Decidable (Fits g h) := inferInstanceAs (Decidable (_ ∧ _))

/-- The product of Gaussian integers, unless an integer that it is computed from exceeds `2 ^ 53`. -/
def mulExact? (z w : Number) : Option Number :=
  match z.gaussian?, w.gaussian? with
  | some g, some h => if Fits g h then some (z * w) else none
  | _, _ => none

variable {z w : Number} {g h : GaussianInt} {e : Nat}

/-! ## Products -/

theorem gaussian?_eq_some_iff :
    z.gaussian? = some g ↔
      Double.integer? z.re = some g.re ∧ Double.integer? z.im = some g.im := by
  unfold gaussian?
  split
  · rename_i a b ha hb
    rw [ha, hb, Option.some_inj, Option.some_inj, Option.some_inj, Zsqrtd.ext_iff]
  · rename_i hnone
    refine iff_of_false (fun h => by cases h) fun h => hnone _ _ h.1 h.2

/-- Numbers that are one Gaussian integer are equal. -/
theorem beq_of_gaussian? (hz : z.gaussian? = some g) (hw : w.gaussian? = some g) :
    (z == w) = true := by
  rw [gaussian?_eq_some_iff] at hz hw
  exact Bool.and_eq_true_iff.2 ⟨Double.beq_of_integer? hz.1 hw.1, Double.beq_of_integer? hz.2 hw.2⟩

theorem norm_eq (g : GaussianInt) : g.norm = g.re ^ 2 + g.im ^ 2 := by
  rw [Zsqrtd.norm_def]
  ring

theorem fits_of_norm (hnorm : (g * h).norm ≤ (2 ^ 53) ^ 2) : Fits g h := by
  have hproducts : (g * h).norm =
      (g.re * h.re) ^ 2 + (g.im * h.im) ^ 2 + (g.re * h.im) ^ 2 + (g.im * h.re) ^ 2 := by
    rw [Zsqrtd.norm_mul, norm_eq, norm_eq]
    ring
  have hparts := norm_eq (g * h)
  have hbound : ∀ n : ℤ, n ^ 2 ≤ (g * h).norm → |n| ≤ 2 ^ 53 := fun n hn =>
    abs_le_of_sq_le_sq (hn.trans hnorm) (by norm_num)
  have hac := sq_nonneg (g.re * h.re)
  have hbd := sq_nonneg (g.im * h.im)
  have had := sq_nonneg (g.re * h.im)
  have hbc := sq_nonneg (g.im * h.re)
  refine ⟨⟨?_, ?_, ?_, ?_⟩, ?_, ?_⟩ <;> apply hbound
  · linarith only [hproducts, hbd, had, hbc]
  · linarith only [hproducts, hac, had, hbc]
  · linarith only [hproducts, hac, hbd, hbc]
  · linarith only [hproducts, hac, hbd, had]
  · linarith only [hparts, sq_nonneg (g * h).im]
  · linarith only [hparts, sq_nonneg (g * h).re]

/-- The components of the product are computed exactly. -/
theorem gaussian?_mul (hz : z.gaussian? = some g) (hw : w.gaussian? = some h) (hfits : Fits g h) :
    (z * w).gaussian? = some (g * h) := by
  obtain ⟨⟨hac, hbd, had, hbc⟩, hre, him⟩ := hfits
  rw [gaussian?_eq_some_iff] at hz hw ⊢
  have hrepart : (g * h).re = g.re * h.re - g.im * h.im := by
    rw [Zsqrtd.re_mul]
    ring
  have himpart : (g * h).im = g.re * h.im + g.im * h.re := Zsqrtd.im_mul ..
  rw [hrepart] at hre ⊢
  rw [himpart] at him ⊢
  exact ⟨Double.integer?_sub (Double.integer?_mul hz.1 hw.1 hac) (Double.integer?_mul hz.2 hw.2 hbd) hre,
    Double.integer?_add (Double.integer?_mul hz.1 hw.2 had) (Double.integer?_mul hz.2 hw.1 hbc) him⟩

/-! ## Factors of the result -/

/-- Not zero, and of a modulus up to `2 ^ 53`. -/
structure Small (k : GaussianInt) : Prop where
  ne_zero : k ≠ 0
  norm_le : k.norm ≤ (2 ^ 53) ^ 2

variable {k : GaussianInt}

theorem Small.of_dvd (hk : Small k) (h : g ∣ k) : Small g := by
  obtain ⟨c, rfl⟩ := h
  have hc : c ≠ 0 := right_ne_zero_of_mul hk.ne_zero
  refine ⟨left_ne_zero_of_mul hk.ne_zero, le_trans ?_ hk.norm_le⟩
  have hle := GaussianInt.norm_le_norm_mul_left g hc
  have hg := GaussianInt.norm_nonneg g
  have hgc := GaussianInt.norm_nonneg (g * c)
  omega

/-- A product that divides a small Gaussian integer is exact. -/
theorem mul_exact (hk : Small k) (hz : z.gaussian? = some g) (hw : w.gaussian? = some h)
    (hdvd : g * h ∣ k) : mulExact? z w = some (z * w) ∧ (z * w).gaussian? = some (g * h) := by
  have hfits := fits_of_norm (hk.of_dvd hdvd).norm_le
  refine ⟨?_, gaussian?_mul hz hw hfits⟩
  unfold mulExact?
  rw [hz, hw]
  exact if_pos hfits

/-! ## Repeated squaring -/

theorem mul_self_pow_half (g : GaussianInt) (e : Nat) : g ^ (e % 2) * (g * g) ^ (e / 2) = g ^ e := by
  rw [← sq, ← pow_mul, ← pow_add, Nat.mod_add_div]

theorem mul_self_dvd_pow (g : GaussianInt) (he : ¬e ≤ 1) : g * g ∣ g ^ e :=
  sq g ▸ pow_dvd_pow g (by omega)

/-- The invariant is the product of the result and the power that is left. It is the value in the end,
and every factor on the way divides it. -/
theorem times_exact {r : Number} (hk : Small (h * g ^ e)) (he : 1 ≤ e) (hr : r.gaussian? = some h)
    (hz : z.gaussian? = some g) :
    powerTimesBy mulExact? r z e = some (powerTimes r z e) ∧
      (powerTimes r z e).gaussian? = some (h * g ^ e) := by
  fun_induction powerTimesBy mulExact? r z e generalizing g h with
  | case1 r z e hone =>
    obtain rfl : e = 1 := by omega
    rw [pow_one] at hk ⊢
    rw [powerTimes_eq, if_pos hone]
    exact mul_exact hk hr hz dvd_rfl
  | case2 r z e hmore hodd ih =>
    have hstep : h * g * (g * g) ^ (e / 2) = h * g ^ e := by
      rw [mul_assoc, ← mul_self_pow_half g e, hodd, pow_one]
    have hsquare : g * g ∣ h * g ^ e := dvd_mul_of_dvd_right (mul_self_dvd_pow g hmore) h
    obtain ⟨hmul, hproduct⟩ := mul_exact hk hr hz (hstep ▸ dvd_mul_right (h * g) _)
    obtain ⟨hmul', hproduct'⟩ := mul_exact hk hz hz hsquare
    rw [powerTimes_eq, if_neg hmore, if_pos hodd, hmul, hmul', ← hstep]
    exact ih _ _ (hstep ▸ hk) (by omega) hproduct hproduct'
  | case3 r z e hmore heven ih =>
    have hstep : h * (g * g) ^ (e / 2) = h * g ^ e := by
      rw [← mul_self_pow_half g e, Nat.mod_two_ne_one.1 heven, pow_zero, one_mul]
    have hsquare : g * g ∣ h * g ^ e := dvd_mul_of_dvd_right (mul_self_dvd_pow g hmore) h
    obtain ⟨hmul, hproduct⟩ := mul_exact hk hz hz hsquare
    rw [powerTimes_eq, if_neg hmore, if_neg heven, hmul, ← hstep]
    exact ih _ (hstep ▸ hk) (by omega) hr hproduct

theorem intPower_exact (hk : Small (g ^ e)) (he : 1 ≤ e) (hz : z.gaussian? = some g) :
    intPowerBy mulExact? z e = some (z.intPower e) ∧ (z.intPower e).gaussian? = some (g ^ e) := by
  fun_induction intPowerBy mulExact? z e generalizing g with
  | case1 z e hone =>
    obtain rfl : e = 1 := by omega
    rw [pow_one, intPower_eq, if_pos hone]
    exact ⟨rfl, hz⟩
  | case2 z e hmore ih =>
    obtain ⟨hmul, hproduct⟩ := mul_exact hk hz hz (mul_self_dvd_pow g hmore)
    rw [intPower_eq, if_neg hmore, hmul, Option.bind_eq_bind, Option.bind_some]
    by_cases hodd : e % 2 = 1
    · have hstep : g * (g * g) ^ (e / 2) = g ^ e := by
        rw [← mul_self_pow_half g e, hodd, pow_one]
      rw [if_pos hodd, if_pos hodd, ← hstep]
      exact times_exact (hstep ▸ hk) (by omega) hz hproduct
    · have hstep : (g * g) ^ (e / 2) = g ^ e := by
        rw [← mul_self_pow_half g e, Nat.mod_two_ne_one.1 hodd, pow_zero, one_mul]
      rw [if_neg hodd, if_neg hodd, ← hstep]
      exact ih _ (hstep ▸ hk) (by omega) hproduct

/-! ## Successive multiplication -/

/-- Multiplying by the number again and again is exact as well. -/
theorem iterate_exact (hk : Small (g ^ (e + 1))) (hz : z.gaussian? = some g) :
    ((· * z)^[e] z).gaussian? = some (g ^ (e + 1)) := by
  induction e with
  | zero =>
    rw [pow_one]
    exact hz
  | succ e ih =>
    rw [Function.iterate_succ_apply', pow_succ]
    have hfactor := ih (hk.of_dvd (pow_dvd_pow g (Nat.le_succ _)))
    exact (mul_exact hk hfactor hz (pow_succ g (e + 1) ▸ dvd_rfl)).2

/-- The modulus of a power by an integer, the square of the modulus. -/
theorem norm_pow_le_iff (g : GaussianInt) (e : Nat) :
    ‖(g : ℂ)‖ ^ e ≤ 2 ^ 53 ↔ (g ^ e).norm ≤ (2 ^ 53) ^ 2 := by
  have hsquare : (‖(g : ℂ)‖ ^ e) ^ 2 = ((g ^ e).norm : ℝ) := by
    rw [GaussianInt.intCast_real_norm, ← norm_pow, map_pow, Complex.normSq_eq_norm_sq]
  rw [← pow_le_pow_iff_left₀ (by positivity) (by positivity) two_ne_zero, hsquare]
  norm_cast

/-- A power of a Gaussian integer other than zero is exact if its modulus does not exceed `2 ^ 53`. It
is the number that comes out of multiplying again and again, of which every step is exact, and no integer
that repeated squaring computes on the way exceeds `2 ^ 53`. -/
theorem power_exact (m : RealFunctions) {n : Number} (hz : z.gaussian? = some g)
    (hzero : (z == zero) = false) (hn : n.integer? = some (e : ℤ)) (he : 2 ≤ e)
    (hbound : ‖(g : ℂ)‖ ^ e ≤ 2 ^ 53) :
    (z.power m n).gaussian? = some (g ^ e) ∧
      (z.power m n == (· * z)^[e - 1] z) = true ∧
      (∀ k < e, ((· * z)^[k] z).gaussian? = some (g ^ (k + 1))) ∧
      intPowerBy mulExact? z e = some (z.power m n) := by
  have hg : g ≠ 0 := fun h => by
    rw [beq_of_gaussian? hz (h ▸ rfl : zero.gaussian? = some g)] at hzero
    cases hzero
  have hsmall : Small (g ^ e) := ⟨pow_ne_zero e hg, (norm_pow_le_iff g e).1 hbound⟩
  obtain ⟨hreal, hre, -⟩ := integer?_eq_some_iff.1 hn
  have hone : n.re > 1.0 := by
    have hinteger : Double.integer? 1.0 = some 1 := by decide +kernel
    exact (Double.lt_iff_of_integer? hinteger hre).2 (by omega)
  have hpower : z.power m n = z.intPower e := by
    rw [power, hzero, if_neg Bool.false_ne_true, if_pos hreal, hn]
    exact if_pos hone
  obtain ⟨hloop, hvalue⟩ := intPower_exact hsmall (by omega) hz
  have hsteps : ∀ k < e, ((· * z)^[k] z).gaussian? = some (g ^ (k + 1)) := fun k hk =>
    iterate_exact (hsmall.of_dvd (pow_dvd_pow g hk)) hz
  have hlast := hsteps (e - 1) (by omega)
  rw [Nat.sub_add_cancel (by omega)] at hlast
  rw [hpower]
  exact ⟨hvalue, beq_of_gaussian? hvalue hlast, hsteps, hloop⟩

theorem power_exact_at_two_and_two_i :
    ((⟨2.0, 2.0⟩ : Number).power .machine (.ofReal 3.0)).gaussian? = some (⟨-16, 16⟩) := by
  have hbound : ‖((⟨2, 2⟩ : GaussianInt) : ℂ)‖ ^ 3 ≤ 2 ^ 53 :=
    (norm_pow_le_iff ⟨2, 2⟩ 3).2 (by decide +kernel)
  exact (power_exact .machine (z := ⟨2.0, 2.0⟩) (n := .ofReal 3.0) (e := 3) (by decide +kernel)
    (by decide +kernel) (by decide +kernel) (by decide) hbound).1

end ComplexCalc.Number
