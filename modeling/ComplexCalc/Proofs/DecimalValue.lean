import ComplexCalc.Decimal.Basic
import ComplexCalc.Proofs.NearestDouble
/-!
# Decimals as doubles

`toFloat` gives the double nearest to the value of a decimal, whichever way it computes it: small
coefficients and exponents by one product or quotient of doubles, the others by one of integers. So it
depends on the value alone.
-/
namespace ComplexCalc

open Float.Model Float.Model.UnpackedFloat

/-- The value of a fraction. -/
def Ratio.value (v : Ratio) : ℚ := v.num / v.den

/-- The value of a decimal. -/
def Decimal.value (d : Decimal) : ℚ := d.coefficient * 10 ^ d.exponent

/-! ## Values of doubles -/

namespace Double

theorem scale_value (m : Nat) (e : ℤ) : (scale m e).value = m * 2 ^ e := by
  unfold scale
  split
  · rename_i he
    obtain ⟨k, rfl⟩ := Int.eq_ofNat_of_zero_le he
    simp [Ratio.value]
  · rename_i he
    obtain ⟨k, rfl⟩ : ∃ k : Nat, e = -k := ⟨(-e).toNat, by omega⟩
    simp [Ratio.value, div_eq_mul_inv]

theorem magnitude?_abs (x : Float) : magnitude? x.abs = magnitude? x := by
  unfold magnitude?
  rw [unpack_abs]
  cases x.toModel.unpack <;> rfl

/-- The double is positive, and its value is the fraction. -/
def Is (x : Float) (q : ℚ) : Prop :=
  ∃ m e, ∃ h : Canonical m e, x.toModel.unpack = .finite .positive m e h.pos ∧ (m : ℚ) * 2 ^ e = q

section Is
variable {x y : Float} {q r : ℚ}

theorem Is.of_magnitude {v : Ratio} (hv : magnitude? x = some v) (hnum : v.num ≠ 0)
    (hsign : isNegative x = false) : Is x v.value := by
  unfold magnitude? at hv
  unfold isNegative at hsign
  rcases hx : x.toModel.unpack with s | _ | s | ⟨s, m, e, hm⟩ <;> simp only [hx] at hv hsign
  · cases hv
  · cases hv
  · cases hv
    exact absurd rfl hnum
  · cases hv
    cases s with
    | negative => cases hsign
    | positive => exact ⟨m, e, .of_unpack hx, hx, (scale_value m e).symm⟩

theorem Is.abs {v : Ratio} (hv : magnitude? x = some v) (hnum : v.num ≠ 0) :
    Is x.abs v.value := by
  refine .of_magnitude ?_ hnum (isNegative_abs x)
  rw [magnitude?_abs, hv]

/-- A fraction close enough to a double is packed into this double. -/
theorem Is.eq_of_close (h : Is x r) (hq : |q - r| ≤ r / 2 ^ 54) :
    ofRat q = x := by
  obtain ⟨m, e, hcanonical, hx, rfl⟩ := h
  rw [ofRat, hcanonical.nearest_of_close hq, ← hx, ofModel_pack_unpack]

theorem Is.eq_of_beq (h : Is x r) (hy : (y == x) = true) : y = x := by
  obtain ⟨m, e, hcanonical, hx, -⟩ := h
  refine Double.eq_of_beq hy (Bool.eq_false_iff.2 fun hzero => ?_)
  obtain ⟨s, hs⟩ := (beq_zero_iff x).1 hzero
  cases hs.symm.trans hx

theorem Is.pos (h : Is x q) : 0 < q := by
  obtain ⟨m, e, hcanonical, -, rfl⟩ := h
  have := hcanonical.pos
  positivity

theorem Is.div (hx : Is x q) (hy : Is y r) :
    x / y = ofRat (q / r) := by
  obtain ⟨m, e, hm, hx, rfl⟩ := hx
  obtain ⟨m', e', hm', hy, rfl⟩ := hy
  have hdiv : x / y = Float.ofModel (Float.Model.pack
      (UnpackedFloat.div Format.binary64 x.toModel.unpack y.toModel.unpack)) := rfl
  rw [hdiv, hx, hy, div_finite hm.pos hm'.pos, ofRat]

theorem Is.mul (hx : Is x q) (hy : Is y r) :
    x * y = ofRat (q * r) := by
  obtain ⟨m, e, hm, hx, rfl⟩ := hx
  obtain ⟨m', e', hm', hy, rfl⟩ := hy
  have hmul : x * y = Float.ofModel (Float.Model.pack
      (UnpackedFloat.mul Format.binary64 x.toModel.unpack y.toModel.unpack)) := rfl
  rw [hmul, hx, hy, hm.mul hm', ofRat]

end Is

/-- The powers of ten that small decimals are computed with are exact. -/
theorem power_is : ∀ k : Fin 23, ∃ x, Float.exactlyRepresentablePowersOfTen[k.val]? = some x ∧
    Is x (10 ^ k.val) := by
  have hall : ∀ k : Fin 23, (Float.exactlyRepresentablePowersOfTen[k.val]?).any (fun x =>
      !isNegative x && (magnitude? x).any fun v =>
        v.num = 10 ^ k.val * v.den ∧ v.num ≠ 0) = true := by
    decide +kernel
  intro k
  obtain ⟨x, hx, h⟩ := (Option.any_eq_true _ _).1 (hall k)
  rw [Bool.and_eq_true, Bool.not_eq_true'] at h
  obtain ⟨v, hv, hval⟩ := (Option.any_eq_true _ _).1 h.2
  obtain ⟨hnum, hne⟩ := of_decide_eq_true hval
  refine ⟨x, hx, ?_⟩
  have hden : (v.den : ℚ) ≠ 0 := by
    intro h0
    rw [Nat.cast_eq_zero.1 h0, Nat.mul_zero] at hnum
    exact hne hnum
  have hvalue : v.value = 10 ^ k.val := by
    rw [Ratio.value, hnum]
    push_cast
    rw [mul_div_cancel_right₀ _ hden]
  exact hvalue ▸ .of_magnitude hv hne h.1

/-- An integer below `2 ^ 53` is converted exactly. -/
theorem integer_is {n : Nat} (hn : 0 < n) (hn' : n < 2 ^ 53) : Is n.toUInt64.toFloat n := by
  obtain ⟨m, e, hcanonical, hvalue⟩ := exists_canonical hn hn'
  refine ⟨m, e, hcanonical, ?_, hvalue⟩
  have hround : UnpackedFloat.ofUInt64 Format.binary64 n.toUInt64 =
      UnpackedFloat.round Format.binary64 .positive n 0 := by
    have hnat : n.toUInt64.toNat = n := by
      exact UInt64.toNat_ofNat_of_lt' (by simp [UInt64.size]; omega)
    have hpos : compare (n : ℤ) 0 = .gt := by
      rw [compare_gt_iff_gt]
      omega
    simp only [UnpackedFloat.ofUInt64, UnpackedFloat.ofNat, UnpackedFloat.ofInt,
      UnpackedFloat.normalize, hnat, hpos,
      Int.toNat_natCast]
  have hnearest : nearest ((n : ℚ) * 2 ^ (0 : ℤ)) = .finite .positive m e hcanonical.pos := by
    refine hcanonical.nearest_of_close ?_
    rw [hvalue, zpow_zero, mul_one, sub_self, abs_zero]
    positivity
  change (Float.Model.pack (UnpackedFloat.ofUInt64 Format.binary64 n.toUInt64)).unpack = _
  rw [hround, round_finite hn, hnearest, hcanonical.unpack_pack]

end Double

/-! ## Decimals as doubles -/

namespace Decimal

open Double

/-- Small coefficients and exponents take one product or quotient of doubles. -/
theorem ofScientific_of_small {n k : Nat} (hn : n < 2 ^ 53) (hk : k ≤ 22) (negative : Bool) :
    Float.ofScientific n negative k = ofRat (n * 10 ^ (if negative then -(k : ℤ) else k)) := by
  obtain ⟨p, hp, hpower⟩ := power_is ⟨k, by omega⟩
  obtain ⟨hlt, hget⟩ := Array.getElem?_eq_some_iff.1 hp
  rw [Float.ofScientific, dif_pos ⟨hn, hk⟩]
  simp only [hget]
  rcases Nat.eq_zero_or_pos n with rfl | hpos
  · obtain ⟨m, e, hcanonical, hunpack, -⟩ := hpower
    have hzero : ((0 : Nat) : ℚ) * 10 ^ (if negative then -(k : ℤ) else k) = 0 := by simp
    have hdiv : (0 : Nat).toUInt64.toFloat / p = Float.ofModel (Float.Model.pack
        (UnpackedFloat.div Format.binary64 (.zero .positive) p.toModel.unpack)) := rfl
    have hmul : (0 : Nat).toUInt64.toFloat * p = Float.ofModel (Float.Model.pack
        (UnpackedFloat.mul Format.binary64 (.zero .positive) p.toModel.unpack)) := rfl
    rw [hzero, ofRat, nearest_zero, hdiv, hmul, hunpack]
    cases negative <;> rfl
  · cases negative with
    | true =>
      rw [if_pos rfl, if_pos rfl, (integer_is hpos hn).div hpower, zpow_neg, zpow_natCast,
        div_eq_mul_inv]
    | false =>
      rw [if_neg Bool.false_ne_true, if_neg Bool.false_ne_true, (integer_is hpos hn).mul hpower,
        zpow_natCast]

section Integers
variable {n : Nat}

theorem large_of_exponent (hn : 0 < n) {k : Nat} (hk : 1024 ≤ k) :
    (2 : ℚ) ^ 1024 ≤ n * 10 ^ (k : ℤ) := by
  have hone : (1 : ℚ) ≤ n := by exact_mod_cast hn
  calc (2 : ℚ) ^ 1024 ≤ 10 ^ 1024 := pow_le_pow_left₀ (by norm_num) (by norm_num) 1024
    _ ≤ 10 ^ k := pow_le_pow_right₀ (by norm_num) hk
    _ ≤ n * 10 ^ k := le_mul_of_one_le_left (by positivity) hone
    _ = n * 10 ^ (k : ℤ) := by rw [zpow_natCast]

theorem small_of_exponent {k : Nat} (hk : n.log2 + 1 + 1075 ≤ k) :
    (n : ℚ) * 10 ^ (-(k : ℤ)) < 2 ^ (-1075 : ℤ) := by
  have hhigh : (n : ℚ) < 2 ^ (n.log2 + 1) := by exact_mod_cast Nat.lt_log2_self
  calc (n : ℚ) * 10 ^ (-(k : ℤ)) ≤ n * 2 ^ (-(k : ℤ)) := by
        rw [zpow_neg, zpow_neg, zpow_natCast, zpow_natCast]
        gcongr
        norm_num
    _ < 2 ^ (n.log2 + 1) * 2 ^ (-(k : ℤ)) := by gcongr
    _ = 2 ^ ((n.log2 + 1 : Nat) - (k : ℤ)) := by
        rw [← zpow_natCast, ← zpow_add₀ two_ne_zero, sub_eq_add_neg]
    _ ≤ 2 ^ (-1075 : ℤ) := zpow_le_zpow_right₀ one_le_two (by omega)

/-- A large coefficient takes one product of integers. -/
theorem mul_power (hn : 0 < n) (k : Nat) {h : 0 < n <<< 53} {h' : 0 < 10 ^ k} :
    UnpackedFloat.mul Format.binary64 (.finite .positive (n <<< 53) (-(53 : Nat)) h)
      (.finite .positive (10 ^ k) 0 h') = nearest (n * 10 ^ (k : ℤ)) := by
  have hvalue : ((n <<< 53 : Nat) : ℚ) * 2 ^ (-(53 : Nat) : ℤ) * ((10 ^ k : Nat) * 2 ^ (0 : ℤ)) =
      n * 10 ^ (k : ℤ) := by
    rw [Nat.shiftLeft_eq, zpow_neg, zpow_natCast, zpow_natCast, zpow_zero, mul_one, Nat.cast_mul,
      Nat.cast_pow, Nat.cast_pow, Nat.cast_ofNat, Nat.cast_ofNat,
      mul_inv_cancel_right₀ (by positivity)]
  rw [mul_finite, hvalue]
  rw [hvalue]
  have hlog : 0 ≤ Int.log 2 ((n : ℚ) * 10 ^ (k : ℤ)) := by
    refine (Int.zpow_le_iff_le_log Nat.one_lt_two (by positivity)).1 ?_
    rw [zpow_zero, zpow_natCast]
    exact_mod_cast Nat.mul_pos hn (by positivity)
  rw [gridExponent]
  omega

/-- A large coefficient takes one quotient of integers. -/
theorem div_power (hn : 0 < n) (k : Nat) {h' : 0 < 10 ^ k} :
    UnpackedFloat.div Format.binary64 (.finite .positive n 0 hn) (.finite .positive (10 ^ k) 0 h') =
      nearest (n * 10 ^ (-(k : ℤ))) := by
  rw [div_finite hn h', zpow_neg, zpow_natCast, zpow_zero, mul_one, mul_one, Nat.cast_pow,
    Nat.cast_ofNat, div_eq_mul_inv]

/-- Other decimals take one product or quotient of integers, but for those that are certainly too
large or too small. -/
theorem pack_ofScientific (hn : 0 < n) (k : ℤ) :
    Float.Model.pack (UnpackedFloat.ofScientific Format.binary64 n k) =
      Float.Model.pack (nearest (n * 10 ^ k)) := by
  rw [UnpackedFloat.ofScientific, dif_neg hn.ne']
  split
  · rename_i hk
    change 2048 < k at hk
    obtain ⟨j, rfl⟩ := Int.eq_ofNat_of_zero_le (by omega : 0 ≤ k)
    exact (pack_nearest_of_large (large_of_exponent hn (by omega))).symm
  split
  · rename_i hk
    change k < -(2048 + (n.log2 : ℤ)) at hk
    obtain ⟨j, rfl⟩ : ∃ j : Nat, k = -j := ⟨(-k).toNat, by omega⟩
    rw [nearest_of_small (by positivity) (small_of_exponent (by omega))]
  split
  · rename_i hk
    obtain ⟨j, rfl⟩ := Int.eq_ofNat_of_zero_le hk
    exact congrArg _ (mul_power hn j)
  · rename_i hk
    obtain ⟨j, rfl⟩ : ∃ j : Nat, k = -j := ⟨(-k).toNat, by omega⟩
    have hj : (- -(j : ℤ)).toNat = j := by omega
    simp only [hj]
    exact congrArg _ (div_power hn j)

end Integers

/-- A decimal is read as the double nearest to its value. -/
theorem toFloat_eq_ofRat (d : Decimal) : d.toFloat = ofRat d.value := by
  have hexponent : (if d.exponent < 0 then -(d.exponent.natAbs : ℤ) else d.exponent.natAbs) =
      d.exponent := by
    split <;> omega
  by_cases hsmall : d.coefficient < 2 ^ 53 ∧ d.exponent.natAbs ≤ 22
  · rw [toFloat, ofScientific_of_small hsmall.1 hsmall.2]
    simp only [decide_eq_true_eq, hexponent]
    rfl
  · have hcases : (if (decide (d.exponent < 0)) = true then Int.negOfNat d.exponent.natAbs
        else Int.ofNat d.exponent.natAbs) = d.exponent := by
      simp only [decide_eq_true_eq, Int.negOfNat_eq, Int.ofNat_eq_natCast]
      exact hexponent
    rw [toFloat, Float.ofScientific, dif_neg hsmall]
    simp only [hcases]
    rcases Nat.eq_zero_or_pos d.coefficient with hzero | hpos
    · have hvalue : d.value = 0 := by rw [value, hzero, Nat.cast_zero, zero_mul]
      rw [hvalue, ofRat, nearest_zero, hzero]
      rfl
    · exact congrArg Float.ofModel (pack_ofScientific hpos d.exponent)

/-- Decimals of the same value are read as the same double. -/
theorem toFloat_congr {c d : Decimal} (h : c.value = d.value) : c.toFloat = d.toFloat := by
  rw [toFloat_eq_ofRat, toFloat_eq_ofRat, h]

end Decimal

/-- A decimal with the value of a double is read as this double. -/
theorem Double.Is.toFloat {x : Float} {q : ℚ} (hx : Is x q) {d : Decimal} (hd : d.value = q) :
    d.toFloat = x := by
  rw [Decimal.toFloat_eq_ofRat]
  refine hx.eq_of_close ?_
  rw [hd, sub_self, abs_zero]
  have := hx.pos
  positivity

end ComplexCalc
