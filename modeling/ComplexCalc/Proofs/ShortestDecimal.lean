import ComplexCalc.Proofs.DecimalValue
/-!
# Shortest decimals read back

Seventeen digits lie close enough to a double to be read as this double, and `shortest`, which takes
fewer where they do as well, always gives it.
-/
namespace ComplexCalc

/-! ## Decimals around a fraction -/

theorem digitCount_le_iff {n k : Nat} (hk : 0 < k) : digitCount n ≤ k ↔ n < 10 ^ k :=
  Nat.length_toDigits_le_iff (by decide) hk

theorem digitCount_pos (n : Nat) : 0 < digitCount n := Nat.length_toDigits_pos

theorem lt_pow_digitCount (n : Nat) : n < 10 ^ digitCount n :=
  (digitCount_le_iff (digitCount_pos n)).1 le_rfl

theorem pow_digitCount_le {n : Nat} (hn : 0 < n) : 10 ^ (digitCount n - 1) ≤ n := by
  rcases Nat.eq_zero_or_pos (digitCount n - 1) with h | h
  · rw [h, pow_zero]
    exact hn
  · rw [← Nat.not_lt, ← digitCount_le_iff h]
    omega

namespace Ratio

variable {v : Ratio}

theorem value_nonneg (v : Ratio) : 0 ≤ v.value := by
  unfold value
  positivity

theorem value_shift (v : Ratio) (k : ℤ) : (v.shift k).value = v.value * 10 ^ k := by
  unfold shift
  split
  · rename_i hk
    obtain ⟨j, rfl⟩ := Int.eq_ofNat_of_zero_le hk
    simp [value]
    ring
  · rename_i hk
    obtain ⟨j, rfl⟩ : ∃ j : Nat, k = -j := ⟨(-k).toNat, by omega⟩
    simp [value, div_eq_mul_inv]
    ring

theorem den_shift_pos (hden : 0 < v.den) (k : ℤ) : 0 < (v.shift k).den := by
  unfold shift
  split
  · exact hden
  · exact Nat.mul_pos hden (Nat.pow_pos (by decide))

/-- The order is the exponent of the first significant digit. -/
theorem order_spec (hnum : 0 < v.num) (hden : 0 < v.den) :
    (10 : ℚ) ^ v.order ≤ v.value ∧ v.value < 10 ^ (v.order + 1) := by
  have hn : (0 : ℚ) < v.num := by exact_mod_cast hnum
  have hd : (0 : ℚ) < v.den := by exact_mod_cast hden
  unfold order value
  split
  · rename_i hle
    have hq : 0 < v.num / v.den := Nat.div_pos hle hden
    have hpos := digitCount_pos (v.num / v.den)
    have hlow := pow_digitCount_le hq
    have hhigh := lt_pow_digitCount (v.num / v.den)
    generalize digitCount (v.num / v.den) = c at *
    obtain ⟨j, rfl⟩ : ∃ j, c = j + 1 := ⟨c - 1, by omega⟩
    rw [Nat.le_div_iff_mul_le hden] at hlow
    rw [Nat.div_lt_iff_lt_mul hden] at hhigh
    rw [le_div_iff₀ hd, div_lt_iff₀ hd, Nat.cast_add, Nat.cast_one, add_sub_cancel_right,
      zpow_natCast]
    constructor
    · exact_mod_cast hlow
    · exact_mod_cast hhigh
  · rename_i hlt
    have hq : 0 < (v.den - 1) / v.num := Nat.div_pos (by omega) hnum
    have hpos := digitCount_pos ((v.den - 1) / v.num)
    have hlow := pow_digitCount_le hq
    have hhigh := lt_pow_digitCount ((v.den - 1) / v.num)
    generalize digitCount ((v.den - 1) / v.num) = c at *
    obtain ⟨j, rfl⟩ : ∃ j, c = j + 1 := ⟨c - 1, by omega⟩
    rw [Nat.le_div_iff_mul_le hnum, Nat.add_sub_cancel] at hlow
    rw [Nat.div_lt_iff_lt_mul hnum] at hhigh
    have hexponent : -((j + 1 : Nat) : ℤ) + 1 = -(j : ℤ) := by push_cast; ring
    rw [hexponent, zpow_neg, zpow_neg, zpow_natCast, zpow_natCast, inv_eq_one_div, inv_eq_one_div,
      div_le_div_iff₀ (by positivity) hd, div_lt_div_iff₀ hd (by positivity)]
    constructor
    · have : v.den ≤ v.num * 10 ^ (j + 1) := by rw [Nat.mul_comm]; omega
      rw [one_mul]
      exact_mod_cast this
    · have : v.num * 10 ^ j < v.den := by rw [Nat.mul_comm]; omega
      rw [one_mul]
      exact_mod_cast this

/-- The nearer neighbour of a fraction is at most a half away. -/
theorem neighbours_near (hden : 0 < v.den) : |(v.neighbours.1 : ℚ) - v.value| ≤ 1 / 2 := by
  have hd : (0 : ℚ) < v.den := by exact_mod_cast hden
  have hnum : (v.num : ℚ) = v.den * (v.num / v.den : Nat) + (v.num % v.den : Nat) := by
    exact_mod_cast (Nat.div_add_mod v.num v.den).symm
  have hvalue : v.value = (v.num / v.den : Nat) + (v.num % v.den : Nat) / v.den := by
    rw [value, hnum, add_div, mul_div_cancel_left₀ _ hd.ne']
  have hlt : ((v.num % v.den : Nat) : ℚ) < v.den := by exact_mod_cast Nat.mod_lt v.num hden
  have hnonneg : 0 ≤ ((v.num % v.den : Nat) : ℚ) / v.den := by positivity
  unfold neighbours
  rw [hvalue, abs_le]
  dsimp only
  split
  · rename_i hnear
    have hhalf : ((v.num % v.den : Nat) : ℚ) / v.den ≤ 1 / 2 := by
      rw [div_le_div_iff₀ hd two_pos]
      have : v.num % v.den * 2 ≤ 1 * v.den := by omega
      exact_mod_cast this
    constructor <;> linarith
  · rename_i hfar
    have hhalf : 1 / 2 ≤ ((v.num % v.den : Nat) : ℚ) / v.den := by
      rw [div_le_div_iff₀ two_pos hd]
      have : 1 * v.den ≤ v.num % v.den * 2 := by omega
      exact_mod_cast this
    have hone : ((v.num % v.den : Nat) : ℚ) / v.den < 1 := (div_lt_one hd).2 hlt
    push_cast
    constructor <;> linarith

end Ratio

namespace Decimal

variable {v : Ratio}

/-- Rounding to some digits changes a fraction by no more than half a unit of the last of them. -/
theorem rounded_near (hnum : 0 < v.num) (hden : 0 < v.den) (digits : Nat) :
    |(rounded digits v).value - v.value| ≤ v.value * 10 ^ (1 - (digits : ℤ)) / 2 := by
  obtain ⟨hlow, -⟩ := Ratio.order_spec hnum hden
  have hnear := Ratio.neighbours_near (v := v.shift (digits - 1 - v.order)) (Ratio.den_shift_pos hden _)
  have hunit : (0 : ℚ) < 10 ^ (-(digits - 1 - v.order) : ℤ) := by positivity
  have hscaled : (rounded digits v).value - v.value =
      ((v.shift (digits - 1 - v.order)).neighbours.1 - (v.shift (digits - 1 - v.order)).value) *
        10 ^ (-(digits - 1 - v.order) : ℤ) := by
    rw [Ratio.value_shift, sub_mul, mul_assoc, ← zpow_add₀ (by norm_num), add_neg_cancel, zpow_zero,
      mul_one]
    rfl
  rw [hscaled, abs_mul, abs_of_pos hunit]
  calc |((v.shift (digits - 1 - v.order)).neighbours.1 : ℚ) - (v.shift (digits - 1 - v.order)).value| *
        10 ^ (-(digits - 1 - v.order) : ℤ)
      ≤ 1 / 2 * 10 ^ (-(digits - 1 - v.order) : ℤ) := by gcongr
    _ = 10 ^ v.order * 10 ^ (1 - (digits : ℤ)) / 2 := by
      rw [← zpow_add₀ (by norm_num), one_div, inv_mul_eq_div]
      congr 2
      ring
    _ ≤ v.value * 10 ^ (1 - (digits : ℤ)) / 2 := by gcongr

end Decimal

/-! ## Reading back -/

section ReadingBack
variable {x : Float} {v : Ratio}

theorem Double.den_pos_of_magnitude (hv : magnitude? x = some v) : 0 < v.den := by
  unfold magnitude? at hv
  split at hv <;> cases hv
  · unfold scale
    split
    · exact Nat.one_pos
    · exact Nat.pow_pos (by decide)
  · exact Nat.one_pos

/-- Seventeen digits are enough for every double. -/
theorem Decimal.toFloat_rounded (hv : Double.magnitude? x = some v) (hnum : v.num ≠ 0) :
    (rounded 17 v).toFloat = x.abs := by
  rw [toFloat_eq_ofRat]
  refine (Double.Is.abs hv hnum).eq_of_close ?_
  have hnear := rounded_near (Nat.pos_of_ne_zero hnum) (Double.den_pos_of_magnitude hv) 17
  have hprecise : (10 : ℚ) ^ (1 - (17 : Nat) : ℤ) / 2 ≤ 1 / 2 ^ 54 := by norm_num
  calc _ ≤ v.value * 10 ^ (1 - (17 : Nat) : ℤ) / 2 := hnear
    _ = v.value * (10 ^ (1 - (17 : Nat) : ℤ) / 2) := by rw [mul_div_assoc]
    _ ≤ v.value * (1 / 2 ^ 54) := mul_le_mul_of_nonneg_left hprecise v.value_nonneg
    _ = v.value / 2 ^ 54 := by rw [mul_one_div]

/-- The shortest decimal of a double is read as this double. -/
theorem Decimal.toFloat_shortest (hv : Double.magnitude? x = some v) (hnum : v.num ≠ 0) :
    (shortest x.abs v).toFloat = x.abs := by
  unfold shortest
  rcases hfind : (List.range' 1 16).findSome? (readingBack? x.abs v) with - | d
  · exact toFloat_rounded hv hnum
  · obtain ⟨digits, -, hd⟩ := List.exists_of_findSome?_eq_some hfind
    refine (Double.Is.abs hv hnum).eq_of_beq ?_
    unfold readingBack? at hd
    grind

end ReadingBack
end ComplexCalc
