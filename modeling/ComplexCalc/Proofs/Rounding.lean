import ComplexCalc.Proofs.Doubles
/-!
# Rounding to the nearest double

A product or a quotient of doubles is computed as a mantissa with two further bits, which tell on
which side of the middle between two integers the exact result lies. Shifting keeps this up, so what
comes out depends on the exact result alone: it is `nearest`, the double of the grid of its binade
that is nearest to it.
-/
namespace ComplexCalc.Double

open Float.Model Float.Model.UnpackedFloat

/-! ## Rounding to an integer -/

/-- The integer nearest to a fraction, of two equally near the even one. -/
def halfEven (r : ℚ) : Nat :=
  if r - ⌊r⌋₊ < 1 / 2 ∨ r - ⌊r⌋₊ = 1 / 2 ∧ ⌊r⌋₊ % 2 = 0 then ⌊r⌋₊ else ⌊r⌋₊ + 1

section HalfEven
variable {r : ℚ} {n : Nat}

theorem halfEven_of_floor (hlow : n ≤ r) (hhigh : r < n + 1) :
    halfEven r = if r - n < 1 / 2 ∨ r - n = 1 / 2 ∧ n % 2 = 0 then n else n + 1 := by
  have hfloor : ⌊r⌋₊ = n := (Nat.floor_eq_iff (le_trans n.cast_nonneg hlow)).2 ⟨hlow, hhigh⟩
  rw [halfEven, hfloor]

/-- A fraction less than a half away from an integer is rounded to it. -/
theorem halfEven_of_close (hr : 0 ≤ r) (h : |r - n| < 1 / 2) : halfEven r = n := by
  obtain ⟨hlow, hhigh⟩ := abs_lt.1 h
  rcases le_or_gt (n : ℚ) r with hn | hn
  · rw [halfEven_of_floor hn (by linarith), if_pos (.inl hhigh)]
  · obtain ⟨k, rfl⟩ : ∃ k, n = k + 1 := by
      refine Nat.exists_eq_succ_of_ne_zero fun h0 => ?_
      rw [h0, Nat.cast_zero] at hn
      linarith
    push_cast at hlow hn
    rw [halfEven_of_floor (n := k) (by linarith) hn, if_neg]
    rintro (h | ⟨h, -⟩) <;> linarith

/-- The middle between two integers is rounded to the even one. -/
theorem halfEven_middle (hn : n % 2 = 1) (hlow : n + 1 / 2 ≤ r) (hhigh : r < n + 1) :
    halfEven r = n + 1 := by
  rw [halfEven_of_floor (n := n) (by linarith) hhigh, if_neg]
  rintro (h | ⟨-, h⟩)
  · linarith
  · omega

theorem le_halfEven (h : n ≤ r) : n ≤ halfEven r := by
  have hfloor : n ≤ ⌊r⌋₊ := Nat.le_floor h
  unfold halfEven
  split <;> omega

theorem halfEven_le (hr : 0 ≤ r) (h : r < n + 1 / 2) : halfEven r ≤ n := by
  have hlow : (⌊r⌋₊ : ℚ) ≤ r := Nat.floor_le hr
  unfold halfEven
  split
  · exact Nat.le_of_lt_succ (by exact_mod_cast (by push_cast; linarith : (⌊r⌋₊ : ℚ) < (n + 1 : Nat)))
  · rename_i hround
    rw [not_or, not_lt] at hround
    exact_mod_cast (by linarith [hround.1] : (⌊r⌋₊ : ℚ) < n)

end HalfEven

/-! ## Residual bits -/

/-- The mantissa with its residual bits stands for a fraction: the round bit says whether a half has
to be added, and the sticky bit whether the fraction is larger than that. -/
def StandsFor (em : ExtendedMantissa) (r : ℚ) : Prop :=
  match em.roundBit, em.stickyBit with
  | false, false => r = em.mantissa
  | false, true => em.mantissa < r ∧ r < em.mantissa + 1 / 2
  | true, false => r = em.mantissa + 1 / 2
  | true, true => em.mantissa + 1 / 2 < r ∧ r < em.mantissa + 1

namespace StandsFor

variable {em : ExtendedMantissa} {r : ℚ}

theorem le (h : StandsFor em r) : em.mantissa ≤ r := by
  rcases em with ⟨m, _ | _, _ | _⟩ <;> simp only [StandsFor] at h ⊢ <;> linarith

theorem lt (h : StandsFor em r) : r < em.mantissa + 1 := by
  rcases em with ⟨m, _ | _, _ | _⟩ <;> simp only [StandsFor] at h ⊢ <;> linarith

theorem shiftRightOne (h : StandsFor em r) : StandsFor em.shiftRightOne (r / 2) := by
  have hm : (em.mantissa : ℚ) = 2 * (em.mantissa / 2 : Nat) + (em.mantissa % 2 : Nat) := by
    exact_mod_cast (Nat.div_add_mod em.mantissa 2).symm
  rcases em with ⟨m, b, s⟩
  dsimp only at hm
  rcases Nat.mod_two_eq_zero_or_one m with hodd | hodd <;> rw [hodd] at hm <;>
    cases b <;> cases s <;>
    simp [StandsFor, ExtendedMantissa.shiftRightOne, hodd] at h hm ⊢ <;>
    first | linarith | constructor <;> linarith

theorem shiftRight (h : StandsFor em r) (n : Nat) : StandsFor (em >>> n) (r / 2 ^ n) := by
  induction n with
  | zero =>
    rw [pow_zero, div_one]
    exact h
  | succ n ih =>
    rw [pow_succ, ← div_div]
    exact ih.shiftRightOne

theorem roundedMantissa (h : StandsFor em r) : em.roundedMantissa = halfEven r := by
  rw [halfEven_of_floor h.le h.lt]
  rcases em with ⟨m, _ | _, _ | _⟩ <;> simp only [StandsFor] at h <;>
    simp only [ExtendedMantissa.roundedMantissa, ExtendedMantissa.accuracy,
      Accuracy.roundToNearestEven]
  · rw [if_pos (.inl (by rw [h, sub_self]; norm_num))]
  · rw [if_pos (.inl (by linarith))]
  · rcases Nat.mod_two_eq_zero_or_one m with hm | hm
    · rw [if_pos (.inr ⟨by rw [h]; ring, hm⟩), hm, Nat.add_zero]
    · rw [if_neg, hm]
      rintro (h' | ⟨-, h'⟩)
      · rw [h] at h'
        linarith
      · omega
  · rw [if_neg]
    rintro (h' | ⟨h', -⟩) <;> linarith

theorem exact (m : Nat) : StandsFor (.ofMantissaAndAccuracy m .exact) m := rfl

/-- The quotient of a division with remainder, and how exact it is, stand for the fraction. -/
theorem fraction (num : Nat) {den : Nat} (hden : 0 < den) :
    StandsFor (.ofMantissaAndAccuracy (num / den) (accuracyOfFraction (num % den) den))
      (num / den) := by
  have hd : (0 : ℚ) < den := by exact_mod_cast hden
  have hnum : (num : ℚ) = den * (num / den : Nat) + (num % den : Nat) := by
    exact_mod_cast (Nat.div_add_mod num den).symm
  have hr : (num : ℚ) / den = (num / den : Nat) + (num % den : Nat) / den := by
    rw [hnum, add_div, mul_div_cancel_left₀ _ hd.ne']
  have hlt : num % den < den := Nat.mod_lt num hden
  have hhigh : ((num % den : Nat) : ℚ) < den := by exact_mod_cast hlt
  rw [hr, accuracyOfFraction]
  generalize num % den = k at hhigh
  generalize num / den = m
  split
  · rename_i hk
    simp [StandsFor, ExtendedMantissa.ofMantissaAndAccuracy, hk]
  · rename_i hk
    have hpos : (0 : ℚ) < k := by exact_mod_cast Nat.pos_of_ne_zero hk
    have hfraction : 0 < (k : ℚ) / den := div_pos hpos hd
    rcases hc : compare (2 * k) den with _ | _ | _
    · have h : (2 : ℚ) * k < den := by exact_mod_cast Nat.compare_eq_lt.1 hc
      have : (k : ℚ) / den < 1 / 2 := by rw [div_lt_div_iff₀ hd two_pos]; linarith
      simp only [StandsFor, ExtendedMantissa.ofMantissaAndAccuracy]
      constructor <;> linarith
    · have h : (2 : ℚ) * k = den := by exact_mod_cast Nat.compare_eq_eq.1 hc
      simp only [StandsFor, ExtendedMantissa.ofMantissaAndAccuracy]
      rw [← h, div_mul_cancel_right₀ hpos.ne', one_div]
    · have h : (den : ℚ) < 2 * k := by exact_mod_cast Nat.compare_eq_gt.1 hc
      have hhalf : 1 / 2 < (k : ℚ) / den := by rw [div_lt_div_iff₀ two_pos hd]; linarith
      have hone : (k : ℚ) / den < 1 := (div_lt_one hd).2 hhigh
      simp only [StandsFor, ExtendedMantissa.ofMantissaAndAccuracy]
      constructor <;> linarith

end StandsFor

/-! ## Rounding to a double -/

/-- The exponent of the grid of doubles around a positive fraction. -/
def gridExponent (q : ℚ) : ℤ := max (Int.log 2 q - 52) (-1074)

/-- A mantissa on a grid. One of a further bit goes over to the next grid. -/
def ofGrid (n : Nat) (g : ℤ) : UnpackedFloat :=
  if h : n = 0 then .zero .positive
  else if n = 2 ^ 53 then .finite .positive (2 ^ 52) (g + 1) (by decide)
  else .finite .positive n g (Nat.pos_of_ne_zero h)

/-- The double nearest to a fraction that is not negative, of two equally near the one with the even
mantissa. -/
def nearest (q : ℚ) : UnpackedFloat := ofGrid (halfEven (q / 2 ^ gridExponent q)) (gridExponent q)

theorem log_eq {q : ℚ} {m : Nat} {e : ℤ} (hm : m ≠ 0) (hlow : m * 2 ^ e ≤ q)
    (hhigh : q < (m + 1) * 2 ^ e) : Int.log 2 q = m.log2 + e := by
  have he : (0 : ℚ) < 2 ^ e := by positivity
  have hq : 0 < q := lt_of_lt_of_le (by positivity) hlow
  have hbelow : (2 : ℚ) ^ (m.log2 + e) ≤ q := by
    rw [zpow_add₀ two_ne_zero, zpow_natCast]
    refine le_trans (mul_le_mul_of_nonneg_right ?_ he.le) hlow
    exact_mod_cast Nat.log2_self_le hm
  have habove : q < (2 : ℚ) ^ (m.log2 + 1 + e) := by
    have hsucc : (m : ℚ) + 1 ≤ 2 ^ (m.log2 + 1) := by exact_mod_cast Nat.lt_log2_self
    rw [zpow_add₀ two_ne_zero]
    refine lt_of_lt_of_le hhigh (mul_le_mul_of_nonneg_right ?_ he.le)
    exact_mod_cast hsucc
  have h1 := (Int.zpow_le_iff_le_log Nat.one_lt_two hq).1 (by exact_mod_cast hbelow)
  have h2 := (Int.lt_zpow_iff_log_lt Nat.one_lt_two hq).1 (by exact_mod_cast habove)
  omega

theorem targetExponent_eq (m : Nat) (e : ℤ) :
    Format.binary64.targetExponent (totalExponent m e) = max (m.log2 + e - 52) (-1074) := by
  change max ((m.log2 : ℤ) + 1 + e - 53) (-1074) = _
  omega

/-- The mantissa and the exponent that stand for a fraction on a grid no coarser than its own have
the target exponent of that grid. -/
theorem targetExponent_eq_gridExponent {q : ℚ} {m : Nat} {e : ℤ} (hq : 0 < q)
    (hlow : m * 2 ^ e ≤ q) (hhigh : q < (m + 1) * 2 ^ e) (he : e ≤ gridExponent q) :
    Format.binary64.targetExponent (totalExponent m e) = gridExponent q := by
  rw [targetExponent_eq]
  rcases Nat.eq_zero_or_pos m with rfl | hm
  · rw [Nat.cast_zero, zero_add, one_mul] at hhigh
    have hlog := (Int.lt_zpow_iff_log_lt Nat.one_lt_two hq).1 (by exact_mod_cast hhigh)
    have hzero : (Nat.log2 0 : ℤ) = 0 := rfl
    rw [gridExponent] at he ⊢
    omega
  · rw [gridExponent, log_eq hm.ne' hlow hhigh]

/-- Shifting once more only carries a mantissa of a further bit over. -/
theorem finite_eq_ofGrid {n : Nat} {g : ℤ} (hn : n ≤ 2 ^ 53) (hg : -1074 ≤ g) :
    (let s := shiftToTargetExponent Format.binary64 n g .exact
      if h : s.1.mantissa = 0 then .zero .positive
      else .finite .positive s.1.mantissa s.2 (Nat.pos_of_ne_zero h)) = ofGrid n g := by
  rw [shiftToTargetExponent, targetExponent_eq, shiftToExponent, ofGrid]
  by_cases htop : n = 2 ^ 53
  · subst htop
    have hshift : (max (((2 ^ 53 : Nat).log2 : ℤ) + g - 52) (-1074) - g).toNat = 1 := by
      rw [Nat.log2_two_pow]
      omega
    rw [hshift]
    rfl
  · have hlog : n.log2 ≤ 52 := by
      rcases Nat.eq_zero_or_pos n with rfl | hpos
      · decide
      · exact Nat.le_of_lt_succ ((Nat.log2_lt hpos.ne').2 (by omega))
    have hshift : (max ((n.log2 : ℤ) + g - 52) (-1074) - g).toNat = 0 := by omega
    simp only [hshift, if_neg htop, Nat.cast_zero, add_zero]
    rfl

theorem lt_of_gridExponent (q : ℚ) : q < 2 ^ (53 + gridExponent q) := by
  have h := Int.lt_zpow_succ_log_self Nat.one_lt_two q
  refine lt_of_lt_of_le h ?_
  rw [Nat.cast_ofNat]
  refine zpow_le_zpow_right₀ one_le_two ?_
  rw [gridExponent]
  omega

theorem halfEven_grid_le {q : ℚ} (hq : 0 < q) : halfEven (q / 2 ^ gridExponent q) ≤ 2 ^ 53 := by
  have he : (0 : ℚ) < 2 ^ gridExponent q := by positivity
  have h := lt_of_gridExponent q
  rw [zpow_add₀ two_ne_zero, ← div_lt_iff₀ he] at h
  refine halfEven_le (div_pos hq he).le (h.trans ?_)
  norm_num

/-- What the mantissa and its accuracy stand for is rounded to the nearest double. -/
theorem roundWithAccuracy_eq {q : ℚ} {m : Nat} {e : ℤ} {acc : Accuracy} (hq : 0 < q)
    (h : StandsFor (.ofMantissaAndAccuracy m acc) (q / 2 ^ e)) (he : e ≤ gridExponent q) :
    roundWithAccuracy Format.binary64 .positive m e acc = nearest q := by
  have hpos : (0 : ℚ) < 2 ^ e := by positivity
  have hmantissa : (ExtendedMantissa.ofMantissaAndAccuracy m acc).mantissa = m := by
    rcases acc with _ | _ | _ | _ <;> rfl
  have hlow := h.le
  have hhigh := h.lt
  rw [hmantissa, le_div_iff₀ hpos] at hlow
  rw [hmantissa, div_lt_iff₀ hpos] at hhigh
  -- The first shift ends on the grid of the fraction.
  have hgrid : e + (gridExponent q - e).toNat = gridExponent q := by omega
  have hround : (ExtendedMantissa.ofMantissaAndAccuracy m acc >>>
      (gridExponent q - e).toNat).roundedMantissa = halfEven (q / 2 ^ gridExponent q) := by
    rw [(h.shiftRight _).roundedMantissa, div_div, ← zpow_natCast, ← zpow_add₀ two_ne_zero, hgrid]
  have hfirst : shiftToTargetExponent Format.binary64 m e acc =
      (ExtendedMantissa.ofMantissaAndAccuracy m acc >>> (gridExponent q - e).toNat,
        gridExponent q) := by
    rw [shiftToTargetExponent, targetExponent_eq_gridExponent hq hlow hhigh he, shiftToExponent,
      hgrid]
  have hrounded := finite_eq_ofGrid (halfEven_grid_le hq) (le_max_right (Int.log 2 q - 52) (-1074))
  rw [← hround] at hrounded
  rw [roundWithAccuracy, hfirst, nearest, ← hround]
  exact hrounded

end ComplexCalc.Double
