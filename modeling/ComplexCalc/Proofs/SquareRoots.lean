import ComplexCalc.Proofs.EqualNumbers
import ComplexCalc.Proofs.RoundedBounds
/-!
# Square roots

The root of a double is computed as the integer root of a shifted mantissa with residual bits, and
rounded once. Powers of two bound it as they bound the exact root.
-/
namespace ComplexCalc.Double

open Float.Model Float.Model.UnpackedFloat

/-! ## Roots of mantissas -/

/-- How the root of an integer, rounded down, relates to the exact root. -/
def rootAccuracy (n : Nat) : Accuracy :=
  if n - n.sqrt * n.sqrt = 0 then .exact
  else .inexact (if n - n.sqrt * n.sqrt ≤ n.sqrt then .lt else .gt)

/-- The integer root with its accuracy stands for a fraction that lies among the integers as the exact
root does. -/
theorem exists_root (n : Nat) : ∃ r : ℚ,
    StandsFor (.ofMantissaAndAccuracy n.sqrt (rootAccuracy n)) r ∧
      ∀ k : Nat, (k * k ≤ n → (k : ℚ) ≤ r) ∧ (n ≤ k * k → r ≤ k) := by
  have hbelow : ∀ k : Nat, k * k ≤ n → (k : ℚ) ≤ n.sqrt := fun k hk => by
    exact_mod_cast Nat.le_sqrt.2 hk
  unfold rootAccuracy
  split
  · rename_i hexact
    refine ⟨n.sqrt, .exact _, fun k => ⟨hbelow k, fun hk => ?_⟩⟩
    have hsquare : n.sqrt * n.sqrt ≤ k * k := (Nat.sqrt_le n).trans hk
    exact_mod_cast Nat.mul_self_le_mul_self_iff.1 hsquare
  · rename_i hinexact
    -- Between two integers, a square above the integer is that of the upper one at least.
    have habove : ∀ k : Nat, n ≤ k * k → (n.sqrt : ℚ) + 1 ≤ k := fun k hk => by
      have hlt : n.sqrt * n.sqrt < k * k := by omega
      exact_mod_cast Nat.mul_self_lt_mul_self_iff.1 hlt
    have hstands : ∃ r : ℚ, n.sqrt ≤ r ∧ r ≤ n.sqrt + 1 ∧ StandsFor (.ofMantissaAndAccuracy n.sqrt
        (.inexact (if n - n.sqrt * n.sqrt ≤ n.sqrt then .lt else .gt))) r := by
      split
      · refine ⟨n.sqrt + 1 / 4, by linarith, by linarith, ?_⟩
        constructor <;> simp only [ExtendedMantissa.ofMantissaAndAccuracy] <;> linarith
      · refine ⟨n.sqrt + 3 / 4, by linarith, by linarith, ?_⟩
        constructor <;> simp only [ExtendedMantissa.ofMantissaAndAccuracy] <;> linarith
    obtain ⟨r, hlow, hhigh, hr⟩ := hstands
    exact ⟨r, hr, fun k => ⟨fun hk => (hbelow k hk).trans hlow, fun hk => hhigh.trans (habove k hk)⟩⟩

/-- The exponent of the grid on which the root of a double is computed. -/
def rootExponent (m : Nat) (e : ℤ) : ℤ :=
  min (e.ediv 2) (Format.binary64.targetExponent ((totalExponent m e + 1).ediv 2))

/-- The mantissa of a double, moved to the grid of the squares. -/
def squareMantissa (m : Nat) (e : ℤ) : Nat := m <<< (e - 2 * rootExponent m e).toNat

section Grid
variable {m : Nat} {e : ℤ}

theorem two_mul_rootExponent_le : 2 * rootExponent m e ≤ e := by
  have hhalf : rootExponent m e ≤ e / 2 := min_le_left _ _
  omega

theorem squareMantissa_value : (squareMantissa m e : ℚ) * 2 ^ (2 * rootExponent m e) = m * 2 ^ e := by
  have hle : 2 * rootExponent m e ≤ e := two_mul_rootExponent_le
  have hshift : ((e - 2 * rootExponent m e).toNat : ℤ) = e - 2 * rootExponent m e := by omega
  rw [squareMantissa, Nat.shiftLeft_eq, Nat.cast_mul, Nat.cast_pow, Nat.cast_ofNat, ← zpow_natCast, hshift,
    mul_assoc, ← zpow_add₀ two_ne_zero, sub_add_cancel]

theorem squareMantissa_pos (hm : 0 < m) : 0 < squareMantissa m e := by
  rw [squareMantissa, Nat.shiftLeft_eq]
  positivity

/-- Above the least grid, the root has all bits of a mantissa. -/
theorem le_squareMantissa (hm : 0 < m) (h : -1074 < rootExponent m e) : 2 ^ 104 ≤ squareMantissa m e := by
  have htarget : Format.binary64.targetExponent ((totalExponent m e + 1).ediv 2) =
      max ((m.log2 + 1 + e + 1) / 2 - 53) (-1074) := rfl
  have hgrid : rootExponent m e ≤ max ((m.log2 + 1 + e + 1) / 2 - 53) (-1074) :=
    htarget ▸ min_le_right _ _
  have hle : 2 * rootExponent m e ≤ e := two_mul_rootExponent_le
  have hbits : 104 ≤ m.log2 + (e - 2 * rootExponent m e).toNat := by omega
  calc 2 ^ 104 ≤ 2 ^ (m.log2 + (e - 2 * rootExponent m e).toNat) := Nat.pow_le_pow_right two_pos hbits
    _ = 2 ^ m.log2 * 2 ^ (e - 2 * rootExponent m e).toNat := pow_add _ _ _
    _ ≤ m * 2 ^ (e - 2 * rootExponent m e).toNat := Nat.mul_le_mul_right _ (Nat.log2_self_le hm.ne')
    _ = squareMantissa m e := by rw [squareMantissa, Nat.shiftLeft_eq]

/-- A fraction lies among the powers of two as the root of the mantissa on its grid does. -/
theorem root_bounds {r : ℚ} (hm : 0 < m) (hr : ∀ k : Nat,
    (k * k ≤ squareMantissa m e → (k : ℚ) ≤ r) ∧ (squareMantissa m e ≤ k * k → r ≤ k)) (j : ℤ) :
    (2 ^ (2 * j) ≤ (m : ℚ) * 2 ^ e → 2 ^ j ≤ r * 2 ^ rootExponent m e) ∧
      ((m : ℚ) * 2 ^ e ≤ 2 ^ (2 * j) → r * 2 ^ rootExponent m e ≤ 2 ^ j) := by
  have hg : (0 : ℚ) < 2 ^ rootExponent m e := by positivity
  have hg' : (0 : ℚ) < 2 ^ (2 * rootExponent m e) := by positivity
  have hpos := squareMantissa_pos (e := e) hm
  rw [← squareMantissa_value]
  generalize rootExponent m e = g at *
  generalize squareMantissa m e = n at *
  rcases le_or_gt g j with hle | hlt
  · obtain ⟨d, rfl⟩ : ∃ d : Nat, j = d + g := ⟨(j - g).toNat, by omega⟩
    have hsquare : (2 : ℚ) ^ (2 * (d + g)) = (2 ^ d * 2 ^ d : Nat) * 2 ^ (2 * g) := by
      rw [mul_add, zpow_add₀ two_ne_zero, two_mul (d : ℤ), zpow_add₀ two_ne_zero, zpow_natCast]
      push_cast
      rfl
    have hroot : (2 : ℚ) ^ (d + g) = (2 ^ d : Nat) * 2 ^ g := by
      rw [zpow_add₀ two_ne_zero, zpow_natCast]
      push_cast
      rfl
    rw [hsquare, hroot, mul_le_mul_iff_left₀ hg', mul_le_mul_iff_left₀ hg', mul_le_mul_iff_left₀ hg,
      mul_le_mul_iff_left₀ hg]
    exact ⟨fun h => (hr (2 ^ d)).1 (by exact_mod_cast h), fun h => (hr (2 ^ d)).2 (by exact_mod_cast h)⟩
  · have hone : (1 : ℚ) ≤ r := by exact_mod_cast (hr 1).1 hpos
    have hn : (1 : ℚ) ≤ n := by exact_mod_cast hpos
    refine ⟨fun _ => ?_, fun h => absurd h (not_le.2 ?_)⟩
    · calc (2 : ℚ) ^ j ≤ 2 ^ g := zpow_le_zpow_right₀ one_le_two hlt.le
        _ ≤ r * 2 ^ g := le_mul_of_one_le_left hg.le hone
    · calc (2 : ℚ) ^ (2 * j) < 2 ^ (2 * g) := zpow_lt_zpow_right₀ one_lt_two (by omega)
        _ ≤ n * 2 ^ (2 * g) := le_mul_of_one_le_left hg'.le hn

end Grid

/-! ## Roots of doubles -/

section Sqrt
variable {x : Float} {v : ℚ}

/-- The root of a double is rounded from a fraction that lies among the powers of two as the exact root
does. -/
theorem Is.sqrt (h : Is x v) : ∃ q, 0 < q ∧ x.sqrt = ofRat q ∧
    ∀ j : ℤ, (2 ^ (2 * j) ≤ v → 2 ^ j ≤ q) ∧ (v ≤ 2 ^ (2 * j) → q ≤ 2 ^ j) := by
  obtain ⟨m, e, hcanonical, hx, rfl⟩ := h
  have hm := hcanonical.pos
  obtain ⟨r, hstands, hr⟩ := exists_root (squareMantissa m e)
  have hone : (1 : ℚ) ≤ r := by exact_mod_cast (hr 1).1 (squareMantissa_pos hm)
  have hg : (0 : ℚ) < 2 ^ rootExponent m e := by positivity
  have hq : 0 < r * 2 ^ rootExponent m e := by positivity
  have hgrid : rootExponent m e ≤ gridExponent (r * 2 ^ rootExponent m e) := by
    rcases le_or_gt (rootExponent m e) (-1074) with hlow | hhigh
    · exact hlow.trans (le_max_right _ _)
    · have hfull : (2 : ℚ) ^ 52 ≤ r := by exact_mod_cast (hr (2 ^ 52)).1 (le_squareMantissa hm hhigh)
      have hlog : 52 + rootExponent m e ≤ Int.log 2 (r * 2 ^ rootExponent m e) := by
        refine (Int.zpow_le_iff_le_log Nat.one_lt_two hq).1 ?_
        rw [Nat.cast_ofNat, zpow_add₀ two_ne_zero]
        exact mul_le_mul_of_nonneg_right (by exact_mod_cast hfull) hg.le
      rw [gridExponent]
      omega
  refine ⟨r * 2 ^ rootExponent m e, hq, ?_, root_bounds hm hr⟩
  have hsqrt : x.sqrt = Float.ofModel (Float.Model.pack (roundWithAccuracy .binary64 .positive
      (squareMantissa m e).sqrt (rootExponent m e) (rootAccuracy (squareMantissa m e)))) := by
    have hunfold : x.sqrt = Float.ofModel (Float.Model.pack
      (UnpackedFloat.sqrt .binary64 x.toModel.unpack)) := rfl
    rw [hunfold, hx]
    rfl
  rw [hsqrt, roundWithAccuracy_eq hq _ hgrid, ofRat]
  rw [mul_div_cancel_right₀ _ hg.ne']
  exact hstands

/-- A bound that is a power of two goes through the root. -/
theorem AtLeast.sqrt {j : ℤ} (h : AtLeast (2 ^ (2 * j)) x) (hj : IsDouble (2 ^ j)) :
    AtLeast (2 ^ j) x.sqrt := by
  rcases h with rfl | ⟨v, hv, hle⟩
  · exact .inl rfl
  · obtain ⟨q, hq, hsqrt, hbounds⟩ := (hv.is ((by positivity : (0 : ℚ) < 2 ^ (2 * j)).trans_le hle)).sqrt
    rw [hsqrt]
    exact .of_ofRat hq.le hj ((hbounds j).1 hle)

theorem Measures.sqrt_le {j : ℤ} (h : Measures x v) (hj : IsDouble (2 ^ j)) (hle : v ≤ 2 ^ (2 * j)) :
    ∃ w, Measures x.sqrt w ∧ w ≤ 2 ^ j := by
  rcases h.eq_zero_or_is with ⟨rfl, -⟩ | his
  · exact ⟨0, ⟨rfl, rfl⟩, by positivity⟩
  · obtain ⟨q, hq, hsqrt, hbounds⟩ := his.sqrt
    rw [hsqrt]
    exact ofRat_le hq.le hj ((hbounds j).2 hle)

theorem isDouble_two_pow {j : ℤ} (hlow : -1022 ≤ j) (hhigh : j ≤ 971) : IsDouble (2 ^ j) := by
  have h := isDouble_grid (n := 1) (by norm_num) hlow hhigh
  rwa [Nat.cast_one, one_mul] at h

/-- The root of a finite double is finite. -/
theorem Measures.sqrt (h : Measures x v) : ∃ w, Measures x.sqrt w := by
  have hpower : (2 : ℚ) ^ (2 * 512 : ℤ) = 2 ^ 1024 := zpow_natCast 2 1024
  have hle : v ≤ 2 ^ (2 * 512 : ℤ) := hpower ▸ h.isDouble.lt_two_pow.le
  obtain ⟨w, hw, -⟩ := h.sqrt_le (isDouble_two_pow (by norm_num) (by norm_num)) hle
  exact ⟨w, hw⟩

theorem is_two : Is 2.0 2 := is_of_value? rfl ((integer?_eq_some_iff (n := 2)).1 rfl) two_ne_zero

/-- What is finite vanishes over an infinity. -/
theorem Measures.div_infinity (h : Measures x v) : x / infinity = 0.0 := by
  rcases h.eq_zero_or_is with ⟨rfl, -⟩ | ⟨m, e, hm, hx, -⟩
  · rfl
  · rw [div_eq_ofModel, hx]
    rfl

end Sqrt

/-! ## The modulus -/

section Modulus
variable {x s : Float} {a c : ℚ}

/-- The square of a scaled component. -/
theorem square_quotient (hx : value? x = some a) (hs : Is s c) (hle : |a| ≤ c) :
    ∃ w, Measures (x / s * (x / s)) w ∧ w ≤ 1 ∧ (|a| = c → w = 1) := by
  have habs : x / s * (x / s) = x.abs / s * (x.abs / s) := by
    rcases hsign : isNegative x with _ | _
    · rw [abs_of_not_negative hsign]
    · rw [abs_of_negative hsign, opposite_div, opposite_mul_opposite]
  have hx := Measures.abs hx
  rw [habs]
  rcases eq_or_ne |a| c with heq | hne
  · have hone : x.abs / s = 1.0 := by
      rw [hx.eq (heq ▸ hs.measures), hs.div_self_eq_one]
    rw [hone, is_one.measures.mul is_one.measures, mul_one]
    exact ⟨1, is_one.ofRat_eq.symm ▸ is_one.measures, le_rfl, fun _ => rfl⟩
  · obtain ⟨w, hw, hw1⟩ := ofRat_le (div_nonneg hx.nonneg hs.pos.le) isDouble_one
      ((div_le_one hs.pos).2 hle)
    rw [hx.div hs, hw.mul hw]
    obtain ⟨w', hw', hw1'⟩ := ofRat_le (mul_nonneg hw.nonneg hw.nonneg) isDouble_one
      (mul_le_one₀ hw1 hw.nonneg hw1)
    exact ⟨w', hw', hw1', fun h => absurd h hne⟩

end Modulus

end ComplexCalc.Double

namespace ComplexCalc.Number

open Double

variable {z : Number} {a b : ℚ}

/-- The modulus is the larger component times a root between one and two. -/
theorem abs_eq_mul (ha : value? z.re = some a) (hb : value? z.im = some b) (hne : 0 < max |a| |b|) :
    ∃ s root r, Is s (max |a| |b|) ∧ Measures root r ∧ 1 ≤ r ∧ r ≤ 2 ∧ z.abs = s * root := by
  have hs := (measures_larger (Measures.abs ha) (Measures.abs hb)).is hne
  obtain ⟨u, hu, hu1, hu'⟩ := square_quotient ha hs (le_max_left _ _)
  obtain ⟨v, hv, hv1, hv'⟩ := square_quotient hb hs (le_max_right _ _)
  have hone : 1 ≤ u + v := by
    rcases max_choice |a| |b| with h | h
    · linarith [hu' h.symm, hv.nonneg]
    · linarith [hv' h.symm, hu.nonneg]
  have htwo : IsDouble 2 := isDouble_two_pow (j := 1) (by norm_num) (by norm_num)
  obtain ⟨w, hw, hw1, hw2⟩ := ofRat_between isDouble_one htwo zero_le_one hone (by linarith)
  obtain ⟨q, hq, hsqrt, hbounds⟩ := (hw.is (one_pos.trans_le hw1)).sqrt
  obtain ⟨r, hr, hr1, hr2⟩ := ofRat_between isDouble_one htwo zero_le_one
    ((hbounds 0).1 (by simpa using hw1)) ((hbounds 1).2 (hw2.trans (by norm_num)))
  refine ⟨_, _, r, hs, hr, hr1, hr2, ?_⟩
  rw [← hsqrt, ← hu.add hv]
  have hfinite : (z.re.isInf || z.im.isInf) = false := by
    rw [isInf_of_value? ha, isInf_of_value? hb]
    rfl
  have hscale : (larger z.re.abs z.im.abs == 0.0) = false :=
    (ne_zero_iff_value? hs.value?).2 hne.ne'
  unfold Number.abs
  simp only [hfinite, hscale, Bool.false_eq_true, if_false]

theorem isDouble_max (ha : value? z.re = some a) (hb : value? z.im = some b) : IsDouble (max |a| |b|) :=
  (measures_larger (Measures.abs ha) (Measures.abs hb)).isDouble

/-- The modulus is not below the larger component. -/
theorem le_abs (ha : value? z.re = some a) (hb : value? z.im = some b) (hne : 0 < max |a| |b|) :
    AtLeast (max |a| |b|) z.abs := by
  obtain ⟨s, root, r, hs, hroot, hr1, -, habs⟩ := abs_eq_mul ha hb hne
  rw [habs]
  exact .mul hs (.inr ⟨r, hroot, hr1⟩) (isDouble_max ha hb) (mul_one _).ge

/-- Small multiples of a large power of two are doubles. -/
theorem isDouble_large {n : Nat} (hn : n < 8) : IsDouble (n * 2 ^ (1021 : ℤ)) := by
  have hgrid := isDouble_grid (n := n * 2 ^ 50) (g := 971) (by omega) (by norm_num) (by norm_num)
  have hpower : (2 : ℚ) ^ (1021 : ℤ) = 2 ^ (50 : ℤ) * 2 ^ (971 : ℤ) := (zpow_add₀ two_ne_zero 50 971)
  rw [hpower, ← mul_assoc]
  exact_mod_cast hgrid

/-! ## The root -/

/-- What the root of a number is taken from, unless the number is imaginary. -/
def radicand (z : Number) : Float := 2.0 * (z.abs + z.re.abs)

theorem le_radicand (ha : value? z.re = some a) (hb : value? z.im = some b) (hne : 0 < max |a| |b|) :
    AtLeast (max |a| |b|) z.radicand := by
  have hdouble := isDouble_max ha hb
  exact .mul is_two ((le_abs ha hb hne).add hdouble (.abs ha)) hdouble (by linarith)

/-- The radicand does not overflow unless a component is among the largest doubles. -/
theorem isFinite_radicand (ha : value? z.re = some a) (hb : value? z.im = some b)
    (hne : 0 < max |a| |b|) (ha' : |a| ≤ 2 ^ (1021 : ℤ)) (hb' : |b| ≤ 2 ^ (1021 : ℤ)) :
    z.radicand.isFinite = true := by
  obtain ⟨s, root, r, hs, hroot, -, hr2, habs⟩ := abs_eq_mul ha hb hne
  have hmax : max |a| |b| ≤ 2 ^ (1021 : ℤ) := max_le ha' hb'
  have h2 := isDouble_large (n := 2) (by norm_num)
  have h3 := isDouble_large (n := 3) (by norm_num)
  have h6 := isDouble_large (n := 6) (by norm_num)
  have hpos : (0 : ℚ) < 2 ^ (1021 : ℤ) := by positivity
  unfold radicand
  rw [habs, hs.measures.mul hroot]
  generalize (2 : ℚ) ^ (1021 : ℤ) = p at *
  push_cast at h2 h3 h6
  obtain ⟨u, hu, hu2⟩ := ofRat_le (mul_nonneg hne.le hroot.nonneg) h2 (by nlinarith [hroot.nonneg])
  rw [hu.add (.abs ha)]
  obtain ⟨v, hv, hv3⟩ := ofRat_le (add_nonneg hu.nonneg (abs_nonneg a)) h3 (by linarith)
  rw [is_two.measures.mul hv]
  obtain ⟨w, hw, -⟩ := ofRat_le (mul_nonneg zero_le_two hv.nonneg) h6 (by linarith)
  exact hw.isFinite

section Root
variable (ha : value? z.re = some a) (hb : value? z.im = some b) (hne : a ≠ 0)
include hne

theorem max_pos : 0 < max |a| |b| := lt_max_of_lt_left (abs_pos.2 hne)

include ha

theorem smallest_le_abs : 2 ^ (-1074 : ℤ) ≤ |a| := (is_abs ha hne).smallest_le

include hb

theorem le_sqrt_radicand : AtLeast (2 ^ (-537 : ℤ)) z.radicand.sqrt := by
  have hle := (le_radicand ha hb (max_pos hne)).mono
    ((smallest_le_abs ha hne).trans (le_max_left _ _))
  exact AtLeast.sqrt (j := -537) hle (isDouble_two_pow (by norm_num) (by norm_num))

/-- The larger component of the root, which is half the root of the radicand, is not zero. -/
theorem le_half_sqrt_radicand : AtLeast (2 ^ (-538 : ℤ)) (z.radicand.sqrt / 2.0) := by
  refine (le_sqrt_radicand ha hb hne).div is_two (isDouble_two_pow (by norm_num) (by norm_num)) (le_of_eq ?_)
  rw [eq_div_iff two_ne_zero, ← zpow_add_one₀ two_ne_zero]
  rfl

theorem isFinite_half_sqrt_radicand :
    (z.radicand.sqrt / 2.0).isFinite = true ↔ z.radicand.isFinite = true := by
  have hradicand := le_radicand ha hb (max_pos hne)
  by_cases hfinite : z.radicand.isFinite = true
  · refine iff_of_true ?_ hfinite
    obtain ⟨v, hv, -⟩ := hradicand.measures hfinite
    obtain ⟨w, hw⟩ := hv.sqrt
    rw [hw.div is_two]
    obtain ⟨u, hu, -⟩ := ofRat_le (div_nonneg hw.nonneg zero_le_two) hw.isDouble
      (half_le_self hw.nonneg)
    exact hu.isFinite
  · refine iff_of_false ?_ hfinite
    rw [hradicand.eq_infinity hfinite]
    decide

/-- The smaller component of the root is always finite. -/
theorem measures_quotient : ∃ w, Measures (z.im.abs / z.radicand.sqrt) w := by
  have him := Measures.abs hb
  rcases le_sqrt_radicand ha hb hne with hinfinity | ⟨t, ht, hle⟩
  · rw [hinfinity, him.div_infinity]
    exact ⟨0, .zero⟩
  have hpos : (0 : ℚ) < t := (by positivity : (0 : ℚ) < 2 ^ (-537 : ℤ)).trans_le hle
  have hquotient : 0 ≤ |b| / t := div_nonneg (abs_nonneg b) hpos.le
  rw [him.div (ht.is hpos)]
  rcases le_or_gt 1 |b| with hlarge | hsmall
  · have hone : AtLeast (2 ^ (0 : ℤ)) z.radicand.sqrt := by
      refine AtLeast.sqrt ((le_radicand ha hb (max_pos hne)).mono ?_) isDouble_one
      simpa using hlarge.trans (le_max_right |a| |b|)
    obtain ⟨t', ht', hone⟩ := hone.measures ht.isFinite
    cases Option.some_inj.1 (ht.value.symm.trans ht'.value)
    obtain ⟨w, hw, -⟩ := ofRat_le hquotient him.isDouble (div_le_self (abs_nonneg b) (by simpa using hone))
    exact ⟨w, hw⟩
  · have hbound : |b| / t ≤ 2 ^ (537 : ℤ) := by
      rw [div_le_iff₀ hpos]
      calc |b| ≤ 2 ^ (537 : ℤ) * 2 ^ (-537 : ℤ) := by
            rw [← zpow_add₀ two_ne_zero]
            exact hsmall.le
        _ ≤ 2 ^ (537 : ℤ) * t := mul_le_mul_of_nonneg_left hle (by positivity)
    obtain ⟨w, hw, -⟩ := ofRat_le hquotient (isDouble_two_pow (by norm_num) (by norm_num)) hbound
    exact ⟨w, hw⟩

end Root

/-! ### Imaginary numbers -/

/-- Half the smallest double lies in the middle between zero and this double, and zero is even. -/
theorem ofRat_half_smallest : ofRat (2 ^ (-1074 : ℤ) / 2) = 0.0 := by
  have hpower : (0 : ℚ) < 2 ^ (-1074 : ℤ) := by positivity
  have hlog : Int.log 2 ((2 : ℚ) ^ (-1074 : ℤ) / 2) < -1074 := by
    refine (Int.lt_zpow_iff_log_lt Nat.one_lt_two (half_pos hpower)).1 ?_
    rw [Nat.cast_ofNat]
    exact half_lt_self hpower
  have hgrid : gridExponent ((2 : ℚ) ^ (-1074 : ℤ) / 2) = -1074 := by
    rw [gridExponent]
    omega
  have hunits : (2 : ℚ) ^ (-1074 : ℤ) / 2 / 2 ^ (-1074 : ℤ) = 1 / 2 := by
    rw [div_right_comm, div_self hpower.ne']
  have hround : halfEven (1 / 2) = 0 := by
    rw [halfEven_of_floor (n := 0) (by norm_num) (by norm_num), if_pos (.inr ⟨by norm_num, rfl⟩)]
  rw [ofRat, nearest, hgrid, hunits, hround]
  rfl

/-- The root of an imaginary number takes half its absolute value, which vanishes at the smallest double. -/
theorem measures_sqrt_half (hb : value? z.im = some b) :
    ∃ w, Measures (z.im.abs / 2.0).sqrt w ∧ (w = 0 ↔ |b| ≤ 2 ^ (-1074 : ℤ)) := by
  have him := Measures.abs hb
  have hzero : Measures (Float.sqrt 0.0) 0 := ⟨rfl, rfl⟩
  rw [him.div is_two]
  rcases him.eq_zero_or_is with ⟨-, hb⟩ | his
  · rw [hb, zero_div, ofRat_eq_zero]
    exact ⟨0, hzero, iff_of_true rfl (by positivity)⟩
  rcases his.smallest_le.eq_or_lt with heq | hlt
  · rw [← heq, ofRat_half_smallest]
    exact ⟨0, hzero, iff_of_true rfl le_rfl⟩
  · have hhalf : 2 ^ (-1074 : ℤ) ≤ |b| / 2 := by linarith [his.two_mul_smallest_le hlt]
    obtain ⟨v, hv, hlow, -⟩ := ofRat_between isDouble_smallest him.isDouble (by positivity) hhalf
      (half_le_self (abs_nonneg b))
    obtain ⟨w, hw⟩ := hv.sqrt
    have hroot : AtLeast (2 ^ (-537 : ℤ)) (ofRat (|b| / 2)).sqrt :=
      AtLeast.sqrt (j := -537) (.inr ⟨v, hv, hlow⟩) (isDouble_two_pow (by norm_num) (by norm_num))
    have hne := (ne_zero_iff_value? hw.value).1 (hroot.ne_zero (by positivity))
    exact ⟨w, hw, iff_of_false hne hlt.not_ge⟩

/-! ### Both components -/

/-- The double is the other one with the sign of the fraction, apart from the sign of a zero. -/
def SignedAs (b : ℚ) (y p : Float) : Prop := (b < 0 → y = -p) ∧ (0 ≤ b → Double.Matches y p)

theorem SignedAs.isFinite_eq {y p : Float} (h : SignedAs b y p) : y.isFinite = p.isFinite := by
  rcases lt_or_ge b 0 with hneg | hpos
  · rw [h.1 hneg, isFinite_neg]
  · exact (h.2 hpos).isFinite_eq

theorem SignedAs.beq_zero_eq {y p : Float} (h : SignedAs b y p) : (y == 0.0) = (p == 0.0) := by
  rcases lt_or_ge b 0 with hneg | hpos
  · rw [h.1 hneg, beq_zero_neg]
  · exact (h.2 hpos).beq_left 0.0

theorem signedAs_ite (hb : value? z.im = some b) (p : Float) :
    SignedAs b (if z.im < 0.0 then -p else p) p := by
  have hlt : z.im < 0.0 ↔ b < 0 := lt_iff_of_value? hb rfl
  constructor
  · intro h
    rw [if_pos (hlt.2 h)]
  · intro h
    rw [if_neg fun hneg => h.not_gt (hlt.1 hneg)]

theorem signedAs_div (hb : value? z.im = some b) (t : Float) : SignedAs b (z.im / t) (z.im.abs / t) := by
  rcases hsign : isNegative z.im with _ | _
  · rw [abs_of_not_negative hsign]
    have hpositive : Measures z.im b := ⟨hsign, hb⟩
    exact ⟨fun h => absurd hpositive.nonneg h.not_ge, fun _ => .refl _⟩
  · have him : z.im.abs = -z.im := abs_of_negative hsign
    refine ⟨fun _ => by rw [him, opposite_div, opposite_opposite], fun h => ?_⟩
    have hopposite : |b| = -b := by
      have habs := (Measures.abs hb).value
      rw [him, value?_neg hb] at habs
      exact (Option.some_inj.1 habs).symm
    obtain rfl : b = 0 := le_antisymm (by linarith [abs_nonneg b]) h
    have hzero : (z.im.abs == 0.0) = true :=
      (beq_zero_iff_value? (Measures.abs hb).value).2 abs_zero
    exact (Double.Matches.of_zero ((beq_zero_iff_value? hb).2 rfl) hzero).div t

theorem sqrt_parts (ha : value? z.re = some a) (hb : value? z.im = some b) :
    ∃ p q, AtLeast 0 p ∧ AtLeast 0 q ∧ z.sqrt.re = p ∧ SignedAs b z.sqrt.im q ∧
      (p.isFinite = true ∧ q.isFinite = true ↔ a = 0 ∨ z.radicand.isFinite = true) ∧
      ((p == 0.0) = true ∧ (q == 0.0) = true ↔ a = 0 ∧ |b| ≤ 2 ^ (-1074 : ℤ)) := by
  rcases eq_or_ne a 0 with rfl | hne
  · obtain ⟨w, hw, hzero⟩ := measures_sqrt_half hb
    have hsqrt : z.sqrt = ⟨(z.im.abs / 2.0).sqrt,
        if z.im < 0.0 then -(z.im.abs / 2.0).sqrt else (z.im.abs / 2.0).sqrt⟩ :=
      if_pos ((beq_zero_iff_value? ha).2 rfl)
    have hleast : AtLeast 0 (z.im.abs / 2.0).sqrt := .inr ⟨w, hw, hw.nonneg⟩
    refine ⟨_, _, hleast, hleast, congrArg Number.re hsqrt, hsqrt ▸ signedAs_ite hb _, ?_, ?_⟩
    · exact iff_of_true ⟨hw.isFinite, hw.isFinite⟩ (.inl rfl)
    · rw [and_self, beq_zero_iff_value? hw.value, hzero]
      simp
  · have hre : (z.re == 0.0) = false := (ne_zero_iff_value? ha).2 hne
    have hlarge := le_half_sqrt_radicand ha hb hne
    have hfinite := isFinite_half_sqrt_radicand ha hb hne
    have hnonzero := hlarge.ne_zero (by positivity)
    obtain ⟨w, hw⟩ := measures_quotient ha hb hne
    have hsmall : AtLeast 0 (z.im.abs / z.radicand.sqrt) := .inr ⟨w, hw, hw.nonneg⟩
    have hlarge : AtLeast 0 (z.radicand.sqrt / 2.0) := hlarge.mono (by positivity)
    have hsqrt : z.sqrt = if z.re > 0.0 then ⟨z.radicand.sqrt / 2.0, z.im / z.radicand.sqrt⟩
        else ⟨z.im.abs / z.radicand.sqrt,
          if z.im < 0.0 then -(z.radicand.sqrt / 2.0) else z.radicand.sqrt / 2.0⟩ :=
      if_neg (Bool.eq_false_iff.1 hre)
    rw [hsqrt]
    split
    · refine ⟨_, _, hlarge, hsmall, rfl, signedAs_div hb _, ?_, ?_⟩
      · rw [hfinite, or_iff_right hne]
        exact and_iff_left hw.isFinite
      · rw [hnonzero]
        exact iff_of_false (fun h => Bool.false_ne_true h.1) fun h => hne h.1
    · refine ⟨_, _, hsmall, hlarge, rfl, signedAs_ite hb _, ?_, ?_⟩
      · rw [hfinite, or_iff_right hne]
        exact and_iff_right hw.isFinite
      · rw [hnonzero]
        exact iff_of_false (fun h => Bool.false_ne_true h.2) fun h => hne h.1

end ComplexCalc.Number

namespace ComplexCalc

open Double

section Root
variable {z : Number} {a b : ℚ}

/-- The root of a finite number is principal: its real part is not negative, and its imaginary part is not
on the other side of the real axis than that of the number. It is finite unless the radicand overflows,
which needs a component beyond `2 ^ 1021`, and it is zero at zero and at the two imaginary numbers next to
zero only. -/
theorem sqrt_is_principal (ha : value? z.re = some a) (hb : value? z.im = some b) :
    0.0 ≤ z.sqrt.re ∧ (b < 0 → z.sqrt.im ≤ 0.0) ∧ (0 ≤ b → 0.0 ≤ z.sqrt.im) ∧
      (z.sqrt.re.isFinite = true ∧ z.sqrt.im.isFinite = true ↔ a = 0 ∨ z.radicand.isFinite = true) ∧
      (|a| ≤ 2 ^ (1021 : ℤ) → |b| ≤ 2 ^ (1021 : ℤ) → z.sqrt.re.isFinite = true ∧ z.sqrt.im.isFinite = true) ∧
      ((z.sqrt == .zero) = true ↔ a = 0 ∧ |b| ≤ 2 ^ (-1074 : ℤ)) := by
  obtain ⟨p, q, hp, hq, hre, him, hfinite, hzero⟩ := Number.sqrt_parts ha hb
  have hfinite : z.sqrt.re.isFinite = true ∧ z.sqrt.im.isFinite = true ↔
      a = 0 ∨ z.radicand.isFinite = true := by
    rw [hre, him.isFinite_eq]
    exact hfinite
  refine ⟨hre ▸ hp.zero_le, fun h => him.1 h ▸ hq.neg_le_zero, fun h => ?_, hfinite, fun ha' hb' => ?_, ?_⟩
  · exact ((him.2 h).le_right 0.0).2 hq.zero_le
  · refine hfinite.2 ((eq_or_ne a 0).imp_right fun hne => ?_)
    exact Number.isFinite_radicand ha hb (Number.max_pos hne) ha' hb'
  · have hbeq : (z.sqrt == .zero) = ((z.sqrt.re == 0.0) && (z.sqrt.im == 0.0)) := rfl
    rw [hbeq, hre, him.beq_zero_eq, Bool.and_eq_true_iff]
    exact hzero

theorem sqrt_is_principal_below_branch_cut :
    let z : Number := ⟨-4.0, -0.0⟩
    value? z.re = some (-4) ∧ value? z.im = some 0 ∧ 0.0 ≤ z.sqrt.im ∧ z.sqrt.re.isFinite = true ∧
      z.sqrt.im.isFinite = true := by
  intro z
  have hre : value? z.re = some (-4) := (integer?_eq_some_iff (n := -4)).1 (by decide)
  have him : value? z.im = some 0 := value?_of_zero (by decide)
  obtain ⟨-, -, hsign, -, hfinite, -⟩ := sqrt_is_principal hre him
  have hlarge : (4 : ℚ) ≤ 2 ^ (1021 : ℤ) := by
    calc (4 : ℚ) = 2 ^ (2 : ℤ) := by norm_num
      _ ≤ 2 ^ (1021 : ℤ) := zpow_le_zpow_right₀ one_le_two (by norm_num)
  refine ⟨hre, him, hsign le_rfl, hfinite ?_ ?_⟩
  · rw [abs_neg, abs_of_pos four_pos]
    exact hlarge
  · rw [abs_zero]
    positivity

/-- The radicand of a large number overflows although the root is a double, and half the smallest double
vanishes. -/
theorem sqrt_overflows_and_vanishes :
    (∃ z : Number, z.re.isFinite = true ∧ z.im.isFinite = true ∧ z.sqrt.re.isFinite = false) ∧
      ∃ z : Number, z.re.isFinite = true ∧ z.im.isFinite = true ∧ (z == .zero) = false ∧
        (z.sqrt == .zero) = true :=
  ⟨⟨⟨1e308, 0.0⟩, by decide +kernel⟩, ⟨⟨0.0, 5e-324⟩, by decide +kernel⟩⟩

end Root
end ComplexCalc
