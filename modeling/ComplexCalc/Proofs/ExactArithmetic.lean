import ComplexCalc.Number
import ComplexCalc.Proofs.NearestValue
import ComplexCalc.Proofs.ShortestDecimal
/-!
# Exact arithmetic

Sums, differences and products of doubles are rounded. Where the exact result is the value of a double,
there is nothing to round, and this double comes out. So doubles that are integers are added, subtracted
and multiplied exactly as long as the results do not exceed `2 ^ 53`.
-/
namespace ComplexCalc
namespace Double

open Float.Model Float.Model.UnpackedFloat

/-- The fraction is the value of a double. -/
def IsDouble (q : ℚ) : Prop := ∃ x, value? x = some q

/-- The fraction that a mantissa and an exponent stand for with a sign. -/
def signed (s : Sign) (m : Nat) (e : ℤ) : ℚ := (s.apply m : ℤ) * 2 ^ e

/-! ## Values -/

section Signed
variable {m : Nat} {e : ℤ}

theorem signed_pos : signed .positive m e = m * 2 ^ e := by simp [signed, Sign.apply]

theorem signed_neg : signed .negative m e = -signed .positive m e := by simp [signed, Sign.apply]

theorem signed_opposite (s : Sign) : signed (-s) m e = -signed s m e := by
  cases s with
  | positive => exact signed_neg
  | negative => rw [signed_neg, neg_neg]; rfl

theorem signed_positive (hm : 0 < m) : 0 < signed .positive m e := by
  rw [signed_pos]
  positivity

theorem signed_negative (hm : 0 < m) : signed .negative m e < 0 := by
  rw [signed_neg]
  exact neg_neg_of_pos (signed_positive hm)

end Signed

variable {x y : Float} {u v q : ℚ}

theorem cases_of_value? (h : value? x = some u) :
    (∃ s, x.toModel.unpack = .zero s ∧ u = 0) ∨
      ∃ s m e, ∃ hm : 0 < m, x.toModel.unpack = .finite s m e hm ∧ u = signed s m e := by
  unfold value? at h
  split at h
  · rename_i s hx
    cases h
    exact .inl ⟨s, hx, rfl⟩
  · rename_i m e hm hx
    cases h
    exact .inr ⟨.positive, m, e, hm, hx, signed_pos.symm⟩
  · rename_i m e hm hx
    cases h
    exact .inr ⟨.negative, m, e, hm, hx, by rw [signed_neg, signed_pos]⟩
  · cases h

theorem value?_of_unpack_finite {s : Sign} {m : Nat} {e : ℤ} {hm : 0 < m}
    (h : x.toModel.unpack = .finite s m e hm) : value? x = some (signed s m e) := by
  rw [value?, h]
  cases s with
  | positive => rw [signed_pos]
  | negative => rw [signed_neg, signed_pos]

theorem value?_of_unpack_zero {s : Sign} (h : x.toModel.unpack = .zero s) : value? x = some 0 := by
  rw [value?, h]

theorem value?_zero (s : Sign) : value? (Float.ofModel (Float.Model.pack (.zero s))) = some 0 := by
  cases s <;> exact value?_of_unpack_zero rfl

theorem unpack_neg_finite {s : Sign} {m : Nat} {e : ℤ} {hm : 0 < m}
    (h : x.toModel.unpack = .finite s m e hm) : (-x).toModel.unpack = .finite (-s) m e hm := by
  have hneg : (-x).toModel.unpack = (Float.Model.pack x.toModel.unpack.neg).unpack := rfl
  rw [hneg, h]
  exact (Canonical.of_unpack h).unpack_pack (-s)

/-- The opposite of a double is a double. -/
theorem value?_neg (h : value? x = some u) : value? (-x) = some (-u) := by
  rcases cases_of_value? h with ⟨s, hx, rfl⟩ | ⟨s, m, e, hm, hx, rfl⟩
  · have hneg : (-x).toModel.unpack = (Float.Model.pack x.toModel.unpack.neg).unpack := rfl
    rw [hx] at hneg
    rw [neg_zero]
    cases s <;> exact value?_of_unpack_zero hneg
  · rw [value?_of_unpack_finite (unpack_neg_finite hx), signed_opposite]

theorem IsDouble.neg (h : IsDouble q) : IsDouble (-q) := by
  obtain ⟨x, hx⟩ := h
  exact ⟨-x, value?_neg hx⟩

theorem Canonical.isDouble {m : Nat} {e : ℤ} (h : Canonical m e) : IsDouble (m * 2 ^ e) :=
  ⟨_, signed_pos ▸ value?_of_unpack_finite (h.unpack_pack .positive)⟩

theorem IsDouble.canonical (h : IsDouble q) (hq : 0 < q) :
    ∃ m e, Canonical m e ∧ (m : ℚ) * 2 ^ e = q := by
  obtain ⟨x, hx⟩ := h
  rcases cases_of_value? hx with ⟨s, -, rfl⟩ | ⟨s, m, e, hm, hunpack, rfl⟩
  · exact absurd hq (lt_irrefl 0)
  · refine ⟨m, e, .of_unpack hunpack, ?_⟩
    cases s with
    | positive => exact signed_pos.symm
    | negative => exact absurd hq (signed_negative hm).not_gt

/-! ## Comparisons -/

theorem Canonical.lt {m m' : Nat} {e e' : ℤ} (h : Canonical m e) (h' : Canonical m' e')
    (hlt : e < e' ∨ e = e' ∧ m < m') : (m : ℚ) * 2 ^ e < m' * 2 ^ e' := by
  rcases hlt with hlt | ⟨rfl, hlt⟩
  · -- A larger exponent is not the least one, so that the mantissa has its leading bit.
    have hnormal : 2 ^ 52 ≤ m' := h'.normal.resolve_right fun heq => by
      have := h.low
      omega
    have hm : (m : ℚ) < 2 ^ 53 := by exact_mod_cast h.mantissa
    have hm' : (2 : ℚ) ^ 52 ≤ m' := by exact_mod_cast hnormal
    calc (m : ℚ) * 2 ^ e < 2 ^ 53 * 2 ^ e := by gcongr
      _ = 2 ^ 52 * 2 ^ (1 + e) := by rw [zpow_add₀ two_ne_zero, zpow_one]; ring
      _ ≤ m' * 2 ^ e' := by
        gcongr
        · exact one_le_two
        · omega
  · have hm : (m : ℚ) < m' := by exact_mod_cast hlt
    gcongr

theorem Canonical.compare_eq {m m' : Nat} {e e' : ℤ} (h : Canonical m e) (h' : Canonical m' e') :
    (compare e e').then (compare m m') = compare ((m : ℚ) * 2 ^ e) (m' * 2 ^ e') := by
  rcases lt_trichotomy e e' with he | rfl | he
  · rw [compare_lt_iff_lt.2 he, compare_lt_iff_lt.2 (h.lt h' (.inl he))]
    rfl
  · rw [compare_eq_iff_eq.2 rfl]
    rcases lt_trichotomy m m' with hm | rfl | hm
    · rw [compare_lt_iff_lt.2 hm, compare_lt_iff_lt.2 (h.lt h' (.inr ⟨rfl, hm⟩))]
      rfl
    · rw [compare_eq_iff_eq.2 rfl, compare_eq_iff_eq.2 rfl]
      rfl
    · rw [compare_gt_iff_gt.2 hm, compare_gt_iff_gt.2 (h'.lt h (.inr ⟨rfl, hm⟩))]
      rfl
  · rw [compare_gt_iff_gt.2 he, compare_gt_iff_gt.2 (h'.lt h (.inl he))]
    rfl

theorem compare_neg_neg (u v : ℚ) : compare (-u) (-v) = (compare u v).swap := by
  rcases lt_trichotomy u v with h | rfl | h
  · rw [compare_lt_iff_lt.2 h, compare_gt_iff_gt.2 (neg_lt_neg h)]
    rfl
  · rw [compare_eq_iff_eq.2 rfl, compare_eq_iff_eq.2 rfl]
    rfl
  · rw [compare_gt_iff_gt.2 h, compare_lt_iff_lt.2 (neg_lt_neg h)]
    rfl

/-- Comparing doubles compares their values. -/
theorem compare_of_value? (hu : value? x = some u) (hv : value? y = some v) :
    x.toModel.unpack.compare y.toModel.unpack = some (compare u v) := by
  rcases cases_of_value? hu with ⟨s, hx, rfl⟩ | ⟨s, m, e, hm, hx, rfl⟩ <;>
    rcases cases_of_value? hv with ⟨t, hy, rfl⟩ | ⟨t, m', e', hm', hy, rfl⟩ <;> rw [hx, hy]
  · rw [compare_eq_iff_eq.2 rfl]
    rfl
  · cases t with
    | positive => exact congrArg some (compare_lt_iff_lt.2 (signed_positive hm')).symm
    | negative => exact congrArg some (compare_gt_iff_gt.2 (signed_negative hm')).symm
  · cases s with
    | positive => exact congrArg some (compare_gt_iff_gt.2 (signed_positive hm)).symm
    | negative => exact congrArg some (compare_lt_iff_lt.2 (signed_negative hm)).symm
  · have hcompare := (Canonical.of_unpack hx).compare_eq (Canonical.of_unpack hy)
    cases s <;> cases t
    · rw [signed_neg, signed_neg, compare_neg_neg, signed_pos, signed_pos, ← hcompare]
      rfl
    · exact congrArg some (compare_lt_iff_lt.2 ((signed_negative hm).trans (signed_positive hm'))).symm
    · exact congrArg some (compare_gt_iff_gt.2 ((signed_negative hm').trans (signed_positive hm))).symm
    · rw [signed_pos, signed_pos, ← hcompare]
      rfl

theorem lt_iff_of_value? (hx : value? x = some u) (hy : value? y = some v) : x < y ↔ u < v := by
  rw [lt_iff, compare_of_value? hx hy, Option.some_inj, compare_lt_iff_lt]

/-- Doubles of one value are equal. -/
theorem beq_of_value? (hx : value? x = some u) (hy : value? y = some u) : (x == y) = true := by
  have hbeq : (x == y) = (x.toModel.unpack.compare y.toModel.unpack == some .eq) := rfl
  rw [hbeq, compare_of_value? hx hy, compare_eq_iff_eq.2 rfl]
  rfl

/-! ## Rounding with a sign -/

/-- What is rounded, with a sign. -/
def withSign (s : Sign) (u : UnpackedFloat) : UnpackedFloat :=
  match s with
  | .positive => u
  | .negative => u.neg

theorem roundWithAccuracy_eq_withSign (s : Sign) (m : Nat) (e : ℤ) (acc : Accuracy) :
    roundWithAccuracy .binary64 s m e acc =
      withSign s (roundWithAccuracy .binary64 .positive m e acc) := by
  cases s with
  | positive => rfl
  | negative =>
    unfold roundWithAccuracy
    dsimp only
    split <;> rfl

theorem round_eq_withSign (s : Sign) {m : Nat} (hm : 0 < m) (e : ℤ) :
    round .binary64 s m e = withSign s (nearest (m * 2 ^ e)) := by
  rw [← round_finite hm]
  exact roundWithAccuracy_eq_withSign ..

section Exact
variable {m m' : Nat} {e e' : ℤ}

/-- A double is rounded to itself, with either sign. -/
theorem value?_withSign (hm : 0 < m) (h : IsDouble (m * 2 ^ e)) (s : Sign) :
    value? (Float.ofModel (Float.Model.pack (withSign s (nearest (m * 2 ^ e))))) =
      some (signed s m e) := by
  obtain ⟨k, g, hcanonical, hvalue⟩ := h.canonical (by positivity)
  have hnearest : nearest (m * 2 ^ e) = .finite .positive k g hcanonical.pos := by
    refine hcanonical.nearest_of_close ?_
    rw [hvalue, sub_self, abs_zero]
    positivity
  have hsigned : signed s m e = signed s k g := by
    cases s with
    | positive => rw [signed_pos, signed_pos, hvalue]
    | negative => rw [signed_neg, signed_neg, signed_pos, signed_pos, hvalue]
  have hwith : withSign s (.finite .positive k g hcanonical.pos) =
      .finite s k g hcanonical.pos := by cases s <;> rfl
  rw [hnearest, hwith, hsigned]
  exact value?_of_unpack_finite (hcanonical.unpack_pack s)

theorem isDouble_signed {s : Sign} (h : IsDouble (signed s m e)) : IsDouble (m * 2 ^ e) := by
  rw [← signed_pos]
  cases s with
  | positive => exact h
  | negative => exact neg_neg (signed .positive m e) ▸ (signed_neg ▸ h).neg

/-- An integer on a grid is rounded to itself if it is a double. -/
theorem value?_normalize {n : ℤ} (h : IsDouble ((n : ℚ) * 2 ^ e)) :
    value? (Float.ofModel (Float.Model.pack (UnpackedFloat.normalize .binary64 n e .positive))) =
      some ((n : ℚ) * 2 ^ e) := by
  rcases lt_trichotomy n 0 with hn | rfl | hn
  · obtain ⟨k, rfl⟩ : ∃ k : Nat, n = -k := ⟨n.natAbs, by omega⟩
    have hk : 0 < k := by omega
    have hsigned : ((-k : ℤ) : ℚ) * 2 ^ e = signed .negative k e := rfl
    rw [hsigned] at h ⊢
    rw [UnpackedFloat.normalize, compare_lt_iff_lt.2 hn, neg_neg, Int.toNat_natCast]
    dsimp only
    rw [round_eq_withSign _ hk]
    exact value?_withSign hk (isDouble_signed h) .negative
  · rw [UnpackedFloat.normalize, compare_eq_iff_eq.2 rfl, Int.cast_zero, zero_mul]
    exact value?_zero .positive
  · obtain ⟨k, rfl⟩ := Int.eq_ofNat_of_zero_le hn.le
    have hk : 0 < k := by omega
    have hsigned : ((k : ℤ) : ℚ) * 2 ^ e = signed .positive k e := rfl
    rw [hsigned] at h ⊢
    rw [UnpackedFloat.normalize, compare_gt_iff_gt.2 hn, Int.toNat_natCast]
    dsimp only
    rw [round_eq_withSign _ hk]
    exact value?_withSign hk (isDouble_signed h) .positive

/-! ## Operations -/

/-- A mantissa moved to a finer grid. -/
theorem signed_decreaseExponent (s : Sign) {g : ℤ} (hg : g ≤ e) :
    signed s (decreaseExponent m e g).1 g = signed s m e := by
  have hpositive : signed .positive (decreaseExponent m e g).1 g = signed .positive m e := by
    have hshift : ((e - g).toNat : ℤ) = e - g := by omega
    rw [signed_pos, signed_pos, decreaseExponent, Nat.shiftLeft_eq, Nat.cast_mul, Nat.cast_pow,
      Nat.cast_ofNat, ← zpow_natCast, hshift, mul_assoc, ← zpow_add₀ two_ne_zero, sub_add_cancel]
  cases s with
  | positive => exact hpositive
  | negative => rw [signed_neg, signed_neg, hpositive]

/-- A sum that is a double is computed exactly. -/
theorem value?_add (hx : value? x = some u) (hy : value? y = some v) (h : IsDouble (u + v)) :
    value? (x + y) = some (u + v) := by
  have hadd : x + y = Float.ofModel (Float.Model.pack
      (UnpackedFloat.add .binary64 x.toModel.unpack y.toModel.unpack)) := rfl
  rcases cases_of_value? hx with ⟨s, hxu, rfl⟩ | ⟨s, m, e, hm, hxu, rfl⟩ <;>
    rcases cases_of_value? hy with ⟨t, hyu, rfl⟩ | ⟨t, m', e', hm', hyu, rfl⟩
  · rw [hadd, hxu, hyu, add_zero]
    cases s <;> cases t <;> exact value?_zero _
  · rw [hadd, hxu, zero_add, hyu]
    exact (congrArg value? (ofModel_pack_of_eq hyu.symm)).trans hy
  · rw [hadd, hyu, add_zero, hxu]
    exact (congrArg value? (ofModel_pack_of_eq hxu.symm)).trans hx
  · -- The mantissas are added on the finer of the two grids.
    have hsum : signed s m e + signed t m' e' =
        ((s.apply (decreaseExponent m e (min e e')).1 +
          t.apply (decreaseExponent m' e' (min e e')).1 : ℤ) : ℚ) * 2 ^ min e e' := by
      rw [← signed_decreaseExponent s (min_le_left e e'),
        ← signed_decreaseExponent t (min_le_right e e'), signed, signed, Int.cast_add, add_mul]
    rw [hsum] at h ⊢
    rw [hadd, hxu, hyu]
    exact value?_normalize h

/-- A difference is the sum with the opposite. -/
theorem sub_eq_add (hy : value? y = some v) : x - y = x + -y := by
  have hunpack : (-y).toModel.unpack = y.toModel.unpack.neg := by
    rcases cases_of_value? hy with ⟨s, hy, -⟩ | ⟨s, m, e, hm, hy, -⟩
    · have hneg : (-y).toModel.unpack = (Float.Model.pack y.toModel.unpack.neg).unpack := rfl
      rw [hneg, hy]
      cases s <;> rfl
    · rw [unpack_neg_finite hy, hy]
      rfl
  have hsub : x - y = Float.ofModel (Float.Model.pack
      (UnpackedFloat.sub .binary64 x.toModel.unpack y.toModel.unpack)) := rfl
  have hadd : x + -y = Float.ofModel (Float.Model.pack
      (UnpackedFloat.add .binary64 x.toModel.unpack (-y).toModel.unpack)) := rfl
  rw [hsub, hadd, hunpack]
  congr 2
  rcases x.toModel.unpack with s | _ | s | ⟨s, m, e, hm⟩ <;>
    rcases y.toModel.unpack with t | _ | t | ⟨t, m', e', hm'⟩ <;> try rfl
  have happly : ∀ n : ℤ, (-t).apply n = -t.apply n := fun n => by
    cases t with
    | positive => rfl
    | negative => exact (neg_neg n).symm
  simp only [UnpackedFloat.sub, UnpackedFloat.neg, UnpackedFloat.add, happly, Int.sub_eq_add_neg]

/-- A difference that is a double is computed exactly. -/
theorem value?_sub (hx : value? x = some u) (hy : value? y = some v) (h : IsDouble (u - v)) :
    value? (x - y) = some (u - v) := by
  rw [sub_eq_add_neg] at h ⊢
  rw [sub_eq_add hy]
  exact value?_add hx (value?_neg hy) h

theorem signed_mul (s t : Sign) :
    signed s m e * signed t m' e' = signed (s * t) (m * m') (e + e') := by
  have hpositive : signed .positive m e * signed .positive m' e' =
      signed .positive (m * m') (e + e') := by
    rw [signed_pos, signed_pos, signed_pos, product_eq]
  cases s <;> cases t <;>
    simp only [signed_neg, neg_mul, mul_neg, neg_neg, hpositive] <;> first | rfl | exact signed_neg.symm

/-- A product that is a double is computed exactly. -/
theorem value?_mul (hx : value? x = some u) (hy : value? y = some v) (h : IsDouble (u * v)) :
    value? (x * y) = some (u * v) := by
  have hmul : x * y = Float.ofModel (Float.Model.pack
      (UnpackedFloat.mul .binary64 x.toModel.unpack y.toModel.unpack)) := rfl
  rcases cases_of_value? hx with ⟨s, hxu, rfl⟩ | ⟨s, m, e, hm, hxu, rfl⟩ <;>
    rcases cases_of_value? hy with ⟨t, hyu, rfl⟩ | ⟨t, m', e', hm', hyu, rfl⟩
  · rw [hmul, hxu, hyu, mul_zero]
    exact value?_zero (s * t)
  · rw [hmul, hxu, hyu, zero_mul]
    exact value?_zero (s * t)
  · rw [hmul, hxu, hyu, mul_zero]
    exact value?_zero (s * t)
  · -- The product of the mantissas is rounded, and the signs are put before it.
    have hnearest : roundWithAccuracy .binary64 .positive (m * m') (e + e') .exact =
        nearest ((m * m' : Nat) * 2 ^ (e + e')) :=
      product_eq m m' e e' ▸ (Canonical.of_unpack hxu).mul (Canonical.of_unpack hyu)
    rw [signed_mul] at h ⊢
    rw [hmul, hxu, hyu, UnpackedFloat.mul, roundWithAccuracy_eq_withSign, hnearest]
    exact value?_withSign (Nat.mul_pos hm hm') (isDouble_signed h) (s * t)

end Exact

/-! ## Integers -/

/-- A mantissa of 53 bits is a double on each grid of normal doubles. -/
theorem isDouble_grid {n : Nat} {g : ℤ} (hn : n < 2 ^ 53) (hlow : -1022 ≤ g) (hhigh : g ≤ 971) :
    IsDouble (n * 2 ^ g) := by
  rcases Nat.eq_zero_or_pos n with rfl | hpos
  · rw [Nat.cast_zero, zero_mul]
    exact ⟨_, value?_zero .positive⟩
  · obtain ⟨m, e, hcanonical, hvalue⟩ := exists_canonical_grid hpos hn hlow hhigh
    exact hvalue ▸ hcanonical.isDouble

theorem isDouble_natCast {n : Nat} (hn : n ≤ 2 ^ 53) : IsDouble (n : ℚ) := by
  rcases hn.eq_or_lt with rfl | hlt
  · have hcanonical : Canonical (2 ^ 52) 1 :=
      ⟨by decide, by decide, by decide, by decide, .inl le_rfl⟩
    have hcarry : ((2 ^ 53 : Nat) : ℚ) = (2 ^ 52 : Nat) * 2 ^ (1 : ℤ) := by norm_num
    exact hcarry ▸ hcanonical.isDouble
  · have h := isDouble_grid (g := 0) hlt (by decide) (by decide)
    rwa [zpow_zero, mul_one] at h

/-- The sign of an integer makes no difference. -/
theorem isDouble_natAbs_iff {n : ℤ} : IsDouble (n.natAbs : ℚ) ↔ IsDouble (n : ℚ) := by
  rcases Int.natAbs_eq n with hn | hn
  · have hcast : (n : ℚ) = n.natAbs := by rw [hn]; rfl
    rw [hcast]
  · have hcast : (n : ℚ) = -n.natAbs := by rw [hn]; simp
    rw [hcast]
    exact ⟨IsDouble.neg, fun h => neg_neg (n.natAbs : ℚ) ▸ h.neg⟩

/-- An integer of 53 bits is a double, and so is the next one. -/
theorem isDouble_intCast {n : ℤ} (hn : |n| ≤ 2 ^ 53) : IsDouble (n : ℚ) := by
  rw [Int.abs_eq_natAbs] at hn
  exact isDouble_natAbs_iff.1 (isDouble_natCast (by exact_mod_cast hn))

theorem value?_eq_magnitude? (x : Float) : value? x = (magnitude? x).map fun r =>
    if isNegative x then -r.value else r.value := by
  unfold value? magnitude? isNegative
  rcases x.toModel.unpack with s | _ | s | ⟨s, m, e, hm⟩
  · rfl
  · rfl
  · cases s <;> simp [Ratio.value]
  · cases s <;> simp [scale_value]

/-- A double is an integer if its value is one. -/
theorem integer?_eq_some_iff {n : ℤ} : integer? x = some n ↔ value? x = some (n : ℚ) := by
  rw [value?_eq_magnitude?]
  unfold integer?
  rcases hv : magnitude? x with - | ⟨num, den⟩
  · exact iff_of_false (fun h => by cases h) (fun h => by cases h)
  have hden : 0 < den := den_pos_of_magnitude hv
  have hden' : (den : ℚ) ≠ 0 := by exact_mod_cast hden.ne'
  simp only [Option.map_some, Option.some_inj, Ratio.value]
  split
  · rename_i hdvd
    obtain ⟨k, rfl⟩ := Nat.dvd_of_mod_eq_zero hdvd
    rw [Nat.mul_div_cancel_left k hden, Nat.cast_mul, mul_div_cancel_left₀ _ hden', Option.some_inj]
    split <;> norm_cast
  · rename_i hdvd
    -- The numerator would be a multiple of the denominator.
    refine iff_of_false (fun h => by cases h) fun h => hdvd (Nat.mod_eq_zero_of_dvd ?_)
    rw [← Int.natCast_dvd_natCast]
    split at h
    · have hnum : (num : ℚ) = den * -n := by rw [← h, neg_neg, mul_div_cancel₀ _ hden']
      exact ⟨-n, by exact_mod_cast hnum⟩
    · have hnum : (num : ℚ) = den * n := by rw [← h, mul_div_cancel₀ _ hden']
      exact ⟨n, by exact_mod_cast hnum⟩

section IntegerOperations
variable {m n : ℤ}

theorem integer?_add (hx : integer? x = some m) (hy : integer? y = some n) (h : |m + n| ≤ 2 ^ 53) :
    integer? (x + y) = some (m + n) := by
  rw [integer?_eq_some_iff] at hx hy ⊢
  have hsum : ((m + n : ℤ) : ℚ) = m + n := Int.cast_add m n
  exact hsum ▸ value?_add hx hy (hsum ▸ isDouble_intCast h)

theorem integer?_sub (hx : integer? x = some m) (hy : integer? y = some n) (h : |m - n| ≤ 2 ^ 53) :
    integer? (x - y) = some (m - n) := by
  rw [integer?_eq_some_iff] at hx hy ⊢
  have hdifference : ((m - n : ℤ) : ℚ) = m - n := Int.cast_sub m n
  exact hdifference ▸ value?_sub hx hy (hdifference ▸ isDouble_intCast h)

theorem integer?_mul (hx : integer? x = some m) (hy : integer? y = some n) (h : |m * n| ≤ 2 ^ 53) :
    integer? (x * y) = some (m * n) := by
  rw [integer?_eq_some_iff] at hx hy ⊢
  have hproduct : ((m * n : ℤ) : ℚ) = m * n := Int.cast_mul m n
  exact hproduct ▸ value?_mul hx hy (hproduct ▸ isDouble_intCast h)

theorem lt_iff_of_integer? (hx : integer? x = some m) (hy : integer? y = some n) : x < y ↔ m < n := by
  rw [lt_iff_of_value? (integer?_eq_some_iff.1 hx) (integer?_eq_some_iff.1 hy), Int.cast_lt]

theorem beq_of_integer? (hx : integer? x = some n) (hy : integer? y = some n) : (x == y) = true :=
  beq_of_value? (integer?_eq_some_iff.1 hx) (integer?_eq_some_iff.1 hy)

end IntegerOperations
end Double

/-- A number is an integer if it is real and its real part is an integer of 64 bits. -/
theorem Number.integer?_eq_some_iff {z : Number} {n : ℤ} : z.integer? = some n ↔
    z.isReal = true ∧ Double.integer? z.re = some n ∧ -2 ^ 63 ≤ n ∧ n < 2 ^ 63 := by
  unfold Number.integer?
  split
  · rename_i hreal
    rw [hreal]
    split
    · rename_i k hk
      rw [hk]
      split
      · rename_i hbounds
        rw [Option.some_inj]
        exact ⟨fun h => ⟨rfl, h, h ▸ by omega⟩, fun h => h.2.1⟩
      · rename_i hbounds
        refine iff_of_false (fun h => by cases h) fun ⟨_, h, _, _⟩ => hbounds ?_
        rw [Option.some_inj] at h
        omega
    · rename_i hnone
      rw [hnone]
      exact iff_of_false (fun h => by cases h) fun h => by cases h.2.1
  · rename_i hreal
    exact iff_of_false (fun h => by cases h) fun h => hreal h.1

end ComplexCalc
