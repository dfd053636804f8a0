import ComplexCalc.Proofs.Opposites
/-!
# Bounds of rounded results

Rounding passes no double: what is at most a double, or at least one, is so after it has been rounded.
Hence bounds that are doubles go through sums, products and quotients. A lower bound also goes through an
overflow, where the result is infinite.
-/
namespace ComplexCalc.Double

open Float.Model Float.Model.UnpackedFloat

/-! ## The nearest double -/

/-- The double has the value `v`. No double is nearer to the fraction, and of two equally near ones it is
the one with the even mantissa. -/
def IsNearest (x : Float) (v q : ℚ) : Prop :=
  value? x = some v ∧ ∀ y u, value? y = some u →
    |v - q| ≤ |u - q| ∧ (|v - q| = |u - q| → u ≠ v → EvenMantissa x)

theorem evenMantissa_neg {x : Float} (h : EvenMantissa x) : EvenMantissa (-x) := by
  unfold EvenMantissa at h ⊢
  rw [unpack_neg]
  cases hx : x.toModel.unpack <;> rw [hx] at h <;> exact h

namespace IsNearest

variable {x : Float} {u v q : ℚ}

/-- What is a double already is nearest to itself. -/
theorem eq_of_isDouble (h : IsNearest x v q) (hq : IsDouble q) : v = q := by
  obtain ⟨y, hy⟩ := hq
  have hnear := (h.2 y q hy).1
  rw [sub_self, abs_zero] at hnear
  linarith [abs_nonpos_iff.1 hnear]

/-- Rounding passes no double from below. -/
theorem le_of_isDouble (h : IsNearest x v q) (hu : IsDouble u) (hq : q ≤ u) : v ≤ u := by
  obtain ⟨y, hy⟩ := hu
  have hnear := (h.2 y u hy).1
  rw [abs_of_nonneg (sub_nonneg.2 hq)] at hnear
  linarith [le_abs_self (v - q)]

/-- Rounding passes no double from above. -/
theorem ge_of_isDouble (h : IsNearest x v q) (hu : IsDouble u) (hq : u ≤ q) : u ≤ v := by
  obtain ⟨y, hy⟩ := hu
  have hnear := (h.2 y u hy).1
  rw [abs_of_nonpos (sub_nonpos.2 hq)] at hnear
  linarith [neg_abs_le (v - q)]

theorem neg (h : IsNearest x v q) : IsNearest (-x) (-v) (-q) := by
  obtain ⟨hv, hnear⟩ := h
  refine ⟨value?_neg hv, fun y u hy => ?_⟩
  have hflip : ∀ a : ℚ, |a - -q| = |-a - q| := fun a => by
    rw [← abs_neg]
    congr 1
    ring
  obtain ⟨hle, htie⟩ := hnear (-y) (-u) (value?_neg hy)
  rw [hflip, hflip, neg_neg]
  exact ⟨hle, fun heq hne => evenMantissa_neg (htie heq fun h => hne (neg_eq_iff_eq_neg.1 h))⟩

end IsNearest

/-! ## Doubles without a negative sign -/

/-- The double has the value and no negative sign. -/
structure Measures (x : Float) (v : ℚ) : Prop where
  sign : isNegative x = false
  value : value? x = some v

section Measures
variable {x y : Float} {l q u v : ℚ}

theorem Is.measures (h : Is x v) : Measures x v := ⟨h.isNegative, h.value?⟩

/-- Every double is a multiple of the smallest one. -/
theorem Is.exists_steps (h : Is x v) : ∃ n : Nat, 0 < n ∧ v = n * 2 ^ (-1074 : ℤ) := by
  obtain ⟨m, e, hcanonical, -, rfl⟩ := h
  have hlow := hcanonical.low
  have hpos := hcanonical.pos
  refine ⟨m * 2 ^ (e + 1074).toNat, by positivity, ?_⟩
  have hexponent : ((e + 1074).toNat : ℤ) = e + 1074 := by omega
  rw [Nat.cast_mul, Nat.cast_pow, Nat.cast_ofNat, ← zpow_natCast, hexponent, mul_assoc,
    ← zpow_add₀ two_ne_zero, add_neg_cancel_right]

/-- The smallest positive double bounds all others. -/
theorem Is.smallest_le (h : Is x v) : 2 ^ (-1074 : ℤ) ≤ v := by
  obtain ⟨n, hn, rfl⟩ := h.exists_steps
  exact le_mul_of_one_le_left (by positivity) (by exact_mod_cast hn)

theorem Is.two_mul_smallest_le (h : Is x v) (hv : 2 ^ (-1074 : ℤ) < v) : 2 * 2 ^ (-1074 : ℤ) ≤ v := by
  obtain ⟨n, -, rfl⟩ := h.exists_steps
  have hpower : (0 : ℚ) < 2 ^ (-1074 : ℤ) := by positivity
  have hn : (1 : ℚ) < n := (lt_mul_iff_one_lt_left hpower).1 hv
  have hn : (2 : ℚ) ≤ n := by exact_mod_cast hn
  exact mul_le_mul_of_nonneg_right hn hpower.le

theorem Measures.zero : Measures 0.0 0 := ⟨rfl, rfl⟩

theorem Measures.eq (hx : Measures x v) (hy : Measures y v) : x = y :=
  eq_of_value? hx.sign hy.sign hx.value hy.value

theorem Measures.eq_zero_or_is (h : Measures x v) : x = 0.0 ∧ v = 0 ∨ Is x v := by
  rcases Double.eq_zero_or_is h.sign h.value with ⟨-, rfl⟩ | his
  · exact .inl ⟨h.eq .zero, rfl⟩
  · exact .inr his

theorem Measures.nonneg (h : Measures x v) : 0 ≤ v := by
  rcases h.eq_zero_or_is with ⟨-, rfl⟩ | his
  · exact le_rfl
  · exact his.pos.le

theorem Measures.is (h : Measures x v) (hv : 0 < v) : Is x v :=
  h.eq_zero_or_is.resolve_left fun hzero => hv.ne' hzero.2

theorem Measures.isDouble (h : Measures x v) : IsDouble v := ⟨x, h.value⟩

theorem Measures.isFinite (h : Measures x v) : x.isFinite = true := isFinite_iff_value?.2 ⟨v, h.value⟩

theorem Measures.abs (h : value? x = some v) : Measures x.abs |v| := by
  rcases eq_or_ne v 0 with rfl | hv
  · refine ⟨isNegative_abs x, ?_⟩
    obtain ⟨s, hs⟩ := (beq_zero_iff x).1 ((beq_zero_iff_value? h).2 rfl)
    rw [abs_zero]
    refine value?_of_unpack_zero (s := .positive) ?_
    rw [unpack_abs, hs]
    rfl
  · exact (is_abs h hv).measures

theorem ofRat_eq_zero : ofRat 0 = 0.0 := by
  rw [← ofModel_pack_unpack (ofRat 0), ofRat_zero]
  rfl

theorem Measures.ofRat_eq (h : Measures x v) : ofRat v = x := by
  rcases h.eq_zero_or_is with ⟨rfl, rfl⟩ | his
  · exact ofRat_eq_zero
  · exact his.ofRat_eq

theorem le_iff_of_value? (hx : value? x = some u) (hy : value? y = some v) : x ≤ y ↔ u ≤ v := by
  rw [le_iff, compare_of_value? hx hy, Option.any_some, Ordering.isLE_iff_ne_gt]
  exact compare_le_iff_le

/-! ## Rounding between bounds -/

theorem IsDouble.lt_overflowBound (h : IsDouble u) : u < overflowBound := by
  rcases le_or_gt u 0 with hneg | hpos
  · exact hneg.trans_lt ((by positivity : (0 : ℚ) < 2 ^ 1023).trans_le le_overflowBound)
  obtain ⟨m, e, hcanonical, rfl⟩ := h.canonical hpos
  have hm : (m : ℚ) + 1 ≤ 2 ^ 53 := by exact_mod_cast hcanonical.mantissa
  have he : (2 : ℚ) ^ e ≤ 2 ^ (971 : ℤ) := zpow_le_zpow_right₀ one_le_two hcanonical.high
  rw [overflowBound_eq]
  calc (m : ℚ) * 2 ^ e ≤ m * 2 ^ (971 : ℤ) := mul_le_mul_of_nonneg_left he m.cast_nonneg
    _ < (2 ^ 53 - 1 / 2) * 2 ^ (971 : ℤ) := by
      refine mul_lt_mul_of_pos_right ?_ (zpow_pos two_pos _)
      linarith only [hm]

theorem IsDouble.lt_two_pow (h : IsDouble u) : u < 2 ^ 1024 := h.lt_overflowBound.trans overflowBound_lt

/-- Rounding gives an infinity or a double nearest to the fraction. -/
theorem ofRat_cases (hq : 0 ≤ q) :
    ofRat q = infinity ∨ ∃ v, Measures (ofRat q) v ∧ IsNearest (ofRat q) v q := by
  have hround := roundsTo_ofRat hq
  rcases le_or_gt overflowBound q with hlarge | hlt
  · exact .inl (hround.overflow hlarge)
  · obtain ⟨v, hv, hnear⟩ := hround.finite hlt
    exact .inr ⟨v, ⟨hround.sign, hv⟩, hv, hnear⟩

theorem isDouble_zero : IsDouble 0 := ⟨0.0, rfl⟩

theorem isDouble_one : IsDouble 1 := ⟨1.0, value?_one⟩

theorem isDouble_smallest : IsDouble (2 ^ (-1074 : ℤ)) := by
  have hcanonical : Canonical 1 (-1074) :=
    ⟨by norm_num, by norm_num, le_rfl, by norm_num, .inr rfl⟩
  have h := hcanonical.isDouble
  rwa [Nat.cast_one, one_mul] at h

/-- A fraction between two doubles is rounded to a double between them. -/
theorem ofRat_between (hl : IsDouble l) (hu : IsDouble u) (h0 : 0 ≤ l) (hlq : l ≤ q) (hqu : q ≤ u) :
    ∃ v, Measures (ofRat q) v ∧ l ≤ v ∧ v ≤ u := by
  have hround := roundsTo_ofRat (h0.trans hlq)
  obtain ⟨v, hv, hnear⟩ := hround.finite (hqu.trans_lt hu.lt_overflowBound)
  have hnearest : IsNearest (ofRat q) v q := ⟨hv, hnear⟩
  exact ⟨v, ⟨hround.sign, hv⟩, hnearest.ge_of_isDouble hl hlq, hnearest.le_of_isDouble hu hqu⟩

theorem ofRat_le (hq : 0 ≤ q) (hu : IsDouble u) (h : q ≤ u) : ∃ v, Measures (ofRat q) v ∧ v ≤ u := by
  obtain ⟨v, hv, -, hle⟩ := ofRat_between isDouble_zero hu le_rfl hq h
  exact ⟨v, hv, hle⟩

end Measures

/-! ## Operations -/

section Operations
variable {x y : Float} {u v : ℚ}

/-- A sum of doubles is rounded to the nearest double. -/
theorem Is.add (hx : Is x u) (hy : Is y v) : x + y = ofRat (u + v) := by
  obtain ⟨m, e, hm, hx, rfl⟩ := hx
  obtain ⟨m', e', hm', hy, rfl⟩ := hy
  -- The mantissas are added on the finer of the two grids.
  obtain ⟨k, hk⟩ : ∃ k, k = (decreaseExponent m e (min e e')).1 := ⟨_, rfl⟩
  obtain ⟨k', hk'⟩ : ∃ k', k' = (decreaseExponent m' e' (min e e')).1 := ⟨_, rfl⟩
  have hvalue : (k : ℚ) * 2 ^ min e e' = m * 2 ^ e := by
    rw [hk, ← signed_pos, ← signed_pos]
    exact signed_decreaseExponent .positive (min_le_left e e')
  have hvalue' : (k' : ℚ) * 2 ^ min e e' = m' * 2 ^ e' := by
    rw [hk', ← signed_pos, ← signed_pos]
    exact signed_decreaseExponent .positive (min_le_right e e')
  have hadd : x + y = Float.ofModel (Float.Model.pack
      (UnpackedFloat.add .binary64 x.toModel.unpack y.toModel.unpack)) := rfl
  have hpos : 0 < k + k' := by
    have hpos : (0 : ℚ) < k * 2 ^ min e e' := hvalue ▸ (signed_pos ▸ signed_positive hm.pos)
    have : (0 : ℚ) < k := pos_of_mul_pos_left hpos (by positivity)
    have : 0 < k := by exact_mod_cast this
    omega
  have hsum : ((k + k' : Nat) : ℚ) * 2 ^ min e e' = m * 2 ^ e + m' * 2 ^ e' := by
    rw [Nat.cast_add, add_mul, hvalue, hvalue']
  have hnormalize : UnpackedFloat.normalize .binary64 ((k + k' : Nat) : ℤ) (min e e') .positive =
      nearest (m * 2 ^ e + m' * 2 ^ e') := by
    rw [UnpackedFloat.normalize, compare_gt_iff_gt.2 (by exact_mod_cast hpos), Int.toNat_natCast, ← hsum]
    exact round_eq_withSign .positive hpos _
  rw [hadd, hx, hy, ofRat, ← hnormalize, hk, hk']
  rfl

theorem Measures.add (hx : Measures x u) (hy : Measures y v) : x + y = ofRat (u + v) := by
  rcases hx.eq_zero_or_is with ⟨rfl, rfl⟩ | hx'
  · rw [zero_add, hy.ofRat_eq, ← plain_of_not_negative hy.sign]
    exact zero_add_plain y
  rcases hy.eq_zero_or_is with ⟨rfl, rfl⟩ | hy'
  · rw [add_zero, hx.ofRat_eq, ← plain_of_not_negative hx.sign]
    exact plain_add_zero x
  · exact hx'.add hy'

theorem Measures.mul (hx : Measures x u) (hy : Measures y v) : x * y = ofRat (u * v) := by
  have hmul : x * y = Float.ofModel (Float.Model.pack
      (UnpackedFloat.mul .binary64 x.toModel.unpack y.toModel.unpack)) := rfl
  rcases hx.eq_zero_or_is with ⟨rfl, rfl⟩ | hx' <;> rcases hy.eq_zero_or_is with ⟨rfl, rfl⟩ | hy'
  · rw [mul_zero, ofRat_eq_zero]
    rfl
  · obtain ⟨m, e, hm, hy, -⟩ := hy'
    rw [zero_mul, ofRat_eq_zero, hmul, hy]
    rfl
  · obtain ⟨m, e, hm, hx, -⟩ := hx'
    rw [mul_zero, ofRat_eq_zero, hmul, hx]
    rfl
  · exact hx'.mul hy'

theorem Measures.div (hx : Measures x u) (hy : Is y v) : x / y = ofRat (u / v) := by
  rcases hx.eq_zero_or_is with ⟨rfl, rfl⟩ | hx
  · rw [zero_div, ofRat_eq_zero, hy.zero_div]
  · exact hx.div hy

end Operations

/-- The larger of two doubles without a negative sign. -/
theorem measures_larger (hx : Measures x u) (hy : Measures y v) : Measures (larger x y) (max u v) := by
  unfold larger
  split
  · rename_i h
    rwa [max_eq_right ((lt_iff_of_value? hx.value hy.value).1 h).le]
  · rename_i h
    rwa [max_eq_left (not_lt.1 fun hlt => h ((lt_iff_of_value? hx.value hy.value).2 hlt))]

/-! ## Lower bounds -/

/-- The double is not negative and at least the bound, or it is infinite. -/
def AtLeast (u : ℚ) (x : Float) : Prop := x = infinity ∨ ∃ v, Measures x v ∧ u ≤ v

namespace AtLeast

variable {x y : Float} {q u v w : ℚ}

theorem of_ofRat (hq : 0 ≤ q) (hu : IsDouble u) (h : u ≤ q) : AtLeast u (ofRat q) := by
  rcases ofRat_cases hq with hinfinity | ⟨v, hv, hnear⟩
  · exact .inl hinfinity
  · exact .inr ⟨v, hv, hnear.ge_of_isDouble hu h⟩

theorem mono (h : AtLeast u x) (hle : w ≤ u) : AtLeast w x :=
  h.imp_right fun ⟨v, hv, huv⟩ => ⟨v, hv, hle.trans huv⟩

theorem measures (h : AtLeast u x) (hx : x.isFinite = true) : ∃ v, Measures x v ∧ u ≤ v := by
  rcases h with rfl | h
  · cases hx
  · exact h

theorem eq_infinity (h : AtLeast u x) (hx : ¬x.isFinite = true) : x = infinity :=
  h.resolve_right fun ⟨_, hv, _⟩ => hx hv.isFinite

theorem zero_le (h : AtLeast u x) : 0.0 ≤ x := by
  rcases h with rfl | ⟨v, hv, -⟩
  · exact (le_iff _ _).2 rfl
  · exact (le_iff_of_value? rfl hv.value).2 hv.nonneg

theorem neg_le_zero (h : AtLeast u x) : -x ≤ 0.0 := by
  rcases h with rfl | ⟨v, hv, -⟩
  · exact (le_iff _ _).2 rfl
  · exact (le_iff_of_value? (value?_neg hv.value) rfl).2 (neg_nonpos.2 hv.nonneg)

theorem ne_zero (h : AtLeast u x) (hu : 0 < u) : (x == 0.0) = false := by
  rcases h with rfl | ⟨v, hv, hle⟩
  · rfl
  · exact (ne_zero_iff_value? hv.value).2 (hu.trans_le hle).ne'

/-! ### Operations -/

theorem add (hx : AtLeast u x) (hu : IsDouble u) (hy : Measures y v) : AtLeast u (x + y) := by
  rcases hx with rfl | ⟨w, hx, hle⟩
  · rcases hy.eq_zero_or_is with ⟨rfl, -⟩ | ⟨m, e, hm, hy, -⟩
    · exact .inl rfl
    · have hadd : infinity + y = Float.ofModel (Float.Model.pack
          (UnpackedFloat.add .binary64 infinity.toModel.unpack y.toModel.unpack)) := rfl
      rw [hadd, hy]
      exact .inl rfl
  · rw [hx.add hy]
    exact of_ofRat (add_nonneg hx.nonneg hy.nonneg) hu (by linarith [hy.nonneg])

theorem mul (hx : Is x v) (hy : AtLeast u y) (hw : IsDouble w) (hle : w ≤ v * u) : AtLeast w (x * y) := by
  rcases hy with rfl | ⟨r, hy, hur⟩
  · obtain ⟨m, e, hm, hx, -⟩ := hx
    have hmul : x * infinity = Float.ofModel (Float.Model.pack
        (UnpackedFloat.mul .binary64 x.toModel.unpack infinity.toModel.unpack)) := rfl
    rw [hmul, hx]
    exact .inl rfl
  · rw [hx.measures.mul hy]
    exact of_ofRat (mul_nonneg hx.pos.le hy.nonneg) hw
      (hle.trans (mul_le_mul_of_nonneg_left hur hx.pos.le))

theorem div (hx : AtLeast u x) (hy : Is y v) (hw : IsDouble w) (hle : w ≤ u / v) : AtLeast w (x / y) := by
  rcases hx with rfl | ⟨r, hx, hur⟩
  · obtain ⟨m, e, hm, hy, -⟩ := hy
    rw [div_eq_ofModel, hy]
    exact .inl rfl
  · rw [hx.div hy]
    exact of_ofRat (div_nonneg hx.nonneg hy.pos.le) hw
      (hle.trans (div_le_div_of_nonneg_right hur hy.pos.le))

end AtLeast
end ComplexCalc.Double
