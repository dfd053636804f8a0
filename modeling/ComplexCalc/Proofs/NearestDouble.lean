import ComplexCalc.Proofs.Rounding
/-!
# The nearest double

Products, quotients and integers are rounded to the nearest double. What lies close enough to a double
is rounded to this double, what lies beyond the largest one is packed as an infinity, and what lies
below half the smallest one vanishes.
-/
namespace ComplexCalc.Double

open Float.Model Float.Model.UnpackedFloat

/-! ## Mantissas and exponents of doubles -/

/-- The mantissa and the exponent are those of a double that is not zero. -/
structure Canonical (m : Nat) (e : ℤ) : Prop where
  pos : 0 < m
  mantissa : m < 2 ^ 53
  low : -1074 ≤ e
  high : e ≤ 971
  normal : 2 ^ 52 ≤ m ∨ e = -1074

theorem toNat_implicit_append {k : Nat} (b : BitVec k) : (1#1 ++ b).toNat = 2 ^ k + b.toNat := by
  rw [BitVec.toNat_append, ← Nat.shiftLeft_add_eq_or_of_lt b.isLt, Nat.shiftLeft_eq]
  simp

section Components
variable {m : Nat}

theorem unpack_normal {biased : Nat} (s : Sign) (hbiased : 0 < biased) (hbiased' : biased < 2047)
    (hm : 2 ^ 52 ≤ m) (hm' : m < 2 ^ 53) :
    UnpackedFloat.unpack Format.binary64
      (packComponents Format.binary64 s (BitVec.ofNat _ biased) (BitVec.ofNat _ m)) =
      .finite s m (biased - 1075) (by omega) := by
  have hexponent : (BitVec.ofNat 11 biased).toNat = biased := by
    rw [BitVec.toNat_ofNat, Nat.mod_eq_of_lt (by omega)]
  have hfraction : (1#1 ++ BitVec.ofNat 52 m).toNat = m := by
    rw [toNat_implicit_append, BitVec.toNat_ofNat]
    omega
  have hne : ∀ n, n < 2048 → n ≠ biased → ¬BitVec.ofNat 11 biased = BitVec.ofNat 11 n := by
    intro n hn hne h
    have := congrArg BitVec.toNat h
    rw [hexponent, BitVec.toNat_ofNat, Nat.mod_eq_of_lt hn] at this
    exact hne this.symm
  simp only [UnpackedFloat.unpack, unpackSign_packComponents, unpackExponent_packComponents,
    unpackMantissa_packComponents, Sign.ofBitVec_toBitVec]
  have hinfinite : ¬BitVec.ofNat 11 biased = -1#11 := hne 2047 (by omega) (by omega)
  rw [if_neg hinfinite, if_neg (hne 0 (by omega) (by omega))]
  simp only [hexponent, hfraction]
  rfl

theorem unpack_subnormal (s : Sign) (hm : 0 < m) (hm' : m < 2 ^ 52) :
    UnpackedFloat.unpack Format.binary64
      (packComponents Format.binary64 s 0#_ (BitVec.ofNat _ m)) = .finite s m (-1074) hm := by
  have hfraction : (BitVec.ofNat 52 m).toNat = m := by
    rw [BitVec.toNat_ofNat, Nat.mod_eq_of_lt hm']
  have hne : ¬BitVec.ofNat 52 m = 0#52 := by
    intro h
    have := congrArg BitVec.toNat h
    rw [hfraction] at this
    exact hm.ne' this
  simp only [UnpackedFloat.unpack, unpackSign_packComponents, unpackExponent_packComponents,
    unpackMantissa_packComponents, Sign.ofBitVec_toBitVec]
  rw [if_neg (by decide), if_pos trivial, dif_neg hne]
  simp only [hfraction]
  rfl

end Components

namespace Canonical

variable {m : Nat} {e : ℤ}

theorem of_bits {b : BitVec Format.binary64.numBits} {s : Sign} {h : 0 < m}
    (hb : UnpackedFloat.unpack Format.binary64 b = .finite s m e h) : Canonical m e := by
  have hmantissa : (unpackMantissa b).toNat < 2 ^ 52 := (unpackMantissa b).isLt
  have hexponent : (unpackExponent b).toNat < 2 ^ 11 := (unpackExponent b).isLt
  have hbias : (Format.binary64.exponentBias : ℤ) + Format.binary64.mantissaBitsWithoutImplicit =
      1075 := rfl
  simp only [UnpackedFloat.unpack, hbias] at hb
  split at hb
  · split at hb <;> cases hb
  · rename_i hinfinite
    have htop : (unpackExponent b).toNat ≠ 2 ^ 11 - 1 := fun h => hinfinite (BitVec.eq_of_toNat_eq h)
    split at hb
    · rename_i hsubnormal
      have hzero : (unpackExponent b).toNat = 0 := congrArg BitVec.toNat hsubnormal
      split at hb <;> cases hb
      rw [hzero]
      exact ⟨h, by omega, by omega, by omega, .inr (by omega)⟩
    · rename_i hnormal
      have hpos : (unpackExponent b).toNat ≠ 0 := fun h => hnormal (BitVec.eq_of_toNat_eq h)
      cases hb
      have happend : (1#1 ++ unpackMantissa b).toNat = 2 ^ 52 + (unpackMantissa b).toNat :=
        toNat_implicit_append _
      exact ⟨h, by omega, by omega, by omega, .inl (by omega)⟩

theorem of_unpack {x : Float} {s : Sign} {h : 0 < m} (hx : x.toModel.unpack = .finite s m e h) :
    Canonical m e := of_bits hx

/-- What a mantissa and an exponent of a double are packed into stands for them. -/
theorem unpack_pack (h : Canonical m e) (s : Sign) :
    (Float.Model.pack (.finite s m e h.pos)).unpack = .finite s m e h.pos := by
  obtain ⟨hpos, hmantissa, hlow, hhigh, hnormal⟩ := h
  have hbias : ((e + Format.binary64.exponentBias +
      Format.binary64.mantissaBitsWithoutImplicit).toNat : ℤ) = e + 1075 := by
    change ((e + 1023 + 52).toNat : ℤ) = _
    omega
  change UnpackedFloat.unpack Format.binary64
    (UnpackedFloat.pack Format.binary64 (.finite s m e hpos)) = _
  rw [UnpackedFloat.pack]
  generalize (e + Format.binary64.exponentBias +
    Format.binary64.mantissaBitsWithoutImplicit).toNat = biased at hbias
  dsimp only
  rw [if_neg (by omega)]
  split
  · rename_i hbits
    have hlog : m.log2 = 52 := by
      change m.log2 + 1 = 53 at hbits
      omega
    have himplicit : 2 ^ 52 ≤ m := (Nat.le_log2 hpos.ne').1 hlog.ge
    rw [unpack_normal s (by omega) (by omega) himplicit hmantissa]
    simp only [UnpackedFloat.finite.injEq, true_and]
    omega
  · rename_i hbits
    have hsmall : m < 2 ^ 52 := by
      by_contra hge
      have hlog : 52 ≤ m.log2 := (Nat.le_log2 hpos.ne').2 (by omega)
      have hlog' : m.log2 < 53 := (Nat.log2_lt hpos.ne').2 hmantissa
      exact hbits (by change m.log2 + 1 = 53; omega)
    rw [unpack_subnormal s hpos hsmall]
    simp only [UnpackedFloat.finite.injEq, true_and]
    omega

/-- A fraction at less than half the distance to the next double, and at no more than a quarter of it
below a power of two, is rounded to the double. -/
theorem nearest_of_close {q : ℚ} (h : Canonical m e) (hq : |q - m * 2 ^ e| ≤ m * 2 ^ e / 2 ^ 54) :
    nearest q = .finite .positive m e h.pos := by
  obtain ⟨hpos, hmantissa, hlow, -, hnormal⟩ := h
  have he : (0 : ℚ) < 2 ^ e := by positivity
  have hm : (1 : ℚ) ≤ m := by exact_mod_cast hpos
  have hm' : (m : ℚ) ≤ 2 ^ 53 - 1 := by
    have : (m : ℚ) + 1 ≤ 2 ^ 53 := by exact_mod_cast hmantissa
    linarith
  obtain ⟨r, rfl⟩ : ∃ r, q = r * 2 ^ e := ⟨q / 2 ^ e, (div_mul_cancel₀ q he.ne').symm⟩
  -- In units of the grid of the double, the fraction is `r` and the double is `m`.
  have hr : |r - m| ≤ m / 2 ^ 54 := by
    rw [← sub_mul, abs_mul, abs_of_pos he, mul_div_right_comm] at hq
    exact le_of_mul_le_mul_right hq he
  obtain ⟨hrlow, hrhigh⟩ := abs_le.1 hr
  have hrpos : 0 < r := by linarith
  have hclose : |r - m| < 1 / 2 := lt_of_le_of_lt hr (by linarith)
  have hq0 : 0 < r * 2 ^ e := mul_pos hrpos he
  have habove : Int.log 2 (r * 2 ^ e) < 53 + e := by
    refine (Int.lt_zpow_iff_log_lt Nat.one_lt_two hq0).1 ?_
    rw [Nat.cast_ofNat, zpow_add₀ two_ne_zero]
    refine mul_lt_mul_of_pos_right ?_ he
    have : (2 : ℚ) ^ (53 : ℤ) = 2 ^ 53 := by norm_cast
    linarith
  by_cases hgrid : 2 ^ 52 ≤ r ∨ e = -1074
  · have hgrid : gridExponent (r * 2 ^ e) = e := by
      rw [gridExponent]
      rcases hgrid with hr52 | rfl
      · have hbelow : 52 + e ≤ Int.log 2 (r * 2 ^ e) := by
          refine (Int.zpow_le_iff_le_log Nat.one_lt_two hq0).1 ?_
          rw [Nat.cast_ofNat, zpow_add₀ two_ne_zero]
          exact mul_le_mul_of_nonneg_right (by exact_mod_cast hr52) he.le
        omega
      · omega
    rw [nearest, hgrid, mul_div_assoc, div_self he.ne', mul_one, halfEven_of_close hrpos.le hclose,
      ofGrid, dif_neg hpos.ne', if_neg hmantissa.ne]
  -- Below a power of two the grid is finer, and rounding comes back up to the power.
  · rw [not_or, not_le] at hgrid
    obtain ⟨hr52, hne⟩ := hgrid
    have h52 : m = 2 ^ 52 := by
      have hge := hnormal.resolve_right hne
      by_contra hne52
      have : (2 : ℚ) ^ 52 + 1 ≤ m := by exact_mod_cast Nat.lt_of_le_of_ne hge (Ne.symm hne52)
      linarith [(abs_lt.1 hclose).1]
    subst h52
    push_cast at hrlow hrhigh
    have hfiner : gridExponent (r * 2 ^ e) = e - 1 := by
      have hbelow : 51 + e ≤ Int.log 2 (r * 2 ^ e) := by
        refine (Int.zpow_le_iff_le_log Nat.one_lt_two hq0).1 ?_
        rw [Nat.cast_ofNat, zpow_add₀ two_ne_zero]
        refine mul_le_mul_of_nonneg_right ?_ he.le
        have : (2 : ℚ) ^ (51 : ℤ) = 2 ^ 51 := by norm_cast
        linarith
      have habove : Int.log 2 (r * 2 ^ e) < 52 + e := by
        refine (Int.lt_zpow_iff_log_lt Nat.one_lt_two hq0).1 ?_
        rw [Nat.cast_ofNat, zpow_add₀ two_ne_zero]
        exact mul_lt_mul_of_pos_right (by exact_mod_cast hr52) he
      rw [gridExponent]
      omega
    have hunits : r * 2 ^ e / 2 ^ (e - 1) = 2 * r := by
      rw [zpow_sub₀ two_ne_zero, zpow_one]
      field_simp
    have htop : halfEven (2 * r) = 2 ^ 53 := by
      have := halfEven_middle (r := 2 * r) (n := 2 ^ 53 - 1) (by decide) (by norm_num; linarith)
        (by norm_num; linarith)
      exact this
    rw [nearest, hfiner, hunits, htop, ofGrid, dif_neg (by decide), if_pos rfl]
    simp only [UnpackedFloat.finite.injEq, true_and]
    omega

end Canonical
/-! ## Products, quotients and integers -/

section Operations
variable {m m' : Nat} {e e' : ℤ}

theorem product_eq (m m' : Nat) (e e' : ℤ) :
    (m : ℚ) * 2 ^ e * (m' * 2 ^ e') = (m * m' : Nat) * 2 ^ (e + e') := by
  rw [zpow_add₀ two_ne_zero, Nat.cast_mul]
  ring

theorem mul_finite {hm : 0 < m} {hm' : 0 < m'}
    (h : e + e' ≤ gridExponent (m * 2 ^ e * (m' * 2 ^ e'))) :
    UnpackedFloat.mul Format.binary64 (.finite .positive m e hm) (.finite .positive m' e' hm') =
      nearest (m * 2 ^ e * (m' * 2 ^ e')) := by
  refine roundWithAccuracy_eq (by positivity) ?_ h
  rw [product_eq, mul_div_cancel_right₀ _ (by positivity)]
  exact .exact _

theorem Canonical.mul (h : Canonical m e) (h' : Canonical m' e') :
    UnpackedFloat.mul Format.binary64 (.finite .positive m e h.pos) (.finite .positive m' e' h'.pos) =
      nearest (m * 2 ^ e * (m' * 2 ^ e')) := by
  have hm := h.pos
  have hm' := h'.pos
  have hnormal : 2 ^ 52 ≤ m * m' ∨ e + e' ≤ -1074 := by
    rcases h.normal, h'.normal with ⟨h1 | h1, h2 | h2⟩
    · exact .inl (Nat.le_trans h1 (Nat.le_mul_of_pos_right m hm'))
    · exact .inl (Nat.le_trans h1 (Nat.le_mul_of_pos_right m hm'))
    · exact .inl (Nat.le_trans h2 (Nat.le_mul_of_pos_left m' hm))
    · exact .inr (by omega)
  refine mul_finite ?_
  rcases hnormal with hnormal | hsmall
  · have hq : 0 < (m : ℚ) * 2 ^ e * (m' * 2 ^ e') := by positivity
    have hlog : 52 + (e + e') ≤ Int.log 2 ((m : ℚ) * 2 ^ e * (m' * 2 ^ e')) := by
      refine (Int.zpow_le_iff_le_log Nat.one_lt_two hq).1 ?_
      rw [product_eq, Nat.cast_ofNat, zpow_add₀ two_ne_zero]
      exact mul_le_mul_of_nonneg_right (by exact_mod_cast hnormal) (by positivity)
    rw [gridExponent]
    omega
  · exact le_trans hsmall (le_max_right _ _)

theorem div_finite (hm : 0 < m) (hm' : 0 < m') :
    UnpackedFloat.div Format.binary64 (.finite .positive m e hm) (.finite .positive m' e' hm') =
      nearest (m * 2 ^ e / (m' * 2 ^ e')) := by
  have hlog : (m.log2 : ℤ) - m'.log2 - 1 + (e - e') ≤ Int.log 2 ((m : ℚ) * 2 ^ e / (m' * 2 ^ e')) := by
    refine (Int.zpow_le_iff_le_log Nat.one_lt_two (by positivity)).1 ?_
    have hlow : (2 : ℚ) ^ m.log2 ≤ m := by exact_mod_cast Nat.log2_self_le hm.ne'
    have hhigh : (m' : ℚ) ≤ 2 ^ (m'.log2 + 1) := by exact_mod_cast Nat.lt_log2_self.le
    rw [Nat.cast_ofNat, le_div_iff₀ (by positivity)]
    calc (2 : ℚ) ^ ((m.log2 : ℤ) - m'.log2 - 1 + (e - e')) * (m' * 2 ^ e')
        ≤ 2 ^ ((m.log2 : ℤ) - m'.log2 - 1 + (e - e')) * (2 ^ (m'.log2 + 1) * 2 ^ e') := by gcongr
      _ = 2 ^ m.log2 * 2 ^ e := by
        rw [← zpow_natCast, ← zpow_natCast, ← zpow_add₀ two_ne_zero, ← zpow_add₀ two_ne_zero,
          ← zpow_add₀ two_ne_zero]
        congr 1
        push_cast
        omega
      _ ≤ m * 2 ^ e := by gcongr
  -- The quotient is computed on a grid that is fine enough.
  obtain ⟨g, hg⟩ : ∃ g, g = min (e - e') (Format.binary64.targetExponent
      (totalExponent m e - totalExponent m' e')) := ⟨_, rfl⟩
  have hgrid : g ≤ gridExponent ((m : ℚ) * 2 ^ e / (m' * 2 ^ e')) := by
    have htarget : Format.binary64.targetExponent (totalExponent m e - totalExponent m' e') =
        max ((m.log2 + 1 + e) - (m'.log2 + 1 + e') - 53) (-1074) := rfl
    rw [hg, htarget, gridExponent]
    omega
  have hshift : (e - e' - g).toNat = e - e' - g := by omega
  refine roundWithAccuracy_eq (by positivity) ?_ (le_of_eq_of_le hg.symm hgrid)
  rw [← hg]
  have hunits : (m : ℚ) * 2 ^ e / (m' * 2 ^ e') / 2 ^ g =
      (m <<< (e - e' - g).toNat : Nat) / m' := by
    rw [Nat.shiftLeft_eq, Nat.cast_mul, Nat.cast_pow, Nat.cast_ofNat, ← zpow_natCast, hshift,
      zpow_sub₀ two_ne_zero, zpow_sub₀ two_ne_zero]
    field_simp
  rw [hunits]
  exact .fraction _ hm'

theorem round_finite (hm : 0 < m) :
    UnpackedFloat.round Format.binary64 .positive m e = nearest (m * 2 ^ e) := by
  have hlog : Int.log 2 ((m : ℚ) * 2 ^ e) = m.log2 + e :=
    log_eq hm.ne' le_rfl (mul_lt_mul_of_pos_right (lt_add_one _) (by positivity))
  have htarget : Format.binary64.targetExponent (totalExponent m e) =
      gridExponent ((m : ℚ) * 2 ^ e) := by
    rw [targetExponent_eq, gridExponent, hlog]
  have hshift : (((e - gridExponent ((m : ℚ) * 2 ^ e)).toNat : Nat) : ℤ) =
      max (e - gridExponent ((m : ℚ) * 2 ^ e)) 0 := by omega
  rw [UnpackedFloat.round, htarget, decreaseExponent]
  refine roundWithAccuracy_eq (by positivity) ?_ (by omega)
  have hunits : (m : ℚ) * 2 ^ e / 2 ^ (e - (e - gridExponent ((m : ℚ) * 2 ^ e)).toNat) =
      (m <<< (e - gridExponent ((m : ℚ) * 2 ^ e)).toNat : Nat) := by
    rw [Nat.shiftLeft_eq, Nat.cast_mul, Nat.cast_pow, Nat.cast_ofNat, zpow_sub₀ two_ne_zero,
      zpow_natCast]
    field_simp
  rw [hunits]
  exact .exact _

/-- An integer below `2 ^ 53` is the mantissa of a double on each grid of normal doubles. -/
theorem exists_canonical_grid {n : Nat} {g : ℤ} (hn : 0 < n) (hn' : n < 2 ^ 53) (hlow : -1022 ≤ g)
    (hhigh : g ≤ 971) : ∃ m e, Canonical m e ∧ (m : ℚ) * 2 ^ e = n * 2 ^ g := by
  have hbelow := Nat.log2_self_le hn.ne'
  have habove : n < 2 ^ (n.log2 + 1) := Nat.lt_log2_self
  have hlog : n.log2 < 53 := (Nat.log2_lt hn.ne').2 hn'
  have hscale : n.log2 + (52 - n.log2) = 52 := by omega
  refine ⟨n * 2 ^ (52 - n.log2), g - (52 - n.log2 : Nat),
    ⟨by positivity, ?_, by omega, by omega, .inl ?_⟩, ?_⟩
  · calc n * 2 ^ (52 - n.log2) < 2 ^ (n.log2 + 1) * 2 ^ (52 - n.log2) := by gcongr
      _ = 2 ^ 53 := by rw [← pow_add]; congr 1; omega
  · calc 2 ^ 52 = 2 ^ n.log2 * 2 ^ (52 - n.log2) := by rw [← pow_add, hscale]
      _ ≤ n * 2 ^ (52 - n.log2) := by gcongr
  · rw [Nat.cast_mul, Nat.cast_pow, Nat.cast_ofNat, zpow_sub₀ two_ne_zero, zpow_natCast, mul_assoc,
      mul_div_cancel₀ _ (by positivity)]

/-- An integer below `2 ^ 53` is a double. -/
theorem exists_canonical {n : Nat} (hn : 0 < n) (hn' : n < 2 ^ 53) :
    ∃ m e, Canonical m e ∧ (m : ℚ) * 2 ^ e = n := by
  obtain ⟨m, e, hcanonical, hvalue⟩ := exists_canonical_grid (g := 0) hn hn' (by decide) (by decide)
  exact ⟨m, e, hcanonical, by rw [hvalue, zpow_zero, mul_one]⟩

end Operations

/-- The double that a fraction, which is not negative, is rounded to. -/
def ofRat (q : ℚ) : Float := Float.ofModel (Float.Model.pack (nearest q))

/-! ## Beyond the doubles -/

theorem nearest_zero : nearest 0 = .zero .positive := by
  rw [nearest, zero_div, halfEven_of_close (n := 0) le_rfl (by norm_num), ofGrid, dif_pos rfl]

theorem pack_finite_of_large {m : Nat} {e : ℤ} {h : 0 < m} (he : 972 ≤ e) :
    Float.Model.pack (.finite .positive m e h) = Float.Model.pack (.infinity .positive) := by
  rw [Float.Model.pack, Float.Model.pack]
  congr 2
  rw [UnpackedFloat.pack]
  refine if_pos ?_
  change 2 ^ 11 ≤ (e + 1023 + 52).toNat + 1
  omega

/-- A fraction beyond the largest double is packed as an infinity. -/
theorem pack_nearest_of_large {q : ℚ} (hq : 2 ^ 1024 ≤ q) :
    Float.Model.pack (nearest q) = Float.Model.pack (.infinity .positive) := by
  have hpos : 0 < q := lt_of_lt_of_le (by positivity) hq
  have hlog : 1024 ≤ Int.log 2 q := by
    refine (Int.zpow_le_iff_le_log Nat.one_lt_two hpos).1 ?_
    exact_mod_cast hq
  have hgrid : gridExponent q = Int.log 2 q - 52 := by
    rw [gridExponent]
    omega
  have hmantissa : halfEven (q / 2 ^ gridExponent q) ≠ 0 := by
    have hunits : (1 : ℚ) ≤ q / 2 ^ gridExponent q := by
      have hlow := Int.zpow_log_le_self Nat.one_lt_two hpos
      rw [Nat.cast_ofNat] at hlow
      rw [le_div_iff₀ (by positivity), one_mul, hgrid]
      exact le_trans (zpow_le_zpow_right₀ one_le_two (by omega)) hlow
    exact Nat.pos_iff_ne_zero.1 (le_halfEven (by exact_mod_cast hunits))
  rw [nearest, ofGrid, dif_neg hmantissa]
  split
  · exact pack_finite_of_large (by omega)
  · exact pack_finite_of_large (by omega)

/-- A fraction below half the smallest double is rounded to zero. -/
theorem nearest_of_small {q : ℚ} (hpos : 0 < q) (hq : q < 2 ^ (-1075 : ℤ)) :
    nearest q = .zero .positive := by
  have hlog : Int.log 2 q < -1075 := by
    refine (Int.lt_zpow_iff_log_lt Nat.one_lt_two hpos).1 ?_
    exact_mod_cast hq
  have hgrid : gridExponent q = -1074 := by
    rw [gridExponent]
    omega
  have hunits : q / 2 ^ (-1074 : ℤ) < 1 / 2 := by
    rw [div_lt_iff₀ (by positivity)]
    calc q < 2 ^ (-1075 : ℤ) := hq
      _ = 2 ^ (-1 : ℤ) * 2 ^ (-1074 : ℤ) := by rw [← zpow_add₀ two_ne_zero]; rfl
      _ = 1 / 2 * 2 ^ (-1074 : ℤ) := by rw [zpow_neg_one, one_div]
  rw [nearest, hgrid, halfEven_of_close (n := 0) (by positivity)]
  · rw [ofGrid, dif_pos rfl]
  · rw [Nat.cast_zero, sub_zero, abs_of_nonneg (by positivity)]
    exact hunits

end ComplexCalc.Double
