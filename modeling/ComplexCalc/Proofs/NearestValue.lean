import ComplexCalc.Proofs.DecimalValue
/-!
# The nearest of all doubles

What a fraction is rounded to is said without the way in which it is computed: the double is at least as
near to the fraction as every finite double, of two equally near ones it is the one with the even
mantissa, and a fraction at least half a step beyond the largest double is rounded to infinity. There is
exactly one such double, and it is `ofRat`.
-/
namespace ComplexCalc.Double

open Float.Model Float.Model.UnpackedFloat

/-! ## The specification -/

/-- The value of a finite double. -/
def value? (x : Float) : Option ℚ :=
  match x.toModel.unpack with
  | .zero _ => some 0
  | .finite .positive m e _ => some (m * 2 ^ e)
  | .finite .negative m e _ => some (-(m * 2 ^ e))
  | _ => none

/-- The mantissa of the double is even. -/
def EvenMantissa (x : Float) : Prop :=
  match x.toModel.unpack with
  | .finite _ m _ _ => m % 2 = 0
  | _ => True

/-- The middle between the largest double and the power of two that is next to it. -/
def overflowBound : ℚ := 2 ^ 1024 - 2 ^ 970

/-- The double is what the fraction, which is not negative, is rounded to. -/
structure RoundsTo (q : ℚ) (x : Float) : Prop where
  sign : isNegative x = false
  overflow : overflowBound ≤ q → x = infinity
  finite : q < overflowBound → ∃ v, value? x = some v ∧ ∀ y u, value? y = some u →
    |v - q| ≤ |u - q| ∧ (|v - q| = |u - q| → u ≠ v → EvenMantissa x)

theorem two_pow_1024 : (2 : ℚ) ^ 1024 = 2 ^ 53 * 2 ^ (971 : ℤ) := by
  rw [zpow_ofNat, ← pow_add]

theorem overflowBound_eq : overflowBound = (2 ^ 53 - 1 / 2) * 2 ^ (971 : ℤ) := by
  have hhalf : (2 : ℚ) ^ (971 : ℤ) = 2 * 2 ^ 970 := by rw [zpow_ofNat, ← pow_succ']
  rw [overflowBound, two_pow_1024, hhalf, sub_mul, one_div, inv_mul_cancel_left₀ two_ne_zero]

theorem overflowBound_lt : overflowBound < 2 ^ 1024 := sub_lt_self _ (by positivity)

theorem le_overflowBound : 2 ^ 1023 ≤ overflowBound := by
  have hhalf : (2 : ℚ) ^ 1023 = 2 ^ 52 * 2 ^ (971 : ℤ) := by rw [zpow_ofNat, ← pow_add]
  rw [overflowBound_eq, hhalf]
  exact mul_le_mul_of_nonneg_right (by norm_num) (by positivity)

/-! ## Rounding to an integer -/

section HalfEven
variable {r : ℚ}

/-- No integer is nearer to a fraction, and where another one is as near, that one is odd. -/
theorem halfEven_near (hr : 0 ≤ r) (k : Nat) :
    |halfEven r - r| ≤ |k - r| ∧
      (|halfEven r - r| = |k - r| → k ≠ halfEven r → halfEven r % 2 = 0 ∧ k % 2 = 1) := by
  have hlow : (⌊r⌋₊ : ℚ) ≤ r := Nat.floor_le hr
  have hhigh : r < ⌊r⌋₊ + 1 := Nat.lt_floor_add_one r
  rw [halfEven]
  generalize ⌊r⌋₊ = n at hlow hhigh
  -- The other integer is on the one side of the fraction or on the other.
  have hside : (k ≤ n ∧ (k : ℚ) ≤ n ∧ |k - r| = r - k) ∨
      (n + 1 ≤ k ∧ (n : ℚ) + 1 ≤ k ∧ |k - r| = k - r) := by
    rcases Nat.lt_or_ge n k with hk | hk
    · have hk' : (n : ℚ) + 1 ≤ k := by exact_mod_cast hk
      exact .inr ⟨hk, hk', abs_of_nonneg (by linarith)⟩
    · have hk' : (k : ℚ) ≤ n := by exact_mod_cast hk
      exact .inl ⟨hk, hk', by rw [abs_sub_comm]; exact abs_of_nonneg (by linarith)⟩
  split
  · rename_i hround
    have hhalf : r - n ≤ 1 / 2 := by rcases hround with h | h <;> linarith
    rw [abs_sub_comm, abs_of_nonneg (by linarith : 0 ≤ r - n)]
    rcases hside with ⟨hk, hk', habs⟩ | ⟨hk, hk', habs⟩ <;> rw [habs]
    · refine ⟨by linarith, fun heq hne => absurd ?_ hne⟩
      exact_mod_cast (by linarith : (k : ℚ) = n)
    · refine ⟨by linarith, fun heq _ => ?_⟩
      have hnext : k = n + 1 := by exact_mod_cast (by linarith : (k : ℚ) = n + 1)
      have heven : n % 2 = 0 := (hround.resolve_left (by linarith)).2
      omega
  · rename_i hround
    rw [not_or, not_and, not_lt] at hround
    obtain ⟨hhalf, hodd⟩ := hround
    push_cast
    rw [abs_of_nonneg (by linarith : 0 ≤ (n : ℚ) + 1 - r)]
    rcases hside with ⟨hk, hk', habs⟩ | ⟨hk, hk', habs⟩ <;> rw [habs]
    · refine ⟨by linarith, fun heq _ => ?_⟩
      have hsame : k = n := by exact_mod_cast (by linarith : (k : ℚ) = n)
      have := hodd (by linarith)
      omega
    · refine ⟨by linarith, fun heq hne => absurd ?_ hne⟩
      exact_mod_cast (by linarith : (k : ℚ) = n + 1)

end HalfEven

/-! ## The grid around a fraction -/

/-- The mantissa that a fraction is rounded to on its grid. -/
def gridMantissa (q : ℚ) : Nat := halfEven (q / 2 ^ gridExponent q)

section Grid
variable {q : ℚ} {k : Nat} {e : ℤ}

theorem gridExponent_low (q : ℚ) : -1074 ≤ gridExponent q := le_max_right _ _

/-- Above the least grid, the fraction is at least the least mantissa of normal doubles. -/
theorem le_of_gridExponent (hq : 0 < q) (h : -1074 < gridExponent q) :
    2 ^ 52 * 2 ^ gridExponent q ≤ q := by
  have hlog : 52 + gridExponent q = Int.log 2 q := by
    rw [gridExponent] at h ⊢
    omega
  have hpower : (2 : ℚ) ^ 52 * 2 ^ gridExponent q = 2 ^ Int.log 2 q := by
    rw [← hlog, zpow_add₀ two_ne_zero]
    norm_cast
  rw [hpower]
  exact_mod_cast Int.zpow_log_le_self Nat.one_lt_two hq

theorem gridMantissa_near (hq : 0 < q) (k : Nat) :
    |gridMantissa q * 2 ^ gridExponent q - q| ≤ |k * 2 ^ gridExponent q - q| ∧
      (|gridMantissa q * 2 ^ gridExponent q - q| = |k * 2 ^ gridExponent q - q| →
        k ≠ gridMantissa q → gridMantissa q % 2 = 0 ∧ k % 2 = 1) := by
  have hg : (0 : ℚ) < 2 ^ gridExponent q := by positivity
  have hunits : ∀ n : Nat, |n * 2 ^ gridExponent q - q| =
      |n - q / 2 ^ gridExponent q| * 2 ^ gridExponent q := fun n => by
    rw [← abs_of_pos hg, ← abs_mul, abs_of_pos hg, sub_mul, div_mul_cancel₀ q hg.ne']
  obtain ⟨hle, htie⟩ := halfEven_near (div_pos hq hg).le k
  rw [hunits, hunits]
  exact ⟨mul_le_mul_of_nonneg_right hle hg.le, fun h => htie (mul_right_cancel₀ hg.ne' h)⟩

/-- The point of the grid that a fraction is rounded to is at least as near as every double. Where a
double is as near, its mantissa is odd and the one of the point even. -/
theorem grid_near (hq : 0 < q) (hk : k < 2 ^ 53) (he : -1074 ≤ e) :
    |gridMantissa q * 2 ^ gridExponent q - q| ≤ |k * 2 ^ e - q| ∧
      (|gridMantissa q * 2 ^ gridExponent q - q| = |k * 2 ^ e - q| →
        (k : ℚ) * 2 ^ e ≠ gridMantissa q * 2 ^ gridExponent q →
          gridMantissa q % 2 = 0 ∧ k % 2 = 1) := by
  rcases le_or_gt (gridExponent q) e with hge | hlt
  · -- A double of a coarser grid is a point of the grid.
    obtain ⟨d, rfl⟩ : ∃ d : Nat, e = d + gridExponent q := ⟨(e - gridExponent q).toNat, by omega⟩
    have hpoint : (k : ℚ) * 2 ^ (d + gridExponent q) = (k * 2 ^ d : Nat) * 2 ^ gridExponent q := by
      rw [zpow_add₀ two_ne_zero, zpow_natCast]
      push_cast
      ring
    rw [hpoint]
    obtain ⟨hle, htie⟩ := gridMantissa_near hq (k * 2 ^ d)
    refine ⟨hle, fun heq hne => ?_⟩
    obtain ⟨heven, hodd⟩ := htie heq fun h => hne (by rw [h])
    cases d with
    | zero => exact ⟨heven, by simpa using hodd⟩
    | succ d => simp [Nat.pow_succ, ← Nat.mul_assoc] at hodd
  · -- A double of a finer grid is below the least point of the binade.
    have hlow := le_of_gridExponent hq (he.trans_lt hlt)
    have hpoint : (k : ℚ) * 2 ^ e < 2 ^ 52 * 2 ^ gridExponent q := by
      calc (k : ℚ) * 2 ^ e < 2 ^ 53 * 2 ^ e := by
            have : (k : ℚ) < 2 ^ 53 := by exact_mod_cast hk
            gcongr
        _ = 2 ^ 52 * 2 ^ (1 + e) := by rw [zpow_add₀ two_ne_zero, zpow_one]; ring
        _ ≤ 2 ^ 52 * 2 ^ gridExponent q := by
            gcongr
            · exact one_le_two
            · omega
    have hbinade := (gridMantissa_near hq (2 ^ 52)).1
    rw [Nat.cast_pow, Nat.cast_ofNat, abs_sub_comm (2 ^ 52 * _),
      abs_of_nonneg (by linarith : 0 ≤ q - 2 ^ 52 * 2 ^ gridExponent q)] at hbinade
    rw [abs_sub_comm ((k : ℚ) * 2 ^ e), abs_of_nonneg (by linarith : 0 ≤ q - k * 2 ^ e)]
    exact ⟨by linarith, fun heq => by linarith⟩

end Grid

/-! ## Values of doubles -/

section Value
variable {x y : Float} {q u v : ℚ}

/-- A finite double that is not negative is a mantissa on a grid. -/
theorem exists_of_value? (h : value? x = some u) : u < 0 ∨ ∃ (k : Nat) (e : ℤ),
    k < 2 ^ 53 ∧ -1074 ≤ e ∧ u = k * 2 ^ e ∧ (EvenMantissa x → k % 2 = 0) := by
  unfold value? at h
  split at h
  · cases h
    exact .inr ⟨0, -1074, by norm_num, le_rfl, by simp, fun _ => rfl⟩
  · rename_i m e hm hx
    cases h
    have hcanonical := Canonical.of_unpack hx
    refine .inr ⟨m, e, hcanonical.mantissa, hcanonical.low, rfl, fun heven => ?_⟩
    simpa only [EvenMantissa, hx] using heven
  · rename_i m e hm hx
    cases h
    have : (0 : ℚ) < m := by exact_mod_cast hm
    exact .inl (neg_lt_zero.2 (by positivity))
  · cases h

/-- No double is nearer to a fraction than the point of its grid that it is rounded to, and where one is
as near, the mantissa of the point is even and the one of the double odd. -/
theorem point_near (hq : 0 < q) (hu : value? x = some u) :
    |gridMantissa q * 2 ^ gridExponent q - q| ≤ |u - q| ∧
      (|gridMantissa q * 2 ^ gridExponent q - q| = |u - q| →
        u ≠ (gridMantissa q : ℚ) * 2 ^ gridExponent q → gridMantissa q % 2 = 0 ∧ ¬EvenMantissa x) := by
  rcases exists_of_value? hu with hneg | ⟨k, e, hk, he, rfl, heven⟩
  · have hzero := (gridMantissa_near hq 0).1
    rw [Nat.cast_zero, zero_mul, zero_sub, abs_neg, abs_of_pos hq] at hzero
    rw [abs_sub_comm u, abs_of_pos (by linarith : 0 < q - u)]
    exact ⟨by linarith, fun heq => by linarith⟩
  · obtain ⟨hle, htie⟩ := grid_near hq hk he
    refine ⟨hle, fun heq hne => ?_⟩
    obtain ⟨hpoint, hodd⟩ := htie heq hne
    exact ⟨hpoint, fun h => by rw [heven h] at hodd; cases hodd⟩

theorem Is.value? (h : Is x q) : value? x = some q := by
  obtain ⟨m, e, hcanonical, hx, rfl⟩ := h
  rw [Double.value?, hx]

theorem Is.isNegative (h : Is x q) : isNegative x = false := by
  obtain ⟨m, e, hcanonical, hx, -⟩ := h
  rw [Double.isNegative, hx]
  rfl

theorem eq_zero_or_is (hx : isNegative x = false) (hv : value? x = some v) :
    x.toModel.unpack = .zero .positive ∧ v = 0 ∨ Is x v := by
  unfold isNegative at hx
  unfold value? at hv
  rcases hunpack : x.toModel.unpack with s | _ | s | ⟨_ | _, m, e, hm⟩ <;>
    simp only [hunpack] at hx hv
  · cases hv
  · cases hv
  · cases hv
    cases s with
    | negative => cases hx
    | positive => exact .inl ⟨rfl, rfl⟩
  · cases hx
  · cases hv
    exact .inr ⟨m, e, .of_unpack hunpack, hunpack, rfl⟩

/-- A double that is not negative is told by its value. -/
theorem eq_of_value? (hx : isNegative x = false) (hy : isNegative y = false) (hv : value? x = some v)
    (hv' : value? y = some v) : x = y := by
  rcases eq_zero_or_is hx hv with ⟨hx, hzero⟩ | hx <;>
    rcases eq_zero_or_is hy hv' with ⟨hy, hzero'⟩ | hy
  · rw [← ofModel_pack_unpack x, hx, ← hy, ofModel_pack_unpack]
  · exact absurd hzero hy.pos.ne'
  · exact absurd hzero' hx.pos.ne'
  · have hclose : |v - v| ≤ v / 2 ^ 54 := by
      rw [sub_self, abs_zero]
      have := hx.pos
      positivity
    rw [← hx.eq_of_close hclose, hy.eq_of_close hclose]

end Value

/-! ## Rounding to a double -/

section Rounded
variable {q : ℚ} {x : Float}

theorem ofRat_of_large (hq : overflowBound ≤ q) : ofRat q = infinity := by
  have hpack : Float.Model.pack (nearest q) = Float.Model.pack (.infinity .positive) := by
    rcases le_or_gt (2 ^ 1024) q with hlarge | hsmall
    · exact pack_nearest_of_large hlarge
    -- The fraction is at least in the middle between the last two points of the last grid.
    · have hbound : (2 : ℚ) ^ 1023 ≤ q := le_trans le_overflowBound hq
      have hpos : 0 < q := lt_of_lt_of_le (by positivity) hbound
      have hlow : 1023 ≤ Int.log 2 q :=
        (Int.zpow_le_iff_le_log Nat.one_lt_two hpos).1 (by exact_mod_cast hbound)
      have hhigh : Int.log 2 q < 1024 :=
        (Int.lt_zpow_iff_log_lt Nat.one_lt_two hpos).1 (by exact_mod_cast hsmall)
      have hgrid : gridExponent q = 971 := by
        rw [gridExponent]
        omega
      have hmantissa : halfEven (q / 2 ^ (971 : ℤ)) = 2 ^ 53 := by
        refine halfEven_middle (n := 2 ^ 53 - 1) (by decide) ?_ ?_
        · rw [le_div_iff₀ (by positivity)]
          refine le_trans (le_of_eq ?_) hq
          rw [overflowBound_eq]
          norm_num
        · rw [div_lt_iff₀ (by positivity)]
          refine lt_of_lt_of_le hsmall (le_of_eq ?_)
          rw [two_pow_1024]
          norm_num
      rw [nearest, hgrid, hmantissa, ofGrid, dif_neg (by decide), if_pos rfl]
      exact pack_finite_of_large (by omega)
  rw [ofRat, hpack]
  rfl

/-- Below the bound, the point of the grid is a double. -/
theorem canonical_of_lt (hpos : 0 < q) (hq : q < overflowBound) (hn : gridMantissa q ≠ 0) :
    ∃ m e, ∃ h : Canonical m e, nearest q = .finite .positive m e h.pos ∧
      (m : ℚ) * 2 ^ e = gridMantissa q * 2 ^ gridExponent q ∧
        (gridMantissa q % 2 = 0 → m % 2 = 0) := by
  have hg : (0 : ℚ) < 2 ^ gridExponent q := by positivity
  have hle : gridMantissa q ≤ 2 ^ 53 := halfEven_grid_le hpos
  have hlow := gridExponent_low q
  have hhigh : gridExponent q ≤ 971 := by
    have hlog : Int.log 2 q < 1024 := by
      refine (Int.lt_zpow_iff_log_lt Nat.one_lt_two hpos).1 (hq.trans ?_)
      exact_mod_cast overflowBound_lt
    rw [gridExponent]
    omega
  have hnearest : nearest q = ofGrid (gridMantissa q) (gridExponent q) := rfl
  rw [hnearest, ofGrid, dif_neg hn]
  split
  · rename_i htop
    have hcarry : gridExponent q ≠ 971 := fun hlast => by
      have hlt : gridMantissa q ≤ 2 ^ 53 - 1 := by
        refine halfEven_le (div_pos hpos hg).le ?_
        rw [hlast, div_lt_iff₀ (by positivity)]
        refine lt_of_lt_of_le hq (le_of_eq ?_)
        rw [overflowBound_eq]
        norm_num
      omega
    refine ⟨2 ^ 52, gridExponent q + 1,
      ⟨by decide, by decide, by omega, by omega, .inl le_rfl⟩, rfl, ?_, fun _ => by decide⟩
    rw [htop, zpow_add_one₀ two_ne_zero]
    push_cast
    ring
  · rename_i htop
    refine ⟨gridMantissa q, gridExponent q,
      ⟨Nat.pos_of_ne_zero hn, by omega, hlow, hhigh, ?_⟩, rfl, rfl, id⟩
    rcases hlow.lt_or_eq with hlt | heq
    · refine .inl (le_halfEven ?_)
      rw [le_div_iff₀ hg]
      exact_mod_cast le_of_gridExponent hpos hlt
    · exact .inr heq.symm

theorem ofRat_of_unpack {m : Nat} {e : ℤ} (h : Canonical m e)
    (hq : nearest q = .finite .positive m e h.pos) :
    (ofRat q).toModel.unpack = .finite .positive m e h.pos := by
  rw [← h.unpack_pack .positive, ← hq]
  rfl

/-- Below the bound, a fraction is rounded to the point of its grid. -/
theorem ofRat_of_lt (hpos : 0 < q) (hq : q < overflowBound) :
    isNegative (ofRat q) = false ∧
      value? (ofRat q) = some ((gridMantissa q : ℚ) * 2 ^ gridExponent q) ∧
        (gridMantissa q % 2 = 0 → EvenMantissa (ofRat q)) := by
  by_cases hn : gridMantissa q = 0
  · have hzero : nearest q = .zero .positive := by
      change ofGrid (gridMantissa q) (gridExponent q) = _
      rw [ofGrid, dif_pos hn]
    have hunpack : (ofRat q).toModel.unpack = .zero .positive := by
      rw [ofRat, hzero]
      rfl
    simp [isNegative, value?, EvenMantissa, hunpack, hn]
  · obtain ⟨m, e, hcanonical, hnearest, hvalue, heven⟩ := canonical_of_lt hpos hq hn
    have hunpack := ofRat_of_unpack hcanonical hnearest
    have his : Is (ofRat q) (gridMantissa q * 2 ^ gridExponent q) :=
      ⟨m, e, hcanonical, hunpack, hvalue⟩
    exact ⟨his.isNegative, his.value?, by simpa only [EvenMantissa, hunpack] using heven⟩

theorem ofRat_zero : (ofRat 0).toModel.unpack = .zero .positive := by
  rw [ofRat, nearest_zero]
  rfl

theorem roundsTo_ofRat (hq : 0 ≤ q) : RoundsTo q (ofRat q) := by
  rcases hq.eq_or_lt with rfl | hpos
  · have hzero := ofRat_zero
    refine ⟨by rw [isNegative, hzero]; rfl, fun h => ?_, fun _ => ⟨0, by rw [value?, hzero], ?_⟩⟩
    · exact absurd (le_overflowBound.trans h) (not_le.2 (by positivity))
    · intro y u _
      rw [sub_self, abs_zero]
      exact ⟨abs_nonneg _, fun h hne => absurd (by simpa using h.symm) hne⟩
  · rcases le_or_gt overflowBound q with hlarge | hlt
    · have hinfinity := ofRat_of_large hlarge
      exact ⟨by rw [hinfinity]; rfl, fun _ => hinfinity, fun h => absurd h (not_lt.2 hlarge)⟩
    · obtain ⟨hsign, hvalue, heven⟩ := ofRat_of_lt hpos hlt
      refine ⟨hsign, fun h => absurd hlt (not_lt.2 h), fun _ => ⟨_, hvalue, fun y u hu => ?_⟩⟩
      obtain ⟨hle, htie⟩ := point_near hpos hu
      exact ⟨hle, fun heq hne => heven (htie heq hne).1⟩

/-- What a fraction is rounded to is one double. -/
theorem roundsTo_iff (hq : 0 ≤ q) : RoundsTo q x ↔ x = ofRat q := by
  refine ⟨fun h => ?_, fun h => h ▸ roundsTo_ofRat hq⟩
  have hround := roundsTo_ofRat hq
  rcases le_or_gt overflowBound q with hlarge | hlt
  · rw [h.overflow hlarge, hround.overflow hlarge]
  · obtain ⟨v, hv, hnear⟩ := h.finite hlt
    obtain ⟨u, hu, hnear'⟩ := hround.finite hlt
    have hdistance : |v - q| = |u - q| := le_antisymm (hnear _ _ hu).1 (hnear' _ _ hv).1
    refine eq_of_value? h.sign hround.sign hv ?_
    rw [hu]
    by_contra hne
    have hne : u ≠ v := fun h => hne (by rw [h])
    have heven := (hnear _ _ hu).2 hdistance hne
    -- Both would be as near, and then the mantissa of the other one is odd.
    rcases hq.eq_or_lt with rfl | hpos
    · have hzero : u = 0 := by
        rw [value?, ofRat_zero] at hu
        exact (Option.some_inj.1 hu).symm
      rw [hzero, sub_zero, sub_zero, abs_zero, abs_eq_zero] at hdistance
      exact hne (hzero.trans hdistance.symm)
    · obtain rfl : gridMantissa q * 2 ^ gridExponent q = u :=
        Option.some_inj.1 ((ofRat_of_lt hpos hlt).2.1.symm.trans hu)
      exact ((point_near hpos hv).2 hdistance.symm hne.symm).2 heven

end Rounded
end ComplexCalc.Double
