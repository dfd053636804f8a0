import ComplexCalc.Display
import ComplexCalc.Proofs.RoundedBounds
import ComplexCalc.Proofs.ShortestDecimal
/-!
# Powers of ten as doubles

A double is shown as a coefficient times a power of ten. The exponent is a logarithm that is rounded down,
so close to a power of ten it can be the one below or above. The coefficient is computed as the quotient by
the double that is nearest to the power. That double is close to the power as long as it has enough bits.
Below `10 ^ -314` it has not: there both are small multiples of the smallest double, and for some of them
the quotient is beyond ten.
-/
namespace ComplexCalc

open Double

/-! ## Rounding errors -/

namespace Double

variable {q v : ℚ} {r : ℚ}

theorem abs_halfEven_sub_le (hr : 0 ≤ r) : |(halfEven r : ℚ) - r| ≤ 1 / 2 := by
  have hlow : (⌊r⌋₊ : ℚ) ≤ r := Nat.floor_le hr
  have hhigh : r < ⌊r⌋₊ + 1 := Nat.lt_floor_add_one r
  rw [abs_le, halfEven]
  split
  · rename_i hround
    have hhalf : r - ⌊r⌋₊ ≤ 1 / 2 := by rcases hround with h | h <;> linarith
    constructor <;> linarith
  · rename_i hround
    rw [not_or, not_lt] at hround
    push_cast
    constructor <;> linarith [hround.1]

/-- A fraction is rounded by at most half a step of its grid, which is small against the fraction unless
it is the least grid. -/
theorem abs_ofRat_sub_le (hq : 0 < q) (hbound : q < overflowBound) (hv : value? (ofRat q) = some v) :
    |v - q| ≤ max (q / 2 ^ 53) (2 ^ (-1074 : ℤ) / 2) := by
  have hg : (0 : ℚ) < 2 ^ gridExponent q := by positivity
  obtain rfl : (gridMantissa q : ℚ) * 2 ^ gridExponent q = v :=
    Option.some_inj.1 ((ofRat_of_lt hq hbound).2.1.symm.trans hv)
  have hstep : |(gridMantissa q : ℚ) * 2 ^ gridExponent q - q| ≤ 2 ^ gridExponent q / 2 := by
    have hunits : (gridMantissa q : ℚ) * 2 ^ gridExponent q - q =
        (gridMantissa q - q / 2 ^ gridExponent q) * 2 ^ gridExponent q := by
      rw [sub_mul, div_mul_cancel₀ q hg.ne']
    have hhalf := abs_halfEven_sub_le (div_pos hq hg).le
    rw [hunits, abs_mul, abs_of_pos hg]
    exact (mul_le_mul_of_nonneg_right hhalf hg.le).trans_eq (one_div_mul_eq_div _ _)
  refine hstep.trans ?_
  rcases (gridExponent_low q).eq_or_lt with heq | hlt
  · rw [← heq]
    exact le_max_right _ _
  · have hle := le_of_gridExponent hq hlt
    refine le_trans ?_ (le_max_left _ _)
    rw [div_le_div_iff₀ two_pos (by positivity)]
    linarith

/-- A multiple of the smallest double. -/
def steps (n : Nat) : Ratio := ⟨n, 2 ^ 1074⟩

theorem steps_value (n : Nat) : (steps n).value = n * 2 ^ (-1074 : ℤ) := by
  rw [steps, Ratio.value, zpow_neg, div_eq_mul_inv, Nat.cast_pow, Nat.cast_ofNat, zpow_ofNat]

theorem is_steps {x : Float} {n : Nat} (hv : magnitude? x = some (steps n)) (hn : n ≠ 0)
    (hsign : isNegative x = false) : Is x (n * 2 ^ (-1074 : ℤ)) :=
  steps_value n ▸ .of_magnitude hv hn hsign

theorem Is.magnitude {x : Float} (h : Is x q) :
    ∃ v, magnitude? x = some v ∧ v.value = q ∧ 0 < v.num ∧ 0 < v.den := by
  have hpos := h.pos
  obtain ⟨m, e, hcanonical, hx, rfl⟩ := h
  have hv : magnitude? x = some (scale m e) := by rw [magnitude?, hx]
  refine ⟨scale m e, hv, scale_value m e, Nat.pos_of_ne_zero fun hzero => ?_, den_pos_of_magnitude hv⟩
  rw [← scale_value, Ratio.value, hzero] at hpos
  simp at hpos

end Double

namespace Display

variable {e : ℤ} {x : Float} {q : ℚ}

/-! ## Powers of ten -/

theorem powerOfTen_eq (e : ℤ) : powerOfTen e = ofRat (10 ^ e) := by
  rw [powerOfTen, Decimal.toFloat_eq_ofRat, Decimal.value, Nat.cast_one, one_mul]

/-- Multiples of powers of two and powers of ten below one are compared by their inverses. -/
theorem mul_two_zpow_le {a b c : Nat} (h : c * 10 ^ b ≤ 2 ^ a) :
    (c : ℚ) * 2 ^ (-(a : ℤ)) ≤ 10 ^ (-(b : ℤ)) := by
  rw [zpow_neg, zpow_neg, zpow_natCast, zpow_natCast, ← div_eq_mul_inv, div_le_iff₀ (by positivity),
    inv_mul_eq_div, le_div_iff₀ (by positivity)]
  exact_mod_cast h

theorem ten_zpow_lt_two_zpow {a b : Nat} (h : 2 ^ a < 10 ^ b) : (10 : ℚ) ^ (-(b : ℤ)) < 2 ^ (-(a : ℤ)) := by
  rw [zpow_neg, zpow_neg, zpow_natCast, zpow_natCast]
  exact inv_strictAnti₀ (by positivity) (by exact_mod_cast h)

theorem ten_zpow_le {e f : ℤ} (h : e ≤ f) : (10 : ℚ) ^ e ≤ 10 ^ f := zpow_le_zpow_right₀ (by norm_num) h

/-- Where powers of ten stand at the ends of the range of doubles: by the smallest double, half of it and
three times it, by the largest double, and the first power that is beyond all. -/
theorem powers_at_ends :
    (1 * 10 ^ 323 ≤ 2 ^ 1074 ∧ 2 ^ 1075 < 10 ^ 324) ∧
      2000000000 * 10 ^ 314 ≤ 2 ^ 1074 ∧ 10 ^ 308 ≤ 3 * 2 ^ 51 * 2 ^ 971 ∧ 2 ^ 1025 ≤ 10 ^ 309 ∧
      (2 ^ 41 + 1) * 2 ^ 1074 < (0 + 1) * 2 ^ 41 * 10 ^ 324 ∧
      2 * 2 ^ 41 * 10 ^ 323 < (2 ^ 41 - 1) * 2 ^ 1074 ∧
      (2 ^ 41 + 1) * 2 ^ 1074 < (2 + 1) * 2 ^ 41 * 10 ^ 323 := by
  decide +kernel

/-- The smallest double is below this power. -/
theorem smallest_le_ten_zpow (h : -323 ≤ e) : (2 : ℚ) ^ (-1074 : ℤ) ≤ 10 ^ e := by
  have hle := mul_two_zpow_le (a := 1074) (b := 323) (c := 1) powers_at_ends.1.1
  rw [Nat.cast_one, one_mul] at hle
  exact hle.trans (ten_zpow_le h)

theorem ten_zpow_lt_overflowBound (h : e ≤ 308) : (10 : ℚ) ^ e < overflowBound := by
  have hdouble := isDouble_grid (n := 3 * 2 ^ 51) (g := 971) (by norm_num) (by norm_num) (by norm_num)
  refine lt_of_le_of_lt ((ten_zpow_le h).trans ?_) hdouble.lt_overflowBound
  obtain ⟨-, -, hnat, -⟩ := powers_at_ends
  have hcast : ((10 ^ 308 : Nat) : ℚ) ≤ (3 * 2 ^ 51 * 2 ^ 971 : Nat) := Nat.cast_le.2 hnat
  rw [Nat.cast_mul _ (2 ^ 971), Nat.cast_pow 2, Nat.cast_pow 10] at hcast
  exact hcast

/-- Powers of ten beyond this are beyond all doubles, also by a factor of two. -/
theorem le_308_of_lt (h : (10 : ℚ) ^ e < 2 ^ 1025) : e ≤ 308 := by
  by_contra hgt
  obtain ⟨-, -, -, hnat, -⟩ := powers_at_ends
  have hcast : ((2 ^ 1025 : Nat) : ℚ) ≤ (10 ^ 309 : Nat) := Nat.cast_le.2 hnat
  rw [Nat.cast_pow, Nat.cast_pow] at hcast
  exact absurd (hcast.trans (ten_zpow_le (e := 309) (by omega))) (not_le.2 h)

/-- The double next to a power of ten. -/
theorem powerOfTen_is (hlow : -323 ≤ e) (hhigh : e ≤ 308) :
    ∃ d, Is (powerOfTen e) d ∧ IsNearest (powerOfTen e) d (10 ^ e) := by
  have hpos : (0 : ℚ) < 10 ^ e := by positivity
  rw [powerOfTen_eq]
  obtain ⟨d, hd, hnear⟩ := (roundsTo_ofRat hpos.le).finite (ten_zpow_lt_overflowBound hhigh)
  have hnearest : IsNearest (ofRat (10 ^ e)) d (10 ^ e) := ⟨hd, hnear⟩
  have hsmallest : (2 : ℚ) ^ (-1074 : ℤ) ≤ d :=
    hnearest.ge_of_isDouble isDouble_smallest (smallest_le_ten_zpow hlow)
  have hd' : Measures (ofRat (10 ^ e)) d := ⟨(roundsTo_ofRat hpos.le).sign, hd⟩
  exact ⟨d, hd'.is ((by positivity : (0 : ℚ) < 2 ^ (-1074 : ℤ)).trans_le hsmallest), hnearest⟩

/-- The power that the smallest doubles would be shown with is below half of them. -/
theorem powerOfTen_eq_zero : powerOfTen (-324) = 0.0 := by
  have hsmall : (10 : ℚ) ^ (-324 : ℤ) < 2 ^ (-1075 : ℤ) :=
    ten_zpow_lt_two_zpow (a := 1075) (b := 324) powers_at_ends.1.2
  rw [powerOfTen_eq, ofRat, nearest_of_small (by positivity) hsmall]
  rfl

/-! ## The exponent -/

end Display

/-- What is documented of the logarithm in base ten: it is off by a few units in its last place at most.
Where it is rounded down to an exponent, the number is between the powers of ten with this exponent and
with the next one, up to one part in `2 ^ 41`, which is more than three units in the last place of a
logarithm below 512. -/
structure RealFunctions.Accurate (m : RealFunctions) : Prop where
  log10_low : ∀ {x q}, Is x q → (1 - 1 / 2 ^ 41) * 10 ^ Display.exponent m x ≤ q
  log10_high : ∀ {x q}, Is x q → q ≤ (1 + 1 / 2 ^ 41) * 10 ^ (Display.exponent m x + 1)

namespace Display

variable {m : RealFunctions} {n c : Nat}

/-- So many multiples of the smallest double are below a power of ten, and the next one is so far above it
that the logarithm tells them apart. -/
def Below (c : Nat) (e : ℤ) : Prop :=
  c * 2 ^ (-1074 : ℤ) < (1 - 1 / 2 ^ 41 : ℚ) * 10 ^ e ∧
    (1 + 1 / 2 ^ 41 : ℚ) * 10 ^ e < (c + 1 : Nat) * 2 ^ (-1074 : ℤ)

theorem Below.of_nat {b : Nat} (hlow : c * 2 ^ 41 * 10 ^ b < (2 ^ 41 - 1) * 2 ^ 1074)
    (hhigh : (2 ^ 41 + 1) * 2 ^ 1074 < (c + 1) * 2 ^ 41 * 10 ^ b) : Below c (-b) := by
  have hlow : (c : ℚ) * 2 ^ 41 * 10 ^ b < (2 ^ 41 - 1) * 2 ^ 1074 := by
    have hcast : ((2 ^ 41 - 1 : Nat) : ℚ) = 2 ^ 41 - 1 := by norm_num
    rw [← hcast]
    exact_mod_cast hlow
  have hhigh : (2 ^ 41 + 1 : ℚ) * 2 ^ 1074 < (c + 1 : Nat) * 2 ^ 41 * 10 ^ b := by exact_mod_cast hhigh
  have htwo : (0 : ℚ) < 2 ^ 1074 := by positivity
  have hten : (0 : ℚ) < 10 ^ b := by positivity
  unfold Below
  rw [zpow_neg, zpow_neg, zpow_natCast, zpow_ofNat]
  generalize (2 : ℚ) ^ 1074 = two at *
  generalize (10 : ℚ) ^ b = ten at *
  rw [← div_eq_mul_inv, ← div_eq_mul_inv, ← div_eq_mul_inv, ← div_eq_mul_inv, div_lt_div_iff₀ htwo hten,
    div_lt_div_iff₀ hten htwo]
  constructor <;> linarith

/-- No positive double is below the first of these powers, and two are below the second. -/
theorem below_smallest : Below 0 (-324) ∧ Below 2 (-323) := by
  obtain ⟨-, -, -, -, hone, htwo, hthree⟩ := powers_at_ends
  have hzero : 0 * 2 ^ 41 * 10 ^ 324 < (2 ^ 41 - 1) * 2 ^ 1074 := by
    rw [zero_mul, zero_mul]
    positivity
  exact ⟨.of_nat (b := 324) hzero hone, .of_nat (b := 323) htwo hthree⟩

section Exponent
variable (hm : m.Accurate)
include hm

theorem exponent_le (h : Is x q) : exponent m x ≤ 308 := by
  refine le_308_of_lt ?_
  have hlow := hm.log10_low h
  have hpos : (0 : ℚ) < 10 ^ exponent m x := by positivity
  have hbound := h.measures.isDouble.lt_two_pow
  have hpower : (2 : ℚ) ^ 1025 = 2 * 2 ^ 1024 := pow_succ' 2 1024
  rw [hpower]
  generalize (2 : ℚ) ^ 1024 = bound at hbound ⊢
  linarith

/-- The exponent of a multiple of the smallest double is decided by its place among the powers of ten. -/
theorem exponent_lt_iff (hbelow : Below c e) (h : Is x (n * 2 ^ (-1074 : ℤ))) :
    exponent m x < e ↔ n ≤ c := by
  have hstep : (0 : ℚ) < 2 ^ (-1074 : ℤ) := by positivity
  constructor
  · intro hlt
    have hpower := ten_zpow_le (e := exponent m x + 1) (f := e) (by omega)
    have hn : (n : ℚ) * 2 ^ (-1074 : ℤ) < (c + 1 : Nat) * 2 ^ (-1074 : ℤ) :=
      (hm.log10_high h).trans_lt ((mul_le_mul_of_nonneg_left hpower (by norm_num)).trans_lt hbelow.2)
    rw [mul_lt_mul_iff_left₀ hstep, Nat.cast_lt] at hn
    exact Nat.le_of_lt_succ hn
  · intro hle
    by_contra hge
    have hpower := ten_zpow_le (e := e) (f := exponent m x) (by omega)
    have hn : (c : ℚ) * 2 ^ (-1074 : ℤ) < n * 2 ^ (-1074 : ℤ) :=
      hbelow.1.trans_le ((mul_le_mul_of_nonneg_left hpower (by norm_num)).trans (hm.log10_low h))
    rw [mul_lt_mul_iff_left₀ hstep, Nat.cast_lt] at hn
    omega

theorem exponent_eq {c' : Nat} (hlow : Below c e) (hhigh : Below c' (e + 1))
    (h : Is x (n * 2 ^ (-1074 : ℤ))) (hn : c < n) (hn' : n ≤ c') : exponent m x = e := by
  have hiff := exponent_lt_iff hm hlow h
  have hiff' := exponent_lt_iff hm hhigh h
  omega

theorem le_exponent (h : Is x (n * 2 ^ (-1074 : ℤ))) (hlarge : 3 ≤ n) : -323 ≤ exponent m x := by
  have hiff := exponent_lt_iff hm below_smallest.2 h
  omega

/-- From three times the smallest double on, the power is not zero as a double. -/
theorem powerOfTen_exponent_ne_zero (h : Is x (n * 2 ^ (-1074 : ℤ))) (hlarge : 3 ≤ n) :
    (powerOfTen (exponent m x) == 0.0) = false := by
  rw [powerOfTen_eq]
  have hbound := AtLeast.of_ofRat (by positivity) isDouble_smallest
    (smallest_le_ten_zpow (le_exponent hm h hlarge))
  exact hbound.ne_zero (by positivity)

end Exponent

/-! ## Quotients by a power -/

/-- The largest quotient that ten significant digits still round to ten. -/
def quotientLimit : ℚ := 10 + 85 / 2 ^ 34

/-- A double that is not below a power of ten, or just below it, by the double of this power. -/
theorem quotient_low (h : Is x q) {d : ℚ} (hnear : IsNearest (powerOfTen e) d (10 ^ e))
    (hlow : (1 - 1 / 2 ^ 41) * 10 ^ e ≤ q) (hd : 0 ≤ d) : (1 - 1 / 2 ^ 40) * d ≤ q := by
  rcases le_or_gt ((10 : ℚ) ^ e) q with hle | hlt
  · have hd' := hnear.le_of_isDouble h.measures.isDouble hle
    linarith
  · -- The double of the power is no farther from it than the double that is shown.
    have hdistance := (hnear.2 x q h.value?).1
    rw [abs_sub_comm q, abs_of_pos (sub_pos.2 hlt)] at hdistance
    have hd' := (abs_le.1 hdistance).2
    linarith

/-- A double up to ten times a power of ten with enough bits, by the double of the power. -/
theorem quotient_of_normal (hlow : -314 ≤ e) (hhigh : e ≤ 308) {d : ℚ} (hd : Is (powerOfTen e) d)
    (hq : q ≤ (1 + 1 / 2 ^ 41) * 10 ^ (e + 1)) : q ≤ quotientLimit * d := by
  have hpos : (0 : ℚ) < 10 ^ e := by positivity
  have herror : |d - 10 ^ e| ≤ 10 ^ e / (4 * 10 ^ 9) := by
    rw [powerOfTen_eq] at hd
    refine (abs_ofRat_sub_le hpos (ten_zpow_lt_overflowBound hhigh) hd.value?).trans (max_le ?_ ?_)
    · exact div_le_div_of_nonneg_left hpos.le (by norm_num) (by norm_num)
    · have hstep : (2000000000 : ℚ) * 2 ^ (-1074 : ℤ) ≤ 10 ^ (-314 : ℤ) :=
        mul_two_zpow_le (a := 1074) (b := 314) (c := 2000000000) powers_at_ends.2.1
      have hstep := hstep.trans (ten_zpow_le hlow)
      rw [div_le_div_iff₀ two_pos (by norm_num)]
      linarith
  rw [zpow_add_one₀ (by norm_num)] at hq
  have hd' := (abs_le.1 herror).1
  rw [quotientLimit]
  generalize (10 : ℚ) ^ e = power at *
  linarith

/-! ## Powers with few bits -/

/-- The powers of ten below `10 ^ -314` that are not zero as doubles: the exponent, the multiple of the
smallest double that the power is rounded to, and the last multiple below the next power. -/
def smallPowers : List (ℤ × Nat × Nat) :=
  [(-323, 2, 20), (-322, 20, 202), (-321, 202, 2024), (-320, 2024, 20240), (-319, 20240, 202402),
    (-318, 202402, 2024022), (-317, 2024023, 20240225), (-316, 20240225, 202402253),
    (-315, 202402253, 2024022533)]

/-- The multiples of the smallest double that are beyond ten times the double of their power. -/
def unevenSteps : List Nat :=
  [201, 202, 2021, 2022, 2023, 2024, 202401, 202402, 2024021, 2024022, 202402251, 202402252, 202402253,
    2024022532, 2024022533]

section Small
variable {u last : Nat}

theorem exists_smallPower (hlow : -323 ≤ e) (hhigh : e ≤ -315) :
    ∃ u last, (e, u, last) ∈ smallPowers := by
  have hall : ∀ k < 9, ∃ p ∈ smallPowers, p.1 = (k : Nat) - 323 := by decide
  obtain ⟨⟨e', u, last⟩, hmem, he⟩ := hall (e + 323).toNat (by omega)
  obtain rfl : e' = e := he.trans (by omega)
  exact ⟨u, last, hmem⟩

theorem smallPower_spec (h : (e, u, last) ∈ smallPowers) :
    Is (powerOfTen e) (u * 2 ^ (-1074 : ℤ)) ∧ Below last (e + 1) := by
  have hall : ∀ p ∈ smallPowers, p.1 + 1 = -((-(p.1 + 1)).toNat : ℤ) ∧ p.2.1 ≠ 0 ∧
      isNegative (powerOfTen p.1) = false ∧
      magnitude? (powerOfTen p.1) = some (steps p.2.1) ∧
      p.2.2 * 2 ^ 41 * 10 ^ (-(p.1 + 1)).toNat < (2 ^ 41 - 1) * 2 ^ 1074 ∧
      (2 ^ 41 + 1) * 2 ^ 1074 < (p.2.2 + 1) * 2 ^ 41 * 10 ^ (-(p.1 + 1)).toNat := by
    decide +kernel
  obtain ⟨hexponent, hne, hsign, hmagnitude, hbelow, habove⟩ := hall _ h
  refine ⟨is_steps hmagnitude hne hsign, ?_⟩
  rw [hexponent]
  exact .of_nat hbelow habove

theorem steps_le (h : (e, u, last) ∈ smallPowers) (hn : n ≤ last) (heven : n ∉ unevenSteps) :
    n * 2 ^ 34 ≤ (10 * 2 ^ 34 + 85) * u := by
  simp only [unevenSteps, List.mem_cons, List.not_mem_nil, or_false, not_or] at heven
  simp only [smallPowers, List.mem_cons, List.not_mem_nil, or_false, Prod.mk.injEq] at h
  rcases h with ⟨-, rfl, rfl⟩ | ⟨-, rfl, rfl⟩ | ⟨-, rfl, rfl⟩ | ⟨-, rfl, rfl⟩ | ⟨-, rfl, rfl⟩ |
    ⟨-, rfl, rfl⟩ | ⟨-, rfl, rfl⟩ | ⟨-, rfl, rfl⟩ | ⟨-, rfl, rfl⟩ <;> omega

/-- A multiple of the smallest double below `10 ^ -314`, by the double of its power. -/
theorem quotient_of_small (h : (e, u, last) ∈ smallPowers) (hn : n ≤ last) (heven : n ∉ unevenSteps) :
    (n : ℚ) * 2 ^ (-1074 : ℤ) ≤ quotientLimit * (u * 2 ^ (-1074 : ℤ)) := by
  have hle : (n : ℚ) * 2 ^ 34 ≤ (10 * 2 ^ 34 + 85) * u := by exact_mod_cast steps_le h hn heven
  have hquotient : (n : ℚ) ≤ quotientLimit * u := by
    rw [quotientLimit]
    linarith
  rw [← mul_assoc]
  exact mul_le_mul_of_nonneg_right hquotient (by positivity)

/-- Apart from a few multiples of the smallest double, a double by the double of the power of ten it is
shown with is at most a tiny bit below one and at most a tiny bit beyond ten. -/
theorem quotient_bounds (hm : m.Accurate) (h : Is x (n * 2 ^ (-1074 : ℤ))) (hlarge : 3 ≤ n)
    (heven : n ∉ unevenSteps) : ∃ d, Is (powerOfTen (exponent m x)) d ∧
      (1 - 1 / 2 ^ 40) * d ≤ n * 2 ^ (-1074 : ℤ) ∧ n * 2 ^ (-1074 : ℤ) ≤ quotientLimit * d := by
  have hlow := le_exponent hm h hlarge
  have hhigh := exponent_le hm h
  obtain ⟨d, hd, hnear⟩ := powerOfTen_is hlow hhigh
  refine ⟨d, hd, quotient_low h hnear (hm.log10_low h) hd.pos.le, ?_⟩
  rcases le_or_gt (-314) (exponent m x) with hnormal | hsmall
  · exact quotient_of_normal hnormal hhigh hd (hm.log10_high h)
  · obtain ⟨u, last, hmem⟩ := exists_smallPower hlow (by omega)
    obtain ⟨hd', hlast⟩ := smallPower_spec hmem
    obtain rfl : u * 2 ^ (-1074 : ℤ) = d := Option.some_inj.1 (hd'.value?.symm.trans hd.value?)
    exact quotient_of_small hmem ((exponent_lt_iff hm hlast h).1 (by omega)) heven

end Small

end Display
end ComplexCalc
