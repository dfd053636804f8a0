import ComplexCalc.Eval
import ComplexCalc.Proofs.ExactArithmetic
import ComplexCalc.Proofs.LiteralValues
import ComplexCalc.Proofs.RoundedBounds
/-!
# The modulus

The modulus of two integers is computed exactly, as the remainder of the division that rounds down, and
then rounded to the nearest double. Rounding keeps it an integer and does not move it past zero or past
the divisor, but it may move it up to the divisor. It leaves the remainder alone wherever that is a
double: for operands that do not have opposite signs, and for divisors up to `2 ^ 53`.
-/
namespace ComplexCalc

open Double

/-! ## Integers as doubles -/

namespace Double.IsNearest

/-- A natural number is rounded to a natural number. -/
theorem ofRat_natCast {n : Nat} (hn : (n : ℚ) < 2 ^ 1023) :
    ∃ k : Nat, IsNearest (ofRat n) k n := by
  have hbound := hn.trans_le le_overflowBound
  obtain ⟨v, hnearest⟩ := (roundsTo_ofRat (Nat.cast_nonneg n)).finite hbound
  rcases Nat.lt_or_ge (2 ^ 53) n with hlarge | hsmall
  · -- Beyond `2 ^ 53` the grid consists of integers.
    have hpos : (0 : ℚ) < n := by exact_mod_cast Nat.zero_lt_of_lt hlarge
    have hgrid : 0 ≤ gridExponent n := by
      have hlog : 53 ≤ Int.log 2 (n : ℚ) :=
        (Int.zpow_le_iff_le_log Nat.one_lt_two hpos).1 (by exact_mod_cast hlarge.le)
      rw [gridExponent]
      omega
    obtain ⟨g, hg⟩ := Int.eq_ofNat_of_zero_le hgrid
    have hv := (ofRat_of_lt hpos hbound).2.1
    refine ⟨gridMantissa n * 2 ^ g, ?_⟩
    have hinteger : v = (gridMantissa n * 2 ^ g : Nat) := by
      rw [hv, hg, zpow_natCast, Option.some_inj] at hnearest
      rw [← hnearest.1]
      push_cast
      rfl
    exact hinteger ▸ hnearest
  · exact ⟨n, eq_of_isDouble hnearest (isDouble_natCast hsmall) ▸ hnearest⟩

/-- An integer is rounded to an integer. -/
theorem ofInt {n : ℤ} (hn : |n| < 2 ^ 1023) : ∃ k : ℤ, IsNearest (Float.ofInt n) k n := by
  have hofNat : ∀ a : Nat, (a : ℚ) < 2 ^ 1023 → ∃ k : ℤ, IsNearest (Float.ofInt a) k a := fun a ha => by
    have hrat : Float.ofInt a = ofRat a := congrArg Number.re (BasedLiteral.ofInt_natCast a)
    obtain ⟨k, hk⟩ := ofRat_natCast ha
    exact ⟨k, hrat ▸ hk⟩
  have hnat : (n.natAbs : ℚ) < 2 ^ 1023 := by
    rw [Int.abs_eq_natAbs] at hn
    exact_mod_cast hn
  obtain ⟨k, hk⟩ := hofNat n.natAbs hnat
  cases n with
  | ofNat a => exact ⟨k, hk⟩
  | negSucc a =>
    have hneg : Float.ofInt (.negSucc a) = -Float.ofInt (a + 1 : Nat) := rfl
    refine ⟨-k, ?_⟩
    rw [hneg, Int.cast_negSucc, Int.cast_neg]
    exact hk.neg

end Double.IsNearest

/-! ## Remainders -/

section Remainders
variable {b n : ℤ}

/-- The integer is one of those that rounding down leaves: from zero up to the divisor or, if that is
negative, from the divisor up to zero, without the divisor itself. -/
def IsResidue (n k : ℤ) : Prop := (0 < n → 0 ≤ k ∧ k < n) ∧ (n < 0 → n < k ∧ k ≤ 0)

theorem isResidue_fmod (b n : ℤ) : IsResidue n (b.fmod n) := by
  refine ⟨fun h => ⟨Int.fmod_nonneg_of_pos b h, Int.fmod_lt_of_pos b h⟩, fun h => ?_⟩
  have hlow := Int.fmod_nonneg_of_pos (-b) (Int.neg_pos_of_neg h)
  have hhigh := Int.fmod_lt_of_pos (-b) (Int.neg_pos_of_neg h)
  rw [Int.neg_fmod_neg] at hlow hhigh
  omega

theorem IsResidue.abs_lt_abs {k : ℤ} (hn : n ≠ 0) (h : IsResidue n k) : |k| < |n| := by
  rcases lt_or_gt_of_ne hn with hneg | hpos
  · have := h.2 hneg
    rw [abs_of_neg hneg, abs_lt]
    omega
  · have := h.1 hpos
    rw [abs_of_pos hpos, abs_lt]
    omega

theorem fmod_modEq (b n : ℤ) : b.fmod n ≡ b [ZMOD n] :=
  Int.modEq_iff_dvd.2 ⟨b.fdiv n, (Int.mul_fdiv_self b n).symm⟩

/-- There is only one residue that is congruent to an integer. -/
theorem IsResidue.eq_fmod {k : ℤ} (hn : n ≠ 0) (h : IsResidue n k) (hk : k ≡ b [ZMOD n]) :
    k = b.fmod n := by
  have hdvd : n ∣ b.fmod n - k := Int.modEq_iff_dvd.1 (hk.trans (fmod_modEq b n).symm)
  have hfmod := isResidue_fmod b n
  have hlt : |b.fmod n - k| < |n| := by
    rcases lt_or_gt_of_ne hn with hneg | hpos
    · obtain ⟨hk1, hk2⟩ := h.2 hneg
      obtain ⟨hf1, hf2⟩ := hfmod.2 hneg
      rw [abs_of_neg hneg, abs_lt]
      omega
    · obtain ⟨hk1, hk2⟩ := h.1 hpos
      obtain ⟨hf1, hf2⟩ := hfmod.1 hpos
      rw [abs_of_pos hpos, abs_lt]
      omega
  have hzero := Int.eq_zero_of_abs_lt_dvd ((abs_dvd _ _).2 hdvd) hlt
  omega

/-- Without opposite signs, absolute values are divided. -/
theorem natAbs_fmod (h : 0 ≤ b * n) : (b.fmod n).natAbs = b.natAbs % n.natAbs := by
  have hnat : ∀ c m : Nat, ((c : ℤ).fmod m).natAbs = c % m := fun c m => by
    rw [← Int.ofNat_fmod, Int.natAbs_natCast]
  rcases mul_nonneg_iff.1 h with ⟨hb, hn⟩ | ⟨hb, hn⟩
  · obtain ⟨c, rfl⟩ := Int.eq_ofNat_of_zero_le hb
    obtain ⟨m, rfl⟩ := Int.eq_ofNat_of_zero_le hn
    exact hnat c m
  · obtain ⟨c, rfl⟩ := Int.exists_eq_neg_ofNat hb
    obtain ⟨m, rfl⟩ := Int.exists_eq_neg_ofNat hn
    rw [Int.neg_fmod_neg, Int.natAbs_neg, Int.natAbs_neg, Int.natAbs_neg]
    exact hnat c m

/-- Beyond `2 ^ 53`, the grids of doubles consist of integers. -/
theorem exists_grid {n : Nat} (hn : IsDouble n) (hlarge : 2 ^ 53 < n) :
    ∃ m g : Nat, Canonical m g ∧ n = m * 2 ^ g := by
  obtain ⟨m, e, hcanonical, hvalue⟩ := hn.canonical (by exact_mod_cast Nat.zero_lt_of_lt hlarge)
  have he : 0 ≤ e := by
    by_contra hneg
    have hm : (m : ℚ) < 2 ^ 53 := by exact_mod_cast hcanonical.mantissa
    have hle : (m : ℚ) * 2 ^ e ≤ m * 1 := by
      gcongr
      exact zpow_le_one_of_nonpos₀ one_le_two (not_le.1 hneg).le
    have hn : (2 : ℚ) ^ 53 < n := by exact_mod_cast hlarge
    linarith
  obtain ⟨g, rfl⟩ := Int.eq_ofNat_of_zero_le he
  exact ⟨m, g, hcanonical, by exact_mod_cast hvalue.symm⟩

/-- The remainder of a double by a double is a point of the grid of the divisor. -/
theorem isDouble_mod {b n : Nat} (hb : IsDouble b) (hn : IsDouble n) :
    IsDouble ((b % n : Nat) : ℚ) := by
  rcases Nat.lt_or_ge b n with hlt | hge
  · rw [Nat.mod_eq_of_lt hlt]
    exact hb
  rcases Nat.lt_or_ge (2 ^ 53) n with hlarge | hsmall
  · obtain ⟨m, g, hm, rfl⟩ := exists_grid hn hlarge
    obtain ⟨m', g', hm', rfl⟩ := exists_grid hb (hlarge.trans_le hge)
    have hgrid : g ≤ g' := by
      by_contra hcoarse
      have hless := hm'.lt hm (.inl (by omega))
      exact absurd hge (not_le.2 (by exact_mod_cast hless))
    obtain ⟨d, rfl⟩ := Nat.exists_eq_add_of_le hgrid
    have hmod : m' * 2 ^ (g + d) % (m * 2 ^ g) = m' * 2 ^ d % m * 2 ^ g := by
      rw [← Nat.mul_mod_mul_right, pow_add]
      congr 1
      ring
    rw [hmod, Nat.cast_mul, Nat.cast_pow, Nat.cast_ofNat, ← zpow_natCast]
    exact isDouble_grid ((Nat.mod_lt _ hm.pos).trans hm.mantissa) (by omega) hm.high
  · rcases Nat.eq_zero_or_pos n with rfl | hpos
    · rw [Nat.mod_zero]
      exact hb
    · exact isDouble_natCast ((Nat.mod_lt b hpos).le.trans hsmall)

/-- The remainder is a double if the operands do not have opposite signs or the divisor is small. -/
theorem isDouble_fmod (hb : IsDouble (b : ℚ)) (hn : IsDouble (n : ℚ))
    (h : 0 ≤ b * n ∨ |n| ≤ 2 ^ 53) : IsDouble (b.fmod n : ℚ) := by
  rcases h with h | h
  · rw [← isDouble_natAbs_iff, natAbs_fmod h]
    exact isDouble_mod (isDouble_natAbs_iff.2 hb) (isDouble_natAbs_iff.2 hn)
  · rcases eq_or_ne n 0 with rfl | hzero
    · rwa [Int.fmod_zero]
    · exact isDouble_intCast (((isResidue_fmod b n).abs_lt_abs hzero).le.trans h)

end Remainders

/-! ## The modulus -/

/-- The number is real and an integer, and no double is nearer to the remainder. It is not beyond zero
or the divisor, and it obeys the law of the modulus if and only if the remainder is a double. -/
structure RoundedRemainder (b n : ℤ) (r : Number) (k : ℤ) : Prop where
  real : r.isReal = true
  integer : Double.integer? r.re = some k
  nearest : IsNearest r.re k (b.fmod n)
  within : (0 < n → 0 ≤ k ∧ k ≤ n) ∧ (n < 0 → n ≤ k ∧ k ≤ 0)
  law : k ≡ b [ZMOD n] ∧ IsResidue n k ↔ IsDouble (b.fmod n : ℚ)

/-- The integer of 64 bits that a value is, if it is one. -/
def Value.integer? : Value → Option ℤ
  | .none => Option.none
  | .number z => z.integer?

theorem Value.expectInteger_eq (v : Value) : v.expectInteger = match v.integer? with
    | some n => .ok n
    | Option.none => noValue (.notInteger (.value v)) := by
  cases v with
  | none => rfl
  | number z =>
    unfold Value.expectInteger Native.expectInteger Value.integer?
    rfl

theorem Value.isDouble_of_integer? {v : Value} {n : ℤ} (h : v.integer? = some n) :
    IsDouble (n : ℚ) ∧ |n| ≤ 2 ^ 63 := by
  cases v with
  | none => cases h
  | number z =>
    obtain ⟨-, hre, hlow, hhigh⟩ := Number.integer?_eq_some_iff.1 h
    exact ⟨⟨z.re, integer?_eq_some_iff.1 hre⟩, abs_le.2 ⟨by omega, by omega⟩⟩

theorem roundedRemainder_ofInt (b : ℤ) {n : ℤ} (hn : n ≠ 0) (hdouble : IsDouble (n : ℚ))
    (hsize : |n| ≤ 2 ^ 63) : ∃ k, RoundedRemainder b n (.ofInt (b.fmod n)) k := by
  have hresidue := isResidue_fmod b n
  have hlt : |b.fmod n| < 2 ^ 1023 :=
    (hresidue.abs_lt_abs hn).trans_le (hsize.trans (pow_le_pow_right₀ (by norm_num) (by norm_num)))
  obtain ⟨k, hk⟩ := IsNearest.ofInt hlt
  have hzero : IsDouble ((0 : ℤ) : ℚ) := isDouble_intCast (by norm_num)
  have hle : ∀ {m : ℤ}, IsDouble (m : ℚ) → b.fmod n ≤ m → k ≤ m := fun hm h => by
    exact_mod_cast hk.le_of_isDouble hm (by exact_mod_cast h)
  have hge : ∀ {m : ℤ}, IsDouble (m : ℚ) → m ≤ b.fmod n → m ≤ k := fun hm h => by
    exact_mod_cast hk.ge_of_isDouble hm (by exact_mod_cast h)
  have hreal : (Number.ofInt (b.fmod n)).isReal = true := (beq_zero_iff 0.0).2 ⟨.positive, unpack_zero⟩
  refine ⟨k, hreal, integer?_eq_some_iff.2 hk.1, hk, ⟨fun h => ?_, fun h => ?_⟩, fun ⟨hmod, hk'⟩ => ?_,
    fun h => ?_⟩
  · obtain ⟨hlow, hhigh⟩ := hresidue.1 h
    exact ⟨hge hzero hlow, hle hdouble hhigh.le⟩
  · obtain ⟨hlow, hhigh⟩ := hresidue.2 h
    exact ⟨hge hdouble hlow.le, hle hzero hhigh⟩
  · exact hk'.eq_fmod hn hmod ▸ ⟨_, hk.1⟩
  · have heq : k = b.fmod n := by exact_mod_cast hk.eq_of_isDouble h
    exact heq ▸ ⟨fmod_modEq b n, hresidue⟩

section Run
variable {m : RealFunctions} {left right : EvalM Value} {w w₁ w₂ : Workspace} {v u : Value}

theorem expectInteger_apply (hl : left w = (.ok v, w₁)) :
    Rule.expectInteger left w = (v.expectInteger, w₁) := by
  unfold Rule.expectInteger
  rw [Action.bind_ok hl]
  rfl

theorem mod_not_integer_left (hl : left w = (.ok v, w₁)) (hv : v.integer? = none) :
    Rule.binary m .mod left right w = (noValue (.notInteger (.value v)), w₁) := by
  have hleft := expectInteger_apply hl
  rw [Value.expectInteger_eq, hv] at hleft
  exact Action.bind_error hleft

theorem mod_not_integer_right {b : ℤ} (hl : left w = (.ok v, w₁)) (hr : right w₁ = (.ok u, w₂))
    (hv : v.integer? = some b) (hu : u.integer? = none) :
    Rule.binary m .mod left right w = (noValue (.notInteger (.value u)), w₂) := by
  have hleft := expectInteger_apply hl
  have hright := expectInteger_apply hr
  rw [Value.expectInteger_eq, hv] at hleft
  rw [Value.expectInteger_eq, hu] at hright
  exact (Action.bind_ok hleft).trans (Action.bind_error hright)

theorem mod_integers {b n : ℤ} (hl : left w = (.ok v, w₁)) (hr : right w₁ = (.ok u, w₂))
    (hv : v.integer? = some b) (hu : u.integer? = some n) :
    Rule.binary m .mod left right w =
      (if n = 0 then noValue .divisionByZero else .ok (.number (.ofInt (b.fmod n))), w₂) := by
  have hleft := expectInteger_apply hl
  have hright := expectInteger_apply hr
  rw [Value.expectInteger_eq, hv] at hleft
  rw [Value.expectInteger_eq, hu] at hright
  refine (Action.bind_ok hleft).trans ((Action.bind_ok hright).trans ?_)
  unfold Rule.modulus
  split <;> rfl

/-- The modulus of two values. The left one is found to be no integer before the right one is evaluated.
Of two values, it is an argument error unless both are integers, the error of a division if the divisor
is zero, and otherwise the remainder of the division that rounds down, as near as a double can be to it.
This obeys the law of the modulus at operands without opposite signs and at divisors up to `2 ^ 53`. -/
theorem modulus_is_rounded_remainder (hl : left w = (.ok v, w₁)) :
    (v.integer? = none →
      Rule.binary m .mod left right w = (noValue (.notInteger (.value v)), w₁)) ∧
    ∀ u w₂, right w₁ = (.ok u, w₂) →
      ((∃ e : EvalError, (Rule.binary m .mod left right w).1 = noValue e ∧ e.kind = .argument) ↔
        v.integer? = none ∨ u.integer? = none) ∧
      ((Rule.binary m .mod left right w).1 = noValue .divisionByZero ↔
        (∃ b, v.integer? = some b) ∧ u.integer? = some 0) ∧
      ∀ b n, v.integer? = some b → u.integer? = some n → n ≠ 0 → ∃ r k,
        (Rule.binary m .mod left right w).1 = .ok (.number r) ∧ RoundedRemainder b n r k ∧
          (0 ≤ b * n ∨ |n| ≤ 2 ^ 53 → k ≡ b [ZMOD n] ∧ IsResidue n k) := by
  refine ⟨mod_not_integer_left hl, fun u w₂ hr => ?_⟩
  rcases hb : v.integer? with - | b
  · rw [mod_not_integer_left hl hb]
    refine ⟨iff_of_true ⟨_, rfl, rfl⟩ (.inl rfl), iff_of_false (fun h => by cases h) ?_, ?_⟩
    · rintro ⟨⟨b, h⟩, -⟩
      cases h
    · intro b n h
      cases h
  rcases hn : u.integer? with - | n
  · rw [mod_not_integer_right hl hr hb hn]
    refine ⟨iff_of_true ⟨_, rfl, rfl⟩ (.inr rfl), iff_of_false (fun h => by cases h) ?_, ?_⟩
    · rintro ⟨-, h⟩
      cases h
    · intro b n _ h
      cases h
  rw [mod_integers hl hr hb hn]
  have hintegers : ¬(some b = none ∨ some n = none) := by simp
  rcases eq_or_ne n 0 with rfl | hzero
  · rw [if_pos rfl]
    refine ⟨iff_of_false ?_ hintegers, iff_of_true rfl ⟨⟨b, rfl⟩, rfl⟩, ?_⟩
    · rintro ⟨e, he, hkind⟩
      cases he
      cases hkind
    · rintro b' n' - hn' hne
      exact absurd (Option.some_inj.1 hn').symm hne
  · rw [if_neg hzero]
    refine ⟨iff_of_false ?_ hintegers, iff_of_false (fun h => by cases h) ?_, ?_⟩
    · rintro ⟨e, he, -⟩
      cases he
    · rintro ⟨-, h⟩
      exact hzero (Option.some_inj.1 h)
    · rintro _ _ ⟨⟩ ⟨⟩ -
      obtain ⟨hdouble, hsize⟩ := Value.isDouble_of_integer? hn
      obtain ⟨k, hk⟩ := roundedRemainder_ofInt b hzero hdouble hsize
      have hdividend := (Value.isDouble_of_integer? hb).1
      exact ⟨_, k, rfl, hk, fun h => hk.law.2 (isDouble_fmod hdividend hdouble h)⟩

theorem modulus_is_rounded_remainder_of_minus_five :
    ∃ r k, (Rule.binary .machine .mod (pure (.number (.ofReal (-5.0))))
        (pure (.number (.ofReal 3.0))) (.fresh default true (.fresh false))).1 = .ok (.number r) ∧
      RoundedRemainder (-5) 3 r k ∧ k ≡ -5 [ZMOD 3] ∧ IsResidue 3 k := by
  have hrun : ∀ z : Number, (pure (.number z) : EvalM Value) (.fresh default true (.fresh false)) =
      (.ok (.number z), .fresh default true (.fresh false)) := fun _ => rfl
  obtain ⟨r, k, hr, hk, hlaw⟩ := ((modulus_is_rounded_remainder (hrun (.ofReal (-5.0)))).2 _ _
    (hrun (.ofReal 3.0))).2.2 (-5) 3 (by decide +kernel) (by decide +kernel) (by decide)
  exact ⟨r, k, hr, hk, hlaw (.inr (by norm_num))⟩

/-- The number that a result is. -/
def numberOf : Except Failure Value → Option Number
  | .ok (.number z) => some z
  | _ => none

theorem numberOf_eq_some {r : Except Failure Value} {z : Number} :
    numberOf r = some z ↔ r = .ok (.number z) := by
  rcases r with - | - | z' <;> simp [numberOf]

/-- The remainder of minus one by a large power of two is one less than the power, which is no double. It
is rounded to the power itself. -/
theorem modulus_reaches_divisor :
    (∃ r, (EvalM.evalText .standard "-1 mod 2**62" (.fresh default true (.fresh false))).1 =
        .ok (.number r) ∧ Double.integer? r.re = some (2 ^ 62)) ∧
      ¬IsResidue (2 ^ 62) (2 ^ 62) ∧ ¬(2 ^ 62 ≡ -1 [ZMOD 2 ^ 62]) := by
  have hresult : ((numberOf (EvalM.evalText .standard "-1 mod 2**62"
      (.fresh default true (.fresh false))).1).bind fun r => Double.integer? r.re) = some (2 ^ 62) := by
    decide +kernel
  obtain ⟨r, hr, hvalue⟩ := Option.bind_eq_some_iff.1 hresult
  exact ⟨⟨r, numberOf_eq_some.1 hr, hvalue⟩, fun h => absurd (h.1 (by norm_num)).2 (lt_irrefl _),
    by decide⟩

end Run

end ComplexCalc
