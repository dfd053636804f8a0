import ComplexCalc.Proofs.ExactArithmetic
import ComplexCalc.Proofs.SignedZeros
/-!
# Opposites

The sign of a double is packed beside its exponent and its mantissa, so that the opposite of a result is
the result with the opposite sign. Hence quotients of opposites are opposites. Sums, products and
quotients of finite doubles may be infinite, but they are numbers.
-/
namespace ComplexCalc.Double

open Float.Model Float.Model.UnpackedFloat

variable {x y : Float} {u : ℚ}

/-! ## Packing with a sign -/

/-- The sign of a finite double is packed beside bits that do not depend on it. They are none of the bits
of a NaN. -/
theorem exists_packComponents (m : Nat) (e : ℤ) (h : 0 < m) :
    ∃ (biased : BitVec Format.binary64.exponentBits)
      (fraction : BitVec Format.binary64.mantissaBitsWithoutImplicit),
      (biased = -1#_ → fraction = 0#_) ∧ ∀ s, UnpackedFloat.pack .binary64 (.finite s m e h) =
        packComponents .binary64 s biased fraction := by
  simp only [UnpackedFloat.pack]
  generalize (e + Format.binary64.exponentBias +
    Format.binary64.mantissaBitsWithoutImplicit).toNat = biased
  split
  · exact ⟨-1#_, 0#_, fun _ => rfl, fun _ => rfl⟩
  · rename_i hfinite
    change ¬2 ^ 11 ≤ biased + 1 at hfinite
    split
    · refine ⟨_, _, fun htop => absurd (congrArg BitVec.toNat htop) ?_, fun _ => rfl⟩
      change (BitVec.ofNat 11 biased).toNat ≠ 2 ^ 11 - 1
      rw [BitVec.toNat_ofNat, Nat.mod_eq_of_lt (by omega)]
      omega
    · exact ⟨_, _, fun htop => absurd (congrArg BitVec.toNat htop) (by decide), fun _ => rfl⟩

theorem unpack_packComponents_neg (s : Sign) (biased : BitVec Format.binary64.exponentBits)
    (fraction : BitVec Format.binary64.mantissaBitsWithoutImplicit) :
    unpack .binary64 (packComponents .binary64 (-s) biased fraction) =
      (unpack .binary64 (packComponents .binary64 s biased fraction)).neg := by
  simp only [UnpackedFloat.unpack, unpackSign_packComponents, unpackExponent_packComponents,
    unpackMantissa_packComponents, Sign.ofBitVec_toBitVec]
  split
  · split <;> rfl
  · split
    · split <;> rfl
    · rfl

theorem unpack_pack_neg (u : UnpackedFloat) :
    (Float.Model.pack u.neg).unpack = (Float.Model.pack u).unpack.neg := by
  change unpack .binary64 (UnpackedFloat.pack .binary64 u.neg) =
    (unpack .binary64 (UnpackedFloat.pack .binary64 u)).neg
  cases u with
  | notANumber => rfl
  | infinity s => exact unpack_packComponents_neg s _ _
  | zero s => exact unpack_packComponents_neg s _ _
  | finite s m e h =>
    obtain ⟨biased, fraction, -, hpack⟩ := exists_packComponents m e h
    rw [UnpackedFloat.neg, hpack, hpack]
    exact unpack_packComponents_neg s biased fraction

theorem unpackedNeg_neg (u : UnpackedFloat) : u.neg.neg = u := by
  rcases u with ⟨_ | _⟩ | _ | ⟨_ | _⟩ | ⟨_ | _, m, e, h⟩ <;> rfl

theorem unpack_neg (x : Float) : (-x).toModel.unpack = x.toModel.unpack.neg := by
  have hneg : (-x).toModel.unpack = (Float.Model.pack x.toModel.unpack.neg).unpack := rfl
  have hx : (Float.Model.pack x.toModel.unpack).unpack = x.toModel.unpack :=
    congrArg (fun z : Float => z.toModel.unpack) (ofModel_pack_unpack x)
  rw [hneg, unpack_pack_neg, hx]

theorem neg_ofModel (u : UnpackedFloat) :
    -Float.ofModel (Float.Model.pack u) = Float.ofModel (Float.Model.pack u.neg) := by
  have hunpack : (-Float.ofModel (Float.Model.pack u)).toModel.unpack =
      (Float.ofModel (Float.Model.pack u.neg)).toModel.unpack :=
    (unpack_neg _).trans (unpack_pack_neg u).symm
  rw [← ofModel_pack_unpack (-_), hunpack, ofModel_pack_unpack]

theorem isFinite_neg (x : Float) : (-x).isFinite = x.isFinite := by
  change (-x).toModel.unpack.isFinite = x.toModel.unpack.isFinite
  rw [unpack_neg]
  cases x.toModel.unpack <;> rfl

theorem beq_zero_neg (x : Float) : (-x == 0.0) = (x == 0.0) := by
  rw [Bool.eq_iff_iff, beq_zero_iff, beq_zero_iff, unpack_neg]
  rcases x.toModel.unpack with _ | _ | s | _ <;> simp [UnpackedFloat.neg]

/-- The opposite of the opposite of a number. -/
theorem opposite_opposite (x : Float) : - -x = x := by
  rw [← ofModel_pack_unpack (- -x), unpack_neg, unpack_neg, unpackedNeg_neg, ofModel_pack_unpack]

/-! ## Operations on opposites -/

theorem abs_of_negative (h : isNegative x = true) : x.abs = -x := by
  have hunpack : x.toModel.unpack.abs = x.toModel.unpack.neg := by
    unfold isNegative at h
    rcases hx : x.toModel.unpack with ⟨_ | _⟩ | _ | ⟨_ | _⟩ | ⟨_ | _, m, e, hm⟩ <;> rw [hx] at h <;>
      first | rfl | exact absurd h Bool.false_ne_true
  rw [← ofModel_pack_unpack x.abs, unpack_abs, hunpack, ← unpack_neg, ofModel_pack_unpack]

theorem roundWithAccuracy_neg (s : Sign) (m : Nat) (e : ℤ) (acc : Accuracy) :
    roundWithAccuracy .binary64 (-s) m e acc = (roundWithAccuracy .binary64 s m e acc).neg := by
  rw [roundWithAccuracy_eq_withSign (-s), roundWithAccuracy_eq_withSign s]
  cases s with
  | positive => rfl
  | negative => exact (unpackedNeg_neg _).symm

theorem sign_neg_div (s t : Sign) : -s / t = -(s / t) := by cases s <;> cases t <;> rfl

theorem sign_div_neg (s t : Sign) : s / -t = -(s / t) := by cases s <;> cases t <;> rfl

theorem div_eq_ofModel (x y : Float) : x / y = Float.ofModel (Float.Model.pack
    (UnpackedFloat.div .binary64 x.toModel.unpack y.toModel.unpack)) := rfl

theorem opposite_div (x y : Float) : -x / y = -(x / y) := by
  rw [div_eq_ofModel, div_eq_ofModel, neg_ofModel, unpack_neg]
  congr 2
  rcases x.toModel.unpack with s | _ | s | ⟨s, m, e, hm⟩ <;>
    rcases y.toModel.unpack with t | _ | t | ⟨t, m', e', hm'⟩ <;>
      simp only [UnpackedFloat.div, UnpackedFloat.neg, sign_neg_div, roundWithAccuracy_neg]

theorem div_opposite (x y : Float) : x / -y = -(x / y) := by
  rw [div_eq_ofModel, div_eq_ofModel, neg_ofModel, unpack_neg]
  congr 2
  rcases x.toModel.unpack with s | _ | s | ⟨s, m, e, hm⟩ <;>
    rcases y.toModel.unpack with t | _ | t | ⟨t, m', e', hm'⟩ <;>
      simp only [UnpackedFloat.div, UnpackedFloat.neg, sign_div_neg, roundWithAccuracy_neg]

/-- A quotient of opposites is the quotient. -/
theorem opposite_div_opposite (x y : Float) : -x / -y = x / y := by
  rw [opposite_div, div_opposite, opposite_opposite]

theorem opposite_mul_opposite (x y : Float) : -x * -y = x * y := by
  have hmul : ∀ x y : Float, x * y = Float.ofModel (Float.Model.pack
      (UnpackedFloat.mul .binary64 x.toModel.unpack y.toModel.unpack)) := fun _ _ => rfl
  rw [hmul, hmul, unpack_neg, unpack_neg]
  congr 2
  rcases x.toModel.unpack with ⟨_ | _⟩ | _ | ⟨_ | _⟩ | ⟨_ | _, m, e, hm⟩ <;>
    rcases y.toModel.unpack with ⟨_ | _⟩ | _ | ⟨_ | _⟩ | ⟨_ | _, m', e', hm'⟩ <;> rfl

theorem add_commutes (x y : Float) : x + y = y + x := by
  have hadd : ∀ x y : Float, x + y = Float.ofModel (Float.Model.pack
      (UnpackedFloat.add .binary64 x.toModel.unpack y.toModel.unpack)) := fun _ _ => rfl
  rw [hadd, hadd]
  congr 2
  rcases x.toModel.unpack with ⟨_ | _⟩ | _ | ⟨_ | _⟩ | ⟨s, m, e, hm⟩ <;>
    rcases y.toModel.unpack with ⟨_ | _⟩ | _ | ⟨_ | _⟩ | ⟨t, m', e', hm'⟩ <;> try rfl
  simp only [UnpackedFloat.add, min_comm e' e, Int.add_comm (t.apply _)]

/-! ## Values of finite doubles -/

theorem unpack_of_isFinite (h : x.isFinite = true) : (∃ s, x.toModel.unpack = .zero s) ∨
    ∃ s m e hm, x.toModel.unpack = .finite s m e hm := by
  change x.toModel.unpack.isFinite = true at h
  revert h
  rcases x.toModel.unpack with s | _ | s | ⟨s, m, e, hm⟩ <;> intro h
  · cases h
  · cases h
  · exact .inl ⟨s, rfl⟩
  · exact .inr ⟨s, m, e, hm, rfl⟩

/-- The finite doubles are those that have a value. -/
theorem isFinite_iff_value? : x.isFinite = true ↔ ∃ v, value? x = some v := by
  constructor
  · intro h
    rcases unpack_of_isFinite h with ⟨s, hx⟩ | ⟨s, m, e, hm, hx⟩
    · exact ⟨0, value?_of_unpack_zero hx⟩
    · exact ⟨signed s m e, value?_of_unpack_finite hx⟩
  · rintro ⟨v, hv⟩
    change x.toModel.unpack.isFinite = true
    rcases cases_of_value? hv with ⟨s, hx, -⟩ | ⟨s, m, e, hm, hx, -⟩ <;> rw [hx] <;> rfl

theorem isInf_of_value? (h : value? x = some u) : x.isInf = false := by
  change x.toModel.unpack.isInf = false
  rcases cases_of_value? h with ⟨s, hx, -⟩ | ⟨s, m, e, hm, hx, -⟩ <;> rw [hx] <;> rfl

theorem value?_of_zero (h : (x == 0.0) = true) : value? x = some 0 := by
  obtain ⟨s, hs⟩ := (beq_zero_iff x).1 h
  exact value?_of_unpack_zero hs

theorem beq_zero_iff_value? (h : value? x = some u) : (x == 0.0) = true ↔ u = 0 := by
  constructor
  · intro hzero
    exact Option.some_inj.1 (h.symm.trans (value?_of_zero hzero))
  · rintro rfl
    exact beq_of_value? h rfl

theorem ne_zero_iff_value? (h : value? x = some u) : (x == 0.0) = false ↔ u ≠ 0 := by
  rw [← Bool.not_eq_true, beq_zero_iff_value? h]

/-- The absolute value of a double that is not zero. -/
theorem is_abs (h : value? x = some u) (hne : u ≠ 0) : Is x.abs |u| := by
  rcases cases_of_value? h with ⟨s, -, hzero⟩ | ⟨s, m, e, hm, hx, rfl⟩
  · exact absurd hzero hne
  · have hunpack : x.abs.toModel.unpack = .finite .positive m e hm := by rw [unpack_abs, hx]; rfl
    refine ⟨m, e, .of_unpack hunpack, hunpack, ?_⟩
    have hpos : (0 : ℚ) < m * 2 ^ e := signed_pos ▸ signed_positive hm
    cases s with
    | positive => rw [signed_pos, abs_of_pos hpos]
    | negative => rw [signed_neg, signed_pos, abs_neg, abs_of_pos hpos]

theorem Is.ofRat_eq (h : Is x u) : ofRat u = x := by
  refine h.eq_of_close ?_
  have hpos := h.pos
  rw [sub_self, abs_zero]
  positivity

theorem value?_one : value? 1.0 = some 1 := (integer?_eq_some_iff (n := 1)).1 rfl

theorem is_of_value? (hsign : isNegative x = false) (h : value? x = some u) (hne : u ≠ 0) : Is x u :=
  (eq_zero_or_is hsign h).resolve_left fun hzero => hne hzero.2

theorem is_one : Is 1.0 1 := is_of_value? rfl value?_one one_ne_zero

theorem Is.div_self_eq_one (h : Is x u) : x / x = 1.0 := by
  rw [h.div h, div_self h.pos.ne', is_one.ofRat_eq]

theorem Is.zero_div (h : Is x u) : 0.0 / x = 0.0 := by
  obtain ⟨m, e, hm, hx, -⟩ := h
  rw [div_eq_ofModel, hx]
  rfl

/-! ## Results of finite operands -/

/-- Packing makes no NaN. -/
theorem isNaN_ofModel {u : UnpackedFloat} (h : u ≠ .notANumber) :
    (Float.ofModel (Float.Model.pack u)).isNaN = false := by
  have hcomponents : ∀ (s : Sign) (biased : BitVec Format.binary64.exponentBits)
      (fraction : BitVec Format.binary64.mantissaBitsWithoutImplicit), (biased = -1#_ → fraction = 0#_) →
      unpack .binary64 (packComponents .binary64 s biased fraction) ≠ .notANumber := by
    intro s biased fraction hfraction h
    simp only [UnpackedFloat.unpack, unpackSign_packComponents, unpackExponent_packComponents,
      unpackMantissa_packComponents] at h
    split at h
    · rename_i htop
      rw [if_pos (hfraction htop)] at h
      cases h
    · split at h
      · split at h <;> cases h
      · cases h
  refine Bool.eq_false_iff.2 fun hnan => ?_
  have hunpack : (Float.Model.pack u).unpack = .notANumber := (isNaN_iff _).1 hnan
  change unpack .binary64 (UnpackedFloat.pack .binary64 u) = _ at hunpack
  revert hunpack
  cases u with
  | notANumber => exact absurd rfl h
  | infinity s => exact hcomponents s _ _ fun _ => rfl
  | zero s => exact hcomponents s _ _ fun _ => rfl
  | finite s m e hm =>
    obtain ⟨biased, fraction, hfraction, hpack⟩ := exists_packComponents m e hm
    rw [hpack]
    exact hcomponents s biased fraction hfraction

theorem roundWithAccuracy_ne_notANumber (s : Sign) (m : Nat) (e : ℤ) (acc : Accuracy) :
    roundWithAccuracy .binary64 s m e acc ≠ .notANumber := by
  unfold roundWithAccuracy
  dsimp only
  split <;> exact fun h => by cases h

theorem isNaN_add (hx : x.isFinite = true) (hy : y.isFinite = true) : (x + y).isNaN = false := by
  refine isNaN_ofModel (u := UnpackedFloat.add .binary64 x.toModel.unpack y.toModel.unpack) ?_
  rcases unpack_of_isFinite hx with ⟨s, hx⟩ | ⟨s, m, e, hm, hx⟩ <;>
    rcases unpack_of_isFinite hy with ⟨t, hy⟩ | ⟨t, m', e', hm', hy⟩ <;> rw [hx, hy]
  · cases s <;> cases t <;> exact fun h => by cases h
  · exact fun h => by cases h
  · exact fun h => by cases h
  · unfold UnpackedFloat.add UnpackedFloat.normalize
    dsimp only
    split
    · exact roundWithAccuracy_ne_notANumber _ _ _ _
    · exact fun h => by cases h
    · exact roundWithAccuracy_ne_notANumber _ _ _ _

theorem isNaN_sub (hx : x.isFinite = true) (hy : y.isFinite = true) : (x - y).isNaN = false := by
  obtain ⟨v, hv⟩ := isFinite_iff_value?.1 hy
  rw [sub_eq_add hv]
  exact isNaN_add hx (isFinite_iff_value?.2 ⟨-v, value?_neg hv⟩)

theorem isNaN_mul (hx : x.isFinite = true) (hy : y.isFinite = true) : (x * y).isNaN = false := by
  refine isNaN_ofModel (u := UnpackedFloat.mul .binary64 x.toModel.unpack y.toModel.unpack) ?_
  rcases unpack_of_isFinite hx with ⟨s, hx⟩ | ⟨s, m, e, hm, hx⟩ <;>
    rcases unpack_of_isFinite hy with ⟨t, hy⟩ | ⟨t, m', e', hm', hy⟩ <;> rw [hx, hy]
  · exact fun h => by cases h
  · exact fun h => by cases h
  · exact fun h => by cases h
  · exact roundWithAccuracy_ne_notANumber _ _ _ _

theorem isNaN_div (hx : x.isFinite = true) (hy : y.isFinite = true) (hzero : (y == 0.0) = false) :
    (x / y).isNaN = false := by
  refine isNaN_ofModel (u := UnpackedFloat.div .binary64 x.toModel.unpack y.toModel.unpack) ?_
  rcases unpack_of_isFinite hy with ⟨t, hy⟩ | ⟨t, m', e', hm', hy⟩
  · rw [(beq_zero_iff y).2 ⟨t, hy⟩] at hzero
    cases hzero
  · rcases unpack_of_isFinite hx with ⟨s, hx⟩ | ⟨s, m, e, hm, hx⟩ <;> rw [hx, hy]
    · exact fun h => by cases h
    · exact roundWithAccuracy_ne_notANumber _ _ _ _

end ComplexCalc.Double
