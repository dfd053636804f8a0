import ComplexCalc.Proofs.BranchCuts
import ComplexCalc.Proofs.MixedOperands
import ComplexCalc.Proofs.SquareRoots
/-!
# Conjugate numbers

Off the real axis an elementary function takes conjugate numbers to conjugate values. Sums, products and
quotients of doubles do not see a change of all signs except in the sign of a zero, so what has to be
known is how the real functions behave under it: the sine and its hyperbolic counterpart are odd, the
cosines are even, and the angle of a point off the horizontal axis is odd.
-/
namespace ComplexCalc

open Float.Model Float.Model.UnpackedFloat

/-! ## Doubles under a change of sign -/

namespace Double

variable {x y : Float}

theorem sign_neg_mul (s t : Sign) : -s * t = -(s * t) := by cases s <;> cases t <;> rfl

theorem opposite_mul (x y : Float) : -x * y = -(x * y) := by
  have hmul : ∀ x y : Float, x * y = Float.ofModel (Float.Model.pack
      (UnpackedFloat.mul .binary64 x.toModel.unpack y.toModel.unpack)) := fun _ _ => rfl
  rw [hmul, hmul, neg_ofModel, unpack_neg]
  congr 2
  rcases x.toModel.unpack with s | _ | s | ⟨s, m, e, hm⟩ <;>
    rcases y.toModel.unpack with t | _ | t | ⟨t, m', e', hm'⟩ <;>
      simp only [UnpackedFloat.mul, UnpackedFloat.neg, sign_neg_mul, roundWithAccuracy_neg]

theorem mul_opposite (x y : Float) : x * -y = -(x * y) := by
  rw [← opposite_mul, ← opposite_mul_opposite (-x) y, opposite_opposite]

/-- A factor keeps what matches an opposite at the opposite. -/
theorem Matches.mul_opposite (k : Float) (h : Matches x (-y)) : Matches (k * x) (-(k * y)) := by
  have hmul := (Matches.refl k).mul h
  rwa [Double.mul_opposite] at hmul

theorem abs_opposite (x : Float) : (-x).abs = x.abs := by
  rw [← ofModel_pack_unpack (-x).abs, unpack_abs, unpack_neg, ← ofModel_pack_unpack x.abs, unpack_abs]
  cases x.toModel.unpack <;> rfl

theorem isInf_neg (x : Float) : (-x).isInf = x.isInf := by
  change (-x).toModel.unpack.isInf = x.toModel.unpack.isInf
  rw [unpack_neg]
  cases x.toModel.unpack <;> rfl

theorem round_neg (s : Sign) (m : Nat) (e : ℤ) :
    UnpackedFloat.round .binary64 (-s) m e = (UnpackedFloat.round .binary64 s m e).neg :=
  roundWithAccuracy_neg s _ _ _

theorem isNaN_neg (x : Float) : (-x).isNaN = x.isNaN := by
  change (-x).toModel.unpack.isNaN = x.toModel.unpack.isNaN
  rw [unpack_neg]
  cases x.toModel.unpack <;> rfl

/-- A sum of mantissas with the opposite sign is rounded to the opposite, unless it is zero. -/
theorem alike_normalize_neg (n e : ℤ) : Alike (UnpackedFloat.normalize .binary64 (-n) e .positive)
    (UnpackedFloat.normalize .binary64 n e .positive).neg := by
  have hneg : ∀ n : ℤ, n < 0 → UnpackedFloat.normalize .binary64 n e .positive =
      UnpackedFloat.round .binary64 .negative (-n).toNat e := fun n hn => by
    rw [UnpackedFloat.normalize, Int.compare_eq_lt.2 hn]
  have hpos : ∀ n : ℤ, 0 < n → UnpackedFloat.normalize .binary64 n e .positive =
      UnpackedFloat.round .binary64 .positive n.toNat e := fun n hn => by
    rw [UnpackedFloat.normalize, Int.compare_eq_gt.2 hn]
  rcases lt_trichotomy n 0 with h | rfl | h
  · rw [hneg n h, hpos (-n) (neg_pos.2 h), ← round_neg]
    exact .inl rfl
  · exact .inr ⟨⟨_, rfl⟩, ⟨_, rfl⟩⟩
  · rw [hpos n h, hneg (-n) (neg_lt_zero.2 h), neg_neg, ← round_neg]
    exact .inl rfl

theorem apply_neg (s : Sign) (n : ℤ) : (-s).apply n = -s.apply n := by
  cases s with
  | positive => rfl
  | negative => exact (neg_neg n).symm

/-- The opposite of a sum is the sum of the opposites, apart from the sign of a zero. -/
theorem matches_opposite_add (x y : Float) : Matches (-x + -y) (-(x + y)) := by
  have hadd : ∀ x y : Float, x + y = Float.ofModel (Float.Model.pack
      (UnpackedFloat.add .binary64 x.toModel.unpack y.toModel.unpack)) := fun _ _ => rfl
  rw [hadd, hadd, neg_ofModel, unpack_neg, unpack_neg]
  refine .ofModel ?_
  rcases x.toModel.unpack with ⟨_ | _⟩ | _ | ⟨_ | _⟩ | ⟨s, m, e, hm⟩ <;>
    rcases y.toModel.unpack with ⟨_ | _⟩ | _ | ⟨_ | _⟩ | ⟨t, m', e', hm'⟩ <;> try exact .inl rfl
  · exact .inr ⟨⟨_, rfl⟩, ⟨_, rfl⟩⟩
  · exact .inr ⟨⟨_, rfl⟩, ⟨_, rfl⟩⟩
  · simp only [UnpackedFloat.add, UnpackedFloat.neg, apply_neg, ← neg_add]
    exact alike_normalize_neg _ _

theorem sub_eq_add_opposite (x y : Float) : x - y = x + -y := by
  by_cases hy : y.isFinite = true
  · obtain ⟨v, hv⟩ := isFinite_iff_value?.1 hy
    exact sub_eq_add hv
  · have hsub : x - y = Float.ofModel (Float.Model.pack
        (UnpackedFloat.sub .binary64 x.toModel.unpack y.toModel.unpack)) := rfl
    have hadd : x + -y = Float.ofModel (Float.Model.pack
        (UnpackedFloat.add .binary64 x.toModel.unpack (-y).toModel.unpack)) := rfl
    rw [hsub, hadd, unpack_neg]
    change ¬y.toModel.unpack.isFinite = true at hy
    revert hy
    rcases y.toModel.unpack with t | _ | t | ⟨t, m, e, hm⟩ <;> intro hy
    · cases x.toModel.unpack <;> rfl
    · cases x.toModel.unpack <;> rfl
    · exact absurd rfl hy
    · exact absurd rfl hy

/-- The opposite of a difference is the difference the other way round, apart from the sign of a zero. -/
theorem matches_opposite_sub (x y : Float) : Matches (y - x) (-(x - y)) := by
  have h := matches_opposite_add x (-y)
  rwa [opposite_opposite, add_commutes, ← sub_eq_add_opposite, ← sub_eq_add_opposite] at h

theorem unpack_ne_notANumber (hnan : y.isNaN = false) : y.toModel.unpack ≠ .notANumber := fun h => by
  rw [(isNaN_iff y).2 h] at hnan
  cases hnan

/-- Of two opposite numbers other than zero, one is below zero and the other one above it. -/
theorem below_or_above (hzero : (y == 0.0) = false) (hnan : y.isNaN = false) :
    y < 0.0 ∧ ¬0.0 < y ∧ ¬-y < 0.0 ∧ 0.0 < -y ∨ ¬y < 0.0 ∧ 0.0 < y ∧ -y < 0.0 ∧ ¬0.0 < -y := by
  have hzero' : ¬∃ s, y.toModel.unpack = .zero s := fun h => by
    rw [(beq_zero_iff y).2 h] at hzero
    cases hzero
  have hnan' := unpack_ne_notANumber hnan
  have hgreater : some Ordering.gt ≠ some Ordering.lt := by decide
  simp only [lt_iff, unpack_neg, unpack_zero]
  revert hzero' hnan'
  rcases y.toModel.unpack with ⟨_ | _⟩ | _ | s | ⟨_ | _, m, e, hm⟩ <;> intro hzero hnan
  · exact .inl (by decide)
  · exact .inr (by decide)
  · exact absurd rfl hnan
  · exact absurd ⟨s, rfl⟩ hzero
  · exact .inl ⟨rfl, hgreater, hgreater, rfl⟩
  · exact .inr ⟨hgreater, rfl, rfl, hgreater⟩

theorem exists_atLeast_abs (hzero : (y == 0.0) = false) (hnan : y.isNaN = false) :
    ∃ u, 0 < u ∧ IsDouble u ∧ AtLeast u y.abs := by
  by_cases hy : y.isFinite = true
  · obtain ⟨v, hv⟩ := isFinite_iff_value?.1 hy
    have habs := is_abs hv ((ne_zero_iff_value? hv).1 hzero)
    exact ⟨|v|, habs.pos, habs.measures.isDouble, .inr ⟨_, habs.measures, le_rfl⟩⟩
  · refine ⟨1, one_pos, isDouble_one, .inl ?_⟩
    rw [← ofModel_pack_unpack y.abs, unpack_abs]
    have hnan' := unpack_ne_notANumber hnan
    change ¬y.toModel.unpack.isFinite = true at hy
    revert hy hnan'
    rcases y.toModel.unpack with t | _ | t | ⟨t, m, e, hm⟩ <;> intro hnan hy
    · rfl
    · exact absurd rfl hnan
    · exact absurd rfl hy
    · exact absurd rfl hy

/-- Twice a number other than zero is not zero. -/
theorem two_mul_ne_zero (hzero : (y == 0.0) = false) (hnan : y.isNaN = false) :
    (2.0 * y == 0.0) = false := by
  obtain ⟨u, hpos, hdouble, habs⟩ := exists_atLeast_abs hzero hnan
  have htwice : (2.0 * y.abs == 0.0) = false :=
    (AtLeast.mul is_two habs hdouble (by linarith)).ne_zero hpos
  rcases hsign : isNegative y with _ | _
  · rwa [abs_of_not_negative hsign] at htwice
  · rwa [abs_of_negative hsign, mul_opposite, beq_zero_neg] at htwice

theorem isNaN_two_mul (hnan : y.isNaN = false) : (2.0 * y).isNaN = false := by
  have hy := unpack_ne_notANumber hnan
  obtain ⟨m, e, hm, htwo, -⟩ := is_two
  refine isNaN_ofModel (u := UnpackedFloat.mul .binary64 (2.0 : Float).toModel.unpack y.toModel.unpack) ?_
  rw [htwo]
  revert hy
  rcases y.toModel.unpack with t | _ | t | ⟨t, m', e', hm'⟩ <;> intro hy
  · exact fun h => by cases h
  · exact absurd rfl hy
  · exact fun h => by cases h
  · exact roundWithAccuracy_ne_notANumber _ _ _ _

end Double

/-- What is documented of real functions under a change of sign: the sine and the hyperbolic sine are
odd, the cosine, the hyperbolic cosine and the square are even, and the angle of a point off the
horizontal axis is odd in its height. -/
structure RealFunctions.Symmetric (m : RealFunctions) : Prop where
  sin : ∀ x, Double.Matches (m.sin (-x)) (-m.sin x)
  cos : ∀ x, Double.Matches (m.cos (-x)) (m.cos x)
  sinh : ∀ x, Double.Matches (m.sinh (-x)) (-m.sinh x)
  cosh : ∀ x, Double.Matches (m.cosh (-x)) (m.cosh x)
  square : ∀ x, m.square (-x) = m.square x
  atan2 : ∀ {y x}, (y == 0.0) = false → y.isNaN = false →
    Double.Matches (m.atan2 (-y) x) (-m.atan2 y x)

/-! ## Arithmetic of conjugates -/

theorem Agree.trans {r s t : Except Failure Number} (hrs : Agree r s) (hst : Agree s t) :
    Agree r t := by
  cases r <;> cases s <;> cases t <;> try contradiction
  · exact Eq.trans hrs hst
  · exact ⟨hrs.1.trans hst.1, hrs.2.trans hst.2⟩

namespace Number

open Double

variable {z w : Number}

theorem isReal_conj (z : Number) : z.conj.isReal = z.isReal := beq_zero_neg z.im

theorem abs_conj (z : Number) : z.conj.abs = z.abs := by
  unfold Number.abs
  simp only [conj, isInf_neg, abs_opposite, opposite_div, opposite_mul_opposite]

theorem matches_conj_mul (z w : Number) : (z.conj * w.conj).Matches (z * w).conj := by
  refine ⟨?_, ?_⟩
  · change Double.Matches (z.re * w.re - -z.im * -w.im) (z.re * w.re - z.im * w.im)
    rw [opposite_mul_opposite]
  · change Double.Matches (z.re * -w.im + -z.im * w.re) (-(z.re * w.im + z.im * w.re))
    rw [mul_opposite, opposite_mul]
    exact matches_opposite_add _ _

theorem conj_divReal (z : Number) (k : Float) : z.conj.divReal k = (z.divReal k).map conj := by
  unfold divReal
  split
  · rfl
  · simp only [conj, opposite_div, Except.map]

theorem agree_conj_div (z w : Number) : Agree (z.conj.div w.conj) ((z.div w).map conj) := by
  have hdivisor : ∀ c d k : Float, Agree ((z.conj * ⟨c, - -d⟩).divReal k)
      (((z * ⟨c, -d⟩).divReal k).map conj) := fun c d k =>
    conj_divReal (z * ⟨c, -d⟩) k ▸ (matches_conj_mul z ⟨c, -d⟩).divReal k
  unfold Number.div
  simp only [conj, beq_zero_neg, abs_opposite, opposite_div, opposite_mul_opposite]
  by_cases hzero : (w.re == 0.0 && w.im == 0.0) = true
  · rw [if_pos hzero, if_pos hzero]
    exact rfl
  rw [if_neg hzero, if_neg hzero]
  by_cases hscale : (larger w.re.abs w.im.abs == 0.0) = true
  · rw [if_pos hscale, if_pos hscale]
    exact rfl
  rw [if_neg hscale, if_neg hscale]
  exact hdivisor _ _ _

theorem Matches.agree_div_conj {u v : Number} (hu : u.Matches z.conj) (hv : v.Matches w.conj) :
    Agree (u.div v) ((z.div w).map conj) := (hu.div hv).trans (agree_conj_div z w)

theorem eq_overflow_of_realSquare {m : RealFunctions} {x : Float} {e : Failure}
    (h : realSquare m x = .error e) : e = .fault .overflow := by
  unfold realSquare at h
  split at h <;> cases h
  rfl

/-! ## Functions at conjugates -/

section Functions
variable {m : RealFunctions} (hm : m.Symmetric) (hreal : z.isReal = false) (hnan : z.im.isNaN = false)

include hreal hnan in
/-- The sign of the root is read off a comparison, which holds on one side of the axis. -/
theorem conj_sqrt : z.conj.sqrt = z.sqrt.conj := by
  unfold sqrt
  rw [abs_conj]
  simp only [conj, abs_opposite, opposite_div]
  rcases below_or_above hreal hnan with ⟨hlt, -, hnot, -⟩ | ⟨hnot, -, hlt, -⟩
  · simp only [hlt, hnot, if_true, if_false]
    split
    · rw [opposite_opposite]
    · split
      · rfl
      · rw [opposite_opposite]
  · simp only [hlt, hnot, if_true, if_false]
    split
    · rfl
    · split <;> rfl

include hm

theorem realSquare_opposite (x : Float) : realSquare m (-x) = realSquare m x := by
  simp only [realSquare, opposite_mul_opposite, isFinite_neg, hm.square]

include hreal in
/-- The two squares change places, and with them the numerator and the denominator of the quotient whose
logarithm is taken. -/
theorem atan_conj : Agree (z.conj.atan m) ((z.atan m).map conj) := by
  have habove : realSquare m (-z.im + 1.0) = realSquare m (z.im - 1.0) := by
    rw [add_commutes, ← sub_eq_add_opposite, ← realSquare_opposite hm (z.im - 1.0)]
    exact realSquare_eq (hm.square 0.0) (matches_opposite_sub z.im 1.0)
  have hbelow : realSquare m (-z.im - 1.0) = realSquare m (z.im + 1.0) := by
    rw [sub_eq_add_opposite, ← realSquare_opposite hm (z.im + 1.0)]
    exact realSquare_eq (hm.square 0.0) (matches_opposite_add z.im 1.0)
  unfold atan
  rw [isReal_conj, hreal]
  simp only [conj, habove, hbelow, opposite_mul_opposite, Bool.false_eq_true, if_false]
  rcases ha : realSquare m (z.im + 1.0) with e | a <;>
    rcases hb : realSquare m (z.im - 1.0) with e' | b
  · exact (eq_overflow_of_realSquare hb).trans (eq_overflow_of_realSquare ha).symm
  · exact rfl
  · exact rfl
  · exact ⟨.refl _, (matches_opposite_sub (m.log (z.re * z.re + a)) _).mul_opposite 0.25⟩

theorem polar_opposite (r theta : Float) : (polar m r (-theta)).Matches (polar m r theta).conj :=
  ⟨(Double.Matches.refl r).mul (hm.cos theta), (hm.sin theta).mul_opposite r⟩

include hreal

theorem exp_conj : (z.conj.exp m).Matches (z.exp m).conj := by
  unfold exp
  rw [isReal_conj, hreal]
  exact polar_opposite hm _ _

theorem sin_conj : (z.conj.sin m).Matches (z.sin m).conj := by
  unfold sin
  rw [isReal_conj, hreal]
  exact ⟨(Double.Matches.refl _).mul (hm.cosh z.im), (hm.sinh z.im).mul_opposite _⟩

theorem cos_conj : (z.conj.cos m).Matches (z.cos m).conj := by
  unfold cos
  rw [isReal_conj, hreal]
  exact ⟨(Double.Matches.refl _).mul (hm.cosh z.im), (hm.sinh z.im).mul_opposite _⟩

theorem tan_conj : Agree (z.conj.tan m) ((z.tan m).map conj) := by
  unfold tan
  simp only [isReal_conj, hreal, Bool.false_eq_true, if_false]
  exact (sin_conj hm hreal).agree_div_conj (cos_conj hm hreal)

theorem sinh_conj : (z.conj.sinh m).Matches (z.sinh m).conj := by
  unfold sinh
  rw [isReal_conj, hreal]
  exact ⟨(Double.Matches.refl _).mul (hm.cos z.im), (hm.sin z.im).mul_opposite _⟩

theorem cosh_conj : (z.conj.cosh m).Matches (z.cosh m).conj := by
  unfold cosh
  rw [isReal_conj, hreal]
  exact ⟨(Double.Matches.refl _).mul (hm.cos z.im), (hm.sin z.im).mul_opposite _⟩

theorem tanh_conj : Agree (z.conj.tanh m) ((z.tanh m).map conj) := by
  unfold tanh
  simp only [isReal_conj, hreal, Bool.false_eq_true, if_false]
  exact (sinh_conj hm hreal).agree_div_conj (cosh_conj hm hreal)

include hnan

theorem ln_conj : (z.conj.ln m).Matches (z.ln m).conj := by
  unfold ln
  rw [abs_conj]
  exact ⟨.refl _, hm.atan2 hreal hnan⟩

theorem log_conj : Agree (z.conj.log m) ((z.log m).map conj) := by
  unfold log
  rw [← conj_divReal]
  exact (ln_conj hm hreal hnan).divReal _

/-- The angle is that of a point off the horizontal axis. -/
theorem atanh_conj : Agree (z.conj.atanh m) ((z.atanh m).map conj) := by
  have hangle := hm.atan2 (x := 1.0 - z.im * z.im - z.re * z.re) (two_mul_ne_zero hreal hnan)
    (isNaN_two_mul hnan)
  unfold atanh
  rw [isReal_conj, hreal, Bool.false_and, Bool.false_and]
  simp only [conj, opposite_mul_opposite, mul_opposite 2.0, Bool.false_eq_true, if_false]
  rcases realSquare m (1.0 + z.re) with e | a
  · exact rfl
  rcases realSquare m (1.0 - z.re) with e | b
  · exact rfl
  exact ⟨.refl _, hangle.mul_opposite 0.5⟩

end Functions

end Number

/-- Off the real axis, the square root, the exponential function and the logarithms, the trigonometric
and hyperbolic functions and the two inverse tangents take conjugate numbers to conjugate values, or fail
at both of them in the same way. -/
theorem conjugate_numbers_have_conjugate_values {m : RealFunctions} (hm : m.Symmetric) {f : Elementary}
    (hf : f ∈ [.sqrt, .exp, .ln, .log, .sin, .cos, .tan, .sinh, .cosh, .tanh, .atan, .atanh])
    {z : Number} (hreal : (z.im == 0.0) = false) (hnan : z.im.isNaN = false) :
    Agree (f.apply m z.conj) ((f.apply m z).map Number.conj) := by
  cases f with
  | sqrt =>
    change z.conj.sqrt.Matches z.sqrt.conj
    rw [Number.conj_sqrt hreal hnan]
  | exp => exact Number.exp_conj hm hreal
  | ln => exact Number.ln_conj hm hreal hnan
  | log => exact Number.log_conj hm hreal hnan
  | sin => exact Number.sin_conj hm hreal
  | cos => exact Number.cos_conj hm hreal
  | tan => exact Number.tan_conj hm hreal
  | sinh => exact Number.sinh_conj hm hreal
  | cosh => exact Number.cosh_conj hm hreal
  | tanh => exact Number.tanh_conj hm hreal
  | atan => exact Number.atan_conj hm hreal
  | atanh => exact Number.atanh_conj hm hreal hnan
  | _ => simp at hf

theorem RealFunctions.firstOrder_symmetric : firstOrder.Symmetric where
  sin _ := .refl _
  cos _ := .refl _
  sinh _ := .refl _
  cosh _ := .refl _
  square := fun x => Double.opposite_mul_opposite x x
  atan2 := by
    intro y x hzero hnan
    have hzero' : (-y == 0.0) = false := (Double.beq_zero_neg y).trans hzero
    simp only [firstOrder, hzero, hzero', Bool.false_eq_true, if_false]
    by_cases hx : x.isNaN = true
    · rw [if_pos hx, if_pos hx]
      exact .of_isNaN hx ((Double.isNaN_neg x).trans hx)
    · rw [if_neg hx, if_neg hx]
      rcases Double.below_or_above hzero hnan with ⟨-, hnot, -, hpos⟩ | ⟨-, hpos, -, hnot⟩
      · rw [if_pos hpos, if_neg hnot, Double.opposite_opposite]
      · rw [if_neg hnot, if_pos hpos]

/-- The logarithms of the imaginary unit and of its conjugate. -/
theorem conjugate_values_of_logarithm_at_i :
    RealFunctions.firstOrder.Symmetric ∧ (Number.i.im == 0.0) = false ∧ Number.i.im.isNaN = false ∧
      Number.i.arg .firstOrder = Number.halfPi ∧
      Agree (Elementary.ln.apply .firstOrder Number.i.conj)
        ((Elementary.ln.apply .firstOrder Number.i).map Number.conj) := by
  have hsymmetric := RealFunctions.firstOrder_symmetric
  exact ⟨hsymmetric, rfl, rfl, rfl,
    conjugate_numbers_have_conjugate_values hsymmetric (by decide) rfl rfl⟩

end ComplexCalc
