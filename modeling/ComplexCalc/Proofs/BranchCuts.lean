import ComplexCalc.Proofs.EqualNumbers
/-!
# Elementary functions at equal numbers

Most functions give equal values at equal numbers, whatever the signs of their zeros are. The angle
does not, where a number lies on the negative real axis, which is the branch cut of the logarithm: there
the sign of a zero imaginary part tells the upper side of the cut from the lower one. What is composed
of an angle sees the side, unless the angle is taken of a number that is off the cut on either way.
-/
namespace ComplexCalc

open Double (isNegative)

/-- The function gives matching values at the two zeros. -/
def IgnoresSign (f : Float → Float) : Prop := Double.Matches (f 0.0) (f (-0.0))

instance (f : Float → Float) : Decidable (IgnoresSign f) :=
  inferInstanceAs (Decidable (Double.Matches _ _))

/-- What holds of a double and itself and of the two zeros holds of matching doubles. -/
theorem Double.Matches.of_zeros {P : Float → Float → Prop} (hsame : ∀ x, P x x) (hpos : P 0.0 (-0.0))
    (hneg : P (-0.0) 0.0) {x y : Float} (h : Double.Matches x y) : P x y := by
  obtain rfl | ⟨hx, hy⟩ := Double.matches_iff.1 h
  · exact hsame _
  · obtain rfl | rfl := Double.eq_zero_of_beq hx <;> obtain rfl | rfl := Double.eq_zero_of_beq hy
    · exact hsame _
    · exact hpos
    · exact hneg
    · exact hsame _

theorem IgnoresSign.congr {f : Float → Float} (hf : IgnoresSign f) {x y : Float}
    (h : Double.Matches x y) : Double.Matches (f x) (f y) :=
  h.of_zeros (P := fun x y => Double.Matches (f x) (f y)) (fun _ => .refl _) hf hf.symm

/-- What is documented of real functions at the zeros: the values at the two zeros match, their
squares are equal, and the angle of a point on the real axis is a zero to the right of the origin and half
a turn to the left of it, in the direction of the sign of the zero. -/
structure RealFunctions.Lawful (m : RealFunctions) : Prop where
  exp : IgnoresSign m.exp
  sin : IgnoresSign m.sin
  cos : IgnoresSign m.cos
  tan : IgnoresSign m.tan
  asin : IgnoresSign m.asin
  acos : IgnoresSign m.acos
  atan : IgnoresSign m.atan
  sinh : IgnoresSign m.sinh
  cosh : IgnoresSign m.cosh
  tanh : IgnoresSign m.tanh
  asinh : IgnoresSign m.asinh
  atanh : IgnoresSign m.atanh
  square : m.square (-0.0) = m.square 0.0
  atan2_left : ∀ {y x}, (y == 0.0) = true → isNegative x = true →
    m.atan2 y x = if isNegative y then -Number.pi else Number.pi
  atan2_right : ∀ {y x}, (y == 0.0) = true → isNegative x = false → x.isNaN = false →
    (m.atan2 y x == 0.0) = true
  atan2_nan : ∀ {y x}, x.isNaN = true → (m.atan2 y x).isNaN = true
  atan2_vertical : ∀ {y}, (y == 0.0) = false → IgnoresSign (m.atan2 y)

/-- Where a number lies with respect to the negative real axis: off it, or on its upper or its lower
side by the sign of the zero imaginary part. The negative zero belongs to the axis. -/
inductive Side where
  | off | upper | lower
deriving DecidableEq, Repr

/-- The angle of a number on the real axis, by its side. -/
def Side.angle : Side → Float
  | off => 0.0
  | upper => Number.pi
  | lower => -Number.pi

/-- The side of a number. -/
def Number.side (z : Number) : Side :=
  if z.im == 0.0 && isNegative z.re then if isNegative z.im then .lower else .upper else .off

/-- An operation that respects matching doubles and tells the angles of the sides apart. -/
structure Separates (op : Float → Float) : Prop where
  congr : ∀ {x y}, Double.Matches x y → Double.Matches (op x) (op y)
  apart : ∀ {s t : Side}, Double.Matches (op s.angle) (op t.angle) → s = t

namespace Separates

theorem of_angles {op : Float → Float}
    (hcongr : ∀ {x y}, Double.Matches x y → Double.Matches (op x) (op y))
    (hupper : ¬Double.Matches (op 0.0) (op Number.pi))
    (hlower : ¬Double.Matches (op 0.0) (op (-Number.pi)))
    (hsides : ¬Double.Matches (op Number.pi) (op (-Number.pi))) : Separates op where
  congr := hcongr
  apart := by
    intro s t h
    cases s <;> cases t <;> first
      | rfl
      | exact absurd h ‹_›
      | exact absurd h.symm ‹_›

theorem id : Separates fun x => x :=
  .of_angles (fun h => h) (by decide) (by decide) (by decide)

theorem div_ln10 : Separates (· / Number.ln10) :=
  .of_angles (fun h => h.div _) (by decide) (by decide) (by decide)

theorem half : Separates (0.5 * ·) :=
  .of_angles (fun h => (Double.Matches.refl _).mul h) (by decide) (by decide) (by decide)

end Separates

namespace Number

section Angle
variable {m : RealFunctions} (hm : m.Lawful) {z w : Number}
include hm

/-- The angle of a number on the real axis is that of its side. -/
theorem arg_of_real (him : (z.im == 0.0) = true) (hre : z.re.isNaN = false) :
    Double.Matches (z.arg m) z.side.angle := by
  unfold side arg
  rw [him, Bool.true_and]
  by_cases h : isNegative z.re = true
  · rw [if_pos h, hm.atan2_left him h]
    split <;> exact .refl _
  · rw [if_neg h]
    exact .of_zero (hm.atan2_right him (Bool.eq_false_iff.2 h) hre) rfl

/-- Equal numbers have the same angle up to a multiple, in whatever operation is applied to it, exactly
if they lie on the same side. -/
theorem arg_matches_iff {op : Float → Float} (hop : Separates op) (h : z.Matches w) :
    Double.Matches (op (z.arg m)) (op (w.arg m)) ↔ z.side = w.side := by
  by_cases him : (z.im == 0.0) = true
  · have him' : (w.im == 0.0) = true := h.2.beq_left 0.0 ▸ him
    by_cases hre : z.re.isNaN = true
    · have hre' : w.re.isNaN = true := h.1.isNaN_eq ▸ hre
      refine iff_of_true (hop.congr (.of_isNaN (hm.atan2_nan hre) (hm.atan2_nan hre'))) ?_
      simp [side, Double.isNegative_of_isNaN hre, Double.isNegative_of_isNaN hre']
    · have hre' : w.re.isNaN = false := h.1.isNaN_eq ▸ Bool.eq_false_iff.2 hre
      have hz := hop.congr (arg_of_real hm him (Bool.eq_false_iff.2 hre))
      have hw := hop.congr (arg_of_real hm him' hre')
      constructor
      · exact fun hzw => hop.apart ((hz.symm.trans hzw).trans hw)
      · intro hside
        rw [hside] at hz
        exact hz.trans hw.symm
  · have heq : z.im = w.im := h.2.eq_of_ne_zero (Bool.eq_false_iff.2 him)
    refine iff_of_true (hop.congr ?_) ?_
    · unfold arg
      rw [← heq]
      exact (hm.atan2_vertical (Bool.eq_false_iff.2 him)).congr h.1
    · simp [side, ← heq, Bool.eq_false_iff.2 him]

theorem arg_matches (h : z.Matches w) (hside : z.side = w.side) :
    Double.Matches (z.arg m) (w.arg m) := (arg_matches_iff hm .id h).2 hside

/-- To the right of the origin a number is off the cut whatever the sign of its imaginary part. -/
theorem ln_matches_of_not_negative (h : z.Matches w) (hz : isNegative z.re = false)
    (hw : isNegative w.re = false) : (z.ln m).Matches (w.ln m) := by
  refine ⟨?_, arg_matches hm h (by simp [side, hz, hw])⟩
  change Double.Matches (m.log z.abs) (m.log w.abs)
  rw [h.abs_eq]

end Angle

/-! ## Functions that do not see a side -/

section Functions
variable {m : RealFunctions} (hm : m.Lawful) {z w : Number} (h : z.Matches w)
include hm h

theorem exp_matches : (z.exp m).Matches (w.exp m) := by
  unfold exp
  rw [h.isReal_eq]
  have hre := hm.exp.congr h.1
  split
  · exact .ofReal hre
  · exact ⟨hre.mul (hm.cos.congr h.2), hre.mul (hm.sin.congr h.2)⟩

theorem sin_matches : (z.sin m).Matches (w.sin m) := by
  unfold sin
  rw [h.isReal_eq, (h.1.div pi).integer?_eq]
  split
  · split
    · exact .refl _
    · exact .ofReal (hm.sin.congr h.1)
  · exact ⟨(hm.sin.congr h.1).mul (hm.cosh.congr h.2), (hm.cos.congr h.1).mul (hm.sinh.congr h.2)⟩

theorem cos_matches : (z.cos m).Matches (w.cos m) := by
  unfold cos
  rw [h.isReal_eq]
  split
  · exact .ofReal (hm.cos.congr h.1)
  · exact ⟨(hm.cos.congr h.1).mul (hm.cosh.congr h.2),
      (hm.sin.congr h.1).neg.mul (hm.sinh.congr h.2)⟩

theorem tan_agree : Agree (z.tan m) (w.tan m) := by
  unfold tan
  rw [h.isReal_eq]
  split
  · exact Matches.ofReal (hm.tan.congr h.1)
  · exact (sin_matches hm h).div (cos_matches hm h)

theorem sinh_matches : (z.sinh m).Matches (w.sinh m) := by
  unfold sinh
  rw [h.isReal_eq]
  split
  · exact .ofReal (hm.sinh.congr h.1)
  · exact ⟨(hm.sinh.congr h.1).mul (hm.cos.congr h.2), (hm.cosh.congr h.1).mul (hm.sin.congr h.2)⟩

theorem cosh_matches : (z.cosh m).Matches (w.cosh m) := by
  unfold cosh
  rw [h.isReal_eq]
  split
  · exact .ofReal (hm.cosh.congr h.1)
  · exact ⟨(hm.cosh.congr h.1).mul (hm.cos.congr h.2), (hm.sinh.congr h.1).mul (hm.sin.congr h.2)⟩

theorem tanh_agree : Agree (z.tanh m) (w.tanh m) := by
  unfold tanh
  rw [h.isReal_eq]
  split
  · exact Matches.ofReal (hm.tanh.congr h.1)
  · exact (sinh_matches hm h).div (cosh_matches hm h)

/-- The logarithm is taken of one number or, where the real parts are zeros of different signs, of
two on the right: the real part of the root makes the sum positive. -/
theorem asinh_matches : (z.asinh m).Matches (w.asinh m) := by
  unfold asinh
  rw [h.isReal_eq]
  split
  · exact .ofReal (hm.asinh.congr h.1)
  · have hsquare : ∀ {x x' y y' : Float}, Double.Matches x x' → Double.Matches y y' →
        Matches ⟨(x - y) * (x + y) + 1.0, 2.0 * x * y⟩ ⟨(x' - y') * (x' + y') + 1.0, 2.0 * x' * y'⟩ :=
      fun hx hy => ⟨((hx.sub hy).mul (hx.add hy)).add (.refl _), (Double.Matches.mul (.refl _) hx).mul hy⟩
    have hroot := h.add (hsquare h.1 h.2).sqrt
    rename_i hreal
    have him : z.im = w.im := h.2.eq_of_ne_zero (h.2.beq_left 0.0 ▸ Bool.eq_false_iff.2 hreal)
    obtain hre | ⟨hz, hw⟩ := Double.matches_iff.1 h.1
    · rw [hre, him, show z = w by cases z; cases w; simp_all]
    · exact ln_matches_of_not_negative hm hroot
        (Double.isNegative_zero_add hz (isNegative_re_sqrt _))
        (Double.isNegative_zero_add hw (isNegative_re_sqrt _))

/-- The logarithm is taken of a sum of two roots, which is on the right. -/
theorem acosh_matches : (z.acosh m).Matches (w.acosh m) := by
  unfold acosh
  simp only [h.isReal_eq, ge_iff_le, h.1.le_right 1.0]
  split
  · rename_i hdomain
    have hle : 1.0 ≤ w.re := of_decide_eq_true (Bool.and_eq_true_iff.1 hdomain).2
    have hne : (w.re == 0.0) = false := by
      refine Bool.eq_false_iff.2 fun hzero => ?_
      have hone := ((Double.Matches.of_zero (y := 0.0) hzero rfl).le_right 1.0).1 hle
      exact absurd hone (by decide)
    rw [h.1.symm.eq_of_ne_zero hne]
  · have hroots := ((h.addReal 1.0).mulReal 0.5).sqrt.add ((h.subReal 1.0).mulReal 0.5).sqrt
    refine (ln_matches_of_not_negative hm hroots ?_ ?_).mulReal 2.0
    · exact Double.isNegative_add (isNegative_re_sqrt _) (isNegative_re_sqrt _)
    · exact Double.isNegative_add (isNegative_re_sqrt _) (isNegative_re_sqrt _)

theorem asin_matches : (z.asin m).Matches (w.asin m) := by
  unfold asin
  rw [h.isReal_eq, h.1.abs_eq]
  split
  · exact .ofReal (hm.asin.congr h.1)
  · have ht : (asinh m ⟨-z.im, z.re⟩).Matches (asinh m ⟨-w.im, w.re⟩) :=
      asinh_matches hm ⟨h.2.neg, h.1⟩
    exact ⟨ht.2, ht.1.neg⟩

theorem acos_matches : (z.acos m).Matches (w.acos m) := by
  unfold acos
  rw [h.isReal_eq, h.1.abs_eq]
  split
  · exact .ofReal (hm.acos.congr h.1)
  · have ht := asin_matches hm h
    exact ⟨(Double.Matches.refl _).sub ht.1, ht.2.neg⟩

end Functions

theorem realSquare_eq {m : RealFunctions} (hm : m.square (-0.0) = m.square 0.0) {x y : Float}
    (h : Double.Matches x y) : realSquare m x = realSquare m y := by
  have hsquare : m.square x = m.square y :=
    h.of_zeros (P := fun x y => m.square x = m.square y) (fun _ => rfl) hm.symm hm
  unfold realSquare
  rw [h.mul_self_eq, h.isFinite_eq, hsquare]

/-! ## Powers -/

section Power
variable {m : RealFunctions} (hm : m.Lawful) {z w : Number} (h : z.Matches w)
include hm h

theorem ln_matches (hside : z.side = w.side) : (z.ln m).Matches (w.ln m) := by
  refine ⟨?_, arg_matches hm h hside⟩
  change Double.Matches (m.log z.abs) (m.log w.abs)
  rw [h.abs_eq]

theorem realPower_matches (hside : z.side = w.side) (n : Float) :
    (z.realPower m n).Matches (w.realPower m n) := by
  unfold realPower
  simp only [h.isReal_eq, gt_iff_lt, h.1.lt_right 0.0]
  have ht := ln_matches hm h hside
  split
  · rename_i hdomain
    have hpos : 0.0 < w.re := of_decide_eq_true (Bool.and_eq_true_iff.1 hdomain).2
    have hne : (w.re == 0.0) = false :=
      Bool.eq_false_iff.2 fun hzero => (Double.not_lt_of_zero hzero).2 hpos
    rw [h.1.symm.eq_of_ne_zero hne]
  · have hn := (Double.Matches.refl n).mul ht.2
    have he := hm.exp.congr ((Double.Matches.refl n).mul ht.1)
    exact ⟨he.mul (hm.cos.congr hn), he.mul (hm.sin.congr hn)⟩

theorem power_matches {n : Number} (hn : (n.isInteger = true ∧ n.re > 1.0) ∨ z.side = w.side) :
    (z.power m n).Matches (w.power m n) := by
  have hzero : (z == zero) = (w == zero) := by
    change (z.re == 0.0 && z.im == 0.0) = (w.re == 0.0 && w.im == 0.0)
    rw [h.1.beq_left, h.2.beq_left]
  unfold power
  rw [hzero]
  split
  · exact .refl _
  · split
    · split
      · rename_i hn'
        split
        · exact h.intPower _
        · rename_i hgt
          obtain ⟨-, hgt'⟩ | hside := hn
          · exact absurd hgt' hgt
          · exact realPower_matches hm h hside _
      · rename_i hn'
        obtain ⟨hint, -⟩ | hside := hn
        · simp [isInteger, hn'] at hint
        · exact realPower_matches hm h hside _
    · rename_i hreal
      obtain ⟨hint, -⟩ | hside := hn
      · simp [isInteger, integer?, hreal] at hint
      · exact exp_matches hm ((Matches.refl n).mul (ln_matches hm h hside))

end Power

end Number

namespace Elementary

/-- The side that a function sees of its argument: the side of the number whose angle is part of the
value. -/
def side (z : Number) : Elementary → Side
  | arg | ln | log => z.side
  | atan =>
    if z.isReal then .off else Number.side ⟨1.0 - z.re * z.re - z.im * z.im, 2.0 * z.re⟩
  | atanh =>
    if z.isReal && z.re.abs < 1.0 then .off
    else Number.side ⟨1.0 - z.im * z.im - z.re * z.re, 2.0 * z.im⟩
  | _ => .off

theorem log_apply (m : RealFunctions) (z : Number) :
    log.apply m z = .ok ⟨m.log z.abs / Number.ln10, z.arg m / Number.ln10⟩ := by
  change (z.ln m).divReal Number.ln10 = _
  rw [Number.divReal, if_neg (by decide)]
  rfl

/-- Two functions that square matching numbers fail together, or go on with the same squares. -/
theorem squares_agree_iff {m : RealFunctions} (hm : m.square (-0.0) = m.square 0.0) {p p' q q' : Float}
    (hp : Double.Matches p p') (hq : Double.Matches q q') {f g : Float → Float → Number} {P : Prop}
    (hfg : ∀ above below, (f above below).Matches (g above below) ↔ P) :
    Agree
        (do
          let above ← Number.realSquare m p
          let below ← Number.realSquare m q
          return f above below)
        (do
          let above ← Number.realSquare m p'
          let below ← Number.realSquare m q'
          return g above below) ↔
      P ∨ ∃ e, (do
          let above ← Number.realSquare m p
          let below ← Number.realSquare m q
          return f above below) = .error e := by
  rw [← Number.realSquare_eq hm hp, ← Number.realSquare_eq hm hq]
  rcases Number.realSquare m p with e | above
  · exact iff_of_true rfl (.inr ⟨e, rfl⟩)
  rcases Number.realSquare m q with e | below
  · exact iff_of_true rfl (.inr ⟨e, rfl⟩)
  refine (hfg above below).trans ⟨.inl, ?_⟩
  rintro (hP | ⟨e, he⟩)
  · exact hP
  · cases he

section Sides
variable {m : RealFunctions} (hm : m.Lawful) {z w : Number} (h : z.Matches w)
include hm h

theorem arg_agree_iff : Agree (arg.apply m z) (arg.apply m w) ↔ z.side = w.side := by
  rw [← Number.arg_matches_iff hm .id h]
  exact ⟨fun hzw => hzw.1, fun hzw => .ofReal hzw⟩

theorem ln_agree_iff : Agree (ln.apply m z) (ln.apply m w) ↔ z.side = w.side := by
  rw [← Number.arg_matches_iff hm .id h]
  have hlog : Double.Matches (m.log z.abs) (m.log w.abs) := h.abs_eq ▸ .refl _
  exact ⟨fun hzw => hzw.2, fun hzw => ⟨hlog, hzw⟩⟩

theorem log_agree_iff : Agree (log.apply m z) (log.apply m w) ↔ z.side = w.side := by
  have hlog : Double.Matches (m.log z.abs / Number.ln10) (m.log w.abs / Number.ln10) :=
    h.abs_eq ▸ .refl _
  rw [log_apply, log_apply, ← Number.arg_matches_iff hm .div_ln10 h]
  exact ⟨fun hzw => hzw.2, fun hzw => ⟨hlog, hzw⟩⟩

theorem atan_agree_iff : Agree (atan.apply m z) (atan.apply m w) ↔
    atan.side z = atan.side w ∨ ∃ e, atan.apply m z = .error e := by
  change Agree (z.atan m) (w.atan m) ↔ _ ∨ ∃ e, z.atan m = .error e
  unfold Number.atan
  simp only [side, h.isReal_eq]
  split
  · exact iff_of_true (Number.Matches.ofReal (hm.atan.congr h.1)) (.inl rfl)
  · refine squares_agree_iff hm.square (h.2.add (.refl 1.0)) (h.2.sub (.refl 1.0)) fun above below => ?_
    have hpoint : Number.Matches ⟨1.0 - z.re * z.re - z.im * z.im, 2.0 * z.re⟩
        ⟨1.0 - w.re * w.re - w.im * w.im, 2.0 * w.re⟩ := by
      rw [h.1.mul_self_eq, h.2.mul_self_eq]
      exact ⟨.refl _, (Double.Matches.refl _).mul h.1⟩
    rw [← Number.arg_matches_iff hm .half hpoint]
    constructor
    · exact fun hzw => hzw.1
    · intro hzw
      refine ⟨hzw, ?_⟩
      dsimp only
      rw [h.1.mul_self_eq]

theorem atanh_agree_iff : Agree (atanh.apply m z) (atanh.apply m w) ↔
    atanh.side z = atanh.side w ∨ ∃ e, atanh.apply m z = .error e := by
  change Agree (z.atanh m) (w.atanh m) ↔ _ ∨ ∃ e, z.atanh m = .error e
  unfold Number.atanh
  simp only [side, h.isReal_eq, h.1.abs_eq]
  split
  · exact iff_of_true (Number.Matches.ofReal (hm.atanh.congr h.1)) (.inl rfl)
  · have hone := Double.Matches.refl 1.0
    refine squares_agree_iff hm.square (hone.add h.1) (hone.sub h.1) fun above below => ?_
    have hpoint : Number.Matches ⟨1.0 - z.im * z.im - z.re * z.re, 2.0 * z.im⟩
        ⟨1.0 - w.im * w.im - w.re * w.re, 2.0 * w.im⟩ := by
      rw [h.1.mul_self_eq, h.2.mul_self_eq]
      exact ⟨.refl _, (Double.Matches.refl _).mul h.2⟩
    rw [← Number.arg_matches_iff hm .half hpoint]
    constructor
    · exact fun hzw => hzw.2
    · intro hzw
      refine ⟨?_, hzw⟩
      dsimp only
      rw [h.2.mul_self_eq]

theorem agree_iff (f : Elementary) : Agree (f.apply m z) (f.apply m w) ↔
    f.side z = f.side w ∨ ∃ e, f.apply m z = .error e := by
  have hangle : ∀ {P : Prop} {y : Number}, P ↔ P ∨ ∃ e, (.ok y : Except Failure Number) = .error e :=
    ⟨.inl, fun hP => hP.resolve_right fun ⟨_, he⟩ => nomatch he⟩
  cases f with
  | arg => exact (arg_agree_iff hm h).trans hangle
  | ln => exact (ln_agree_iff hm h).trans hangle
  | log =>
    rw [log_agree_iff hm h, log_apply]
    exact hangle
  | atan => exact atan_agree_iff hm h
  | atanh => exact atanh_agree_iff hm h
  | abs =>
    have habs : Double.Matches z.abs w.abs := h.abs_eq ▸ .refl _
    exact iff_of_true (Number.Matches.ofReal habs) (.inl rfl)
  | sqr => exact iff_of_true (h.mul h) (.inl rfl)
  | sqrt => exact iff_of_true h.sqrt (.inl rfl)
  | exp => exact iff_of_true (Number.exp_matches hm h) (.inl rfl)
  | re => exact iff_of_true (Number.Matches.ofReal h.1) (.inl rfl)
  | im => exact iff_of_true ⟨.refl _, h.2⟩ (.inl rfl)
  | conj => exact iff_of_true ⟨h.1, h.2.neg⟩ (.inl rfl)
  | sin => exact iff_of_true (Number.sin_matches hm h) (.inl rfl)
  | cos => exact iff_of_true (Number.cos_matches hm h) (.inl rfl)
  | tan => exact iff_of_true (Number.tan_agree hm h) (.inl rfl)
  | asin => exact iff_of_true (Number.asin_matches hm h) (.inl rfl)
  | acos => exact iff_of_true (Number.acos_matches hm h) (.inl rfl)
  | sinh => exact iff_of_true (Number.sinh_matches hm h) (.inl rfl)
  | cosh => exact iff_of_true (Number.cosh_matches hm h) (.inl rfl)
  | tanh => exact iff_of_true (Number.tanh_agree hm h) (.inl rfl)
  | asinh => exact iff_of_true (Number.asinh_matches hm h) (.inl rfl)
  | acosh => exact iff_of_true (Number.acosh_matches hm h) (.inl rfl)

end Sides

end Elementary

/-! ## Equal numbers -/

/-- A function has equal values at equal numbers, or fails alike at both, exactly if it sees them on the
same side of the cut or fails at one. An integer power above one sees no side, any other at most that of
its base. -/
theorem equal_numbers_agree {m : RealFunctions} (hm : m.Lawful) {z w : Number} (h : (z == w) = true) :
    (∀ f : Elementary, Agree (f.apply m z) (f.apply m w) ↔
        f.side z = f.side w ∨ ∃ e, f.apply m z = .error e) ∧
      ∀ n : Number, (n.isInteger = true ∧ n.re > 1.0) ∨ z.side = w.side →
        (z.power m n).Matches (w.power m n) := by
  have hzw := Number.Matches.of_beq h
  exact ⟨Elementary.agree_iff hm hzw, fun n => Number.power_matches hm hzw⟩

/-- Real functions to first order around zero, or around one for the logarithm, and with the angles of
the axes. -/
def RealFunctions.firstOrder : RealFunctions where
  exp x := 1.0 + x
  log x := x - 1.0
  log10 x := (x - 1.0) / Number.ln10
  pow x y := 1.0 + y * (x - 1.0)
  square x := x * x
  sin x := x
  cos _ := 1.0
  tan x := x
  asin x := x
  acos x := Number.halfPi - x
  atan x := x
  atan2 y x :=
    if x.isNaN then x
    else if y == 0.0 then
      if isNegative x then if isNegative y then -Number.pi else Number.pi else y
    else if y > 0.0 then Number.halfPi else -Number.halfPi
  sinh x := x
  cosh _ := 1.0
  tanh x := x
  asinh x := x
  acosh x := (2.0 * (x - 1.0)).sqrt
  atanh x := x

theorem RealFunctions.firstOrder_lawful : firstOrder.Lawful where
  exp := by decide
  sin := by decide
  cos := by decide
  tan := by decide
  asin := by decide
  acos := by decide
  atan := by decide
  sinh := by decide
  cosh := by decide
  tanh := by decide
  asinh := by decide
  atanh := by decide
  square := rfl
  atan2_left := by
    intro y x hy hx
    have hnan : ¬x.isNaN = true := fun hnan => by
      rw [Double.isNegative_of_isNaN hnan] at hx
      cases hx
    simp only [firstOrder, if_neg hnan, if_pos hy, if_pos hx]
  atan2_right := by
    intro y x hy hx hnan
    simp only [firstOrder, hy, hx, hnan, Bool.false_eq_true, if_false, if_true]
  atan2_nan := by
    intro y x hnan
    simp only [firstOrder, hnan, if_true]
  atan2_vertical := by
    intro y hy
    have hpositive : (0.0 : Float).isNaN = false := rfl
    have hnegative : (-0.0 : Float).isNaN = false := rfl
    simp only [IgnoresSign, firstOrder, hy, hpositive, hnegative, Bool.false_eq_true, if_false]
    exact .refl _

/-- Minus one and the quotient of one by it are equal, on the two sides of the cut. -/
theorem minus_one_and_its_inverse : (Number.ofInt 1).div (-Number.ofInt 1) = .ok ⟨-1.0, -0.0⟩ ∧
    ((-Number.ofInt 1 : Number) == ⟨-1.0, -0.0⟩) = true ∧
    (-Number.ofInt 1).side = .upper ∧ Number.side ⟨-1.0, -0.0⟩ = .lower :=
  ⟨rfl, rfl, rfl, rfl⟩

theorem equal_numbers_agree_at_minus_one :
    RealFunctions.firstOrder.Lawful ∧ ((-Number.ofInt 1 : Number) == ⟨-1.0, -0.0⟩) = true ∧
      Agree (Elementary.sqrt.apply .firstOrder (-Number.ofInt 1))
        (Elementary.sqrt.apply .firstOrder ⟨-1.0, -0.0⟩) ∧
      ¬Agree (Elementary.log.apply .firstOrder (-Number.ofInt 1))
        (Elementary.log.apply .firstOrder ⟨-1.0, -0.0⟩) ∧
      ((-Number.ofInt 1).power .firstOrder (.ofInt 2)).Matches
        (Number.power .firstOrder ⟨-1.0, -0.0⟩ (.ofInt 2)) := by
  obtain ⟨-, heq, hupper, hlower⟩ := minus_one_and_its_inverse
  obtain ⟨helementary, hpower⟩ := equal_numbers_agree RealFunctions.firstOrder_lawful heq
  refine ⟨RealFunctions.firstOrder_lawful, heq, (helementary .sqrt).2 (.inl rfl), ?_,
    hpower _ (.inl (by decide +kernel))⟩
  rw [helementary .log, Elementary.log_apply]
  rintro (h | ⟨e, he⟩)
  · exact absurd (hupper.symm.trans (h.trans hlower)) (by decide)
  · cases he

/-- The logarithms of two equal numbers, a negated one and a quotient by it, are not equal. -/
theorem logarithms_of_equal_numbers_differ : RealFunctions.firstOrder.Lawful ∧
    (Number.ofInt 1).div (-Number.ofInt 1) = .ok ⟨-1.0, -0.0⟩ ∧
    ((-Number.ofInt 1 : Number) == ⟨-1.0, -0.0⟩) = true ∧
    ¬Agree (Elementary.ln.apply .firstOrder (-Number.ofInt 1))
      (Elementary.ln.apply .firstOrder ⟨-1.0, -0.0⟩) := by
  obtain ⟨hdiv, heq, hupper, hlower⟩ := minus_one_and_its_inverse
  refine ⟨RealFunctions.firstOrder_lawful, hdiv, heq, ?_⟩
  rw [Elementary.ln_agree_iff RealFunctions.firstOrder_lawful (.of_beq heq), hupper, hlower]
  decide

end ComplexCalc
