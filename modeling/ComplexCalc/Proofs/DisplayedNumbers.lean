import ComplexCalc.Proofs.ReadingBack
/-!
# Displayed numbers read back

A number is displayed exactly if its components are integers below ten million or decimals that rounding
to the precision leaves as they are. Then the display is a text of the number, in whichever of its shapes:
a zero part left out, a one before `i` left out, an integer without a fraction. So it reads back.
-/
namespace ComplexCalc

open Double

/-! ## Integers -/

theorem Double.integer?_abs (x : Float) :
    integer? x.abs = (integer? x).map fun n => (n.natAbs : ℤ) := by
  unfold integer?
  rw [magnitude?_abs, isNegative_abs]
  rcases magnitude? x with - | ⟨num, den⟩
  · rfl
  · dsimp only
    generalize num / den = q
    split
    · refine congrArg some ?_
      rw [if_neg Bool.false_ne_true]
      dsimp only
      split <;> omega
    · rfl

theorem Double.beq_zero_of_integer (x : Float) (h : integer? x = some 0) : (x == 0.0) = true := by
  unfold integer? at h
  rcases hv : magnitude? x with - | ⟨num, den⟩ <;> rw [hv] at h <;> dsimp only at h
  · cases h
  split at h
  · rename_i hdvd
    have hquotient : num / den = 0 := by
      have h := Option.some.inj h
      generalize num / den = q at h ⊢
      split at h <;> omega
    have hnum : num = 0 := by rw [← Nat.div_add_mod num den, hquotient, hdvd, Nat.mul_zero]
    rw [hnum] at hv
    exact (beq_zero_iff x).2 (unpack_of_magnitude_zero hv)
  · cases h

theorem Double.isFinite_of_integer {x : Float} {n : Int} (h : integer? x = some n) : x.isFinite = true := by
  refine isFinite_iff.2 ?_
  unfold integer? at h
  rcases hv : magnitude? x with - | v
  · rw [hv] at h
    cases h
  · exact ⟨v, rfl⟩

theorem Double.isFinite_iff_not_special {x : Float} :
    x.isFinite = true ↔ x.isNaN = false ∧ x.isInf = false := by
  change x.toModel.unpack.isFinite = true ↔
    x.toModel.unpack.isNaN = false ∧ x.toModel.unpack.isInf = false
  rcases x.toModel.unpack with s | _ | s | _
  · exact iff_of_false (fun h => by cases h) fun h => by cases h.2
  · exact iff_of_false (fun h => by cases h) fun h => by cases h.1
  · exact iff_of_true rfl ⟨rfl, rfl⟩
  · exact iff_of_true rfl ⟨rfl, rfl⟩

namespace Display

/-- The component is an integer below ten million, or another number from one thousandth to ten million
that rounding to the precision leaves as it is. -/
def Exact (precision : Nat) (x : Float) : Prop :=
  (∃ n, integer? x = some n ∧ n.natAbs < 10000000) ∨
  integer? x = none ∧ 1e-3 ≤ x.abs ∧ x.abs < 1e7 ∧ Decimal.roundSignificant precision x = x

/-- The component can be displayed. -/
def Shown (m : RealFunctions) (precision : Nat) (x : Float) : Prop := ∃ text, real m precision x = .ok text

variable {m : RealFunctions} {precision : Nat} {x y : Float} {z : Number}

/-! ## Components -/

theorem shown_zero : Shown m precision 0.0 := ⟨"0", rfl⟩

theorem shown_one : Shown m precision 1.0 := ⟨"1", rfl⟩

theorem real_of_finite (hx : x.isFinite = true) : real m precision x =
    match integer? x with
    | some n => if n.natAbs < 10000000 then .ok (toString n) else real.inUnits m precision x
    | none =>
      if x.abs < 1e-3 || x.abs ≥ 1e7 then real.inUnits m precision x
      else .ok (Decimal.realText (Decimal.roundSignificant precision x)) := by
  obtain ⟨hnan, hinf⟩ := isFinite_iff_not_special.1 hx
  unfold real
  rw [hnan, hinf]
  rfl

theorem real_of_integer {n : Int} (hx : integer? x = some n) (hn : n.natAbs < 10000000) :
    real m precision x = .ok (toString n) := by
  rw [real_of_finite (isFinite_of_integer hx), hx]
  exact if_pos hn

theorem real_of_decimal (hx : integer? x = none) (hlow : 1e-3 ≤ x.abs) (hhigh : x.abs < 1e7) :
    real m precision x = .ok (Decimal.realText (Decimal.roundSignificant precision x)) := by
  have hrange : ¬(decide (x.abs < 1e-3) || decide (x.abs ≥ 1e7)) = true := by
    rw [Bool.or_eq_true, decide_eq_true_eq, decide_eq_true_eq, not_or]
    exact ⟨not_lt_of_le hlow, not_le_of_lt hhigh⟩
  rw [real_of_finite (isFinite_of_abs_lt hhigh), hx]
  exact if_neg hrange

namespace Exact

theorem isFinite (h : Exact precision x) : x.isFinite = true := by
  rcases h with ⟨n, hn, -⟩ | ⟨-, -, hhigh, -⟩
  · exact isFinite_of_integer hn
  · exact isFinite_of_abs_lt hhigh

theorem shown (h : Exact precision x) : Shown m precision x := by
  rcases h with ⟨n, hn, hlt⟩ | ⟨hn, hlow, hhigh, -⟩
  · exact ⟨_, real_of_integer hn hlt⟩
  · exact ⟨_, real_of_decimal hn hlow hhigh⟩

theorem shown_abs (h : Exact precision x) : Shown m precision x.abs := by
  have habs := integer?_abs x
  rcases h with ⟨n, hn, hlt⟩ | ⟨hn, hlow, hhigh, -⟩ <;> rw [hn] at habs
  · exact ⟨_, real_of_integer habs (by rwa [Int.natAbs_natCast])⟩
  · rw [← abs_of_not_negative (isNegative_abs x)] at hlow hhigh
    exact ⟨_, real_of_decimal habs hlow hhigh⟩

theorem shown_plain (h : Exact precision x) : Shown m precision (plain x) := by
  unfold plain
  split
  · exact shown_zero
  · exact h.shown

/-- An exact component other than zero is written in its display. -/
theorem written (h : Exact precision x) (hx : (x == 0.0) = false) :
    ∃ text, real m precision x = .ok text ∧ Double.Written x text.toList := by
  rcases h with ⟨n, hn, hlt⟩ | ⟨hn, hlow, hhigh, hround⟩
  · refine ⟨_, real_of_integer hn hlt, Decimal.integer_written hn ?_⟩
    rintro rfl
    rw [beq_zero_of_integer x hn] at hx
    cases hx
  · refine ⟨_, real_of_decimal hn hlow hhigh, ?_⟩
    rw [hround]
    exact Decimal.realText_written (isFinite_of_abs_lt hhigh)

/-- The display of a real part other than zero. -/
theorem real_part (h : Exact precision x) (hx : (x == 0.0) = false) :
    ∃ text, real m precision x = .ok text ∧ Part (Shown m precision) .ofReal x text.toList := by
  obtain ⟨text, htext, hwritten⟩ := h.written hx
  exact ⟨text, htext, .real hwritten h.shown_abs shown_zero⟩

/-- The display of an imaginary part other than zero. -/
theorem imaginary_part (h : Exact precision y) (hy : (y == 0.0) = false) :
    ∃ text, imaginary m precision y = .ok text ∧ Part (Shown m precision) .ofImaginary y text.toList := by
  unfold imaginary
  split
  · rename_i hone
    obtain rfl : y = 1.0 := Double.eq_of_beq hone rfl
    exact ⟨"i", rfl, ['i'], rfl, .unit shown_zero shown_one⟩
  · split
    · rename_i hone
      obtain rfl : y = -1.0 := Double.eq_of_beq hone rfl
      exact ⟨"-i", rfl, ['i'], rfl, .unit shown_zero shown_one⟩
    · obtain ⟨text, htext, hwritten⟩ := h.written hy
      refine ⟨text ++ "i", ?_, ?_⟩
      · rw [hy, htext]
        rfl
      · rw [String.toList_append]
        exact .imaginary hwritten h.shown_abs shown_zero

end Exact

/-! ## Numbers -/

theorem imaginary_shown (h : Shown m precision y) : ∃ text, imaginary m precision y = .ok text := by
  unfold imaginary
  split
  · exact ⟨_, rfl⟩
  · split
    · exact ⟨_, rfl⟩
    · split
      · exact ⟨_, rfl⟩
      · obtain ⟨text, htext⟩ := h
        rw [htext]
        exact ⟨_, rfl⟩

theorem number_shown (hre : Shown m precision z.re) (him : Shown m precision z.im) :
    ∃ text, value m precision (.number z) = .ok text := by
  obtain ⟨re, hre⟩ := hre
  obtain ⟨im, him⟩ := imaginary_shown him
  change ∃ text, number m precision z = .ok text
  unfold number
  rw [him, hre]
  split
  · exact shown_zero
  · split <;> exact ⟨_, rfl⟩

theorem imaginary_of_zero (hy : (y == 0.0) = true) : imaginary m precision y = .ok "" := by
  have hne : ∀ x : Float, (x == 0.0) = false → (y == x) = false := fun x hx =>
    Bool.eq_false_iff.2 fun h => by
      rw [Double.eq_of_beq h hx, hx] at hy
      cases hy
  unfold imaginary
  rw [hne 1.0 rfl, hne (-1.0) rfl, hy]
  rfl

/-- The plus sign between the parts stands where the imaginary part brings no sign of its own. -/
theorem plus_eq (hy : (y == 0.0) = false) (hfinite : y.isFinite = true) {p : Float → Prop} {im : String}
    (h : Part p .ofImaginary y im.toList) :
    (decide (y > 0.0) || decide (y < 0.0) && im.toList.head? == some '(') = !isNegative y := by
  obtain ⟨us, hus, -⟩ := h
  cases hsign : isNegative y with
  | true =>
    have hpos : ¬y > 0.0 := fun hpos => by
      rw [(pos_iff hy hfinite).1 hpos] at hsign
      cases hsign
    rw [hsign] at hus
    simp [hpos, hus]
  | false =>
    have hpos : y > 0.0 := (pos_iff hy hfinite).2 hsign
    simp [hpos]

/-- The display of a number with exact components is read as the number, where a zero is positive. -/
theorem number_phrase (hre : Exact precision z.re) (him : Exact precision z.im) :
    ∃ text, value m precision (.number z) = .ok text ∧
      Phrase (Shown m precision) .sum text.toList ⟨plain z.re, plain z.im⟩ := by
  change ∃ text, number m precision z = .ok text ∧ _
  unfold number
  cases hx : z.re == 0.0 with
  | false =>
    obtain ⟨re, hretext, hrepart⟩ := hre.real_part (m := m) hx
    cases hy : z.im == 0.0 with
    | false =>
      obtain ⟨im, himtext, himpart⟩ := him.imaginary_part (m := m) hy
      have hplus := plus_eq hy him.isFinite himpart
      have hphrase := hrepart.sum himpart shown_zero hre.shown_plain him.shown_plain
      refine ⟨re ++ (if isNegative z.im then "" else "+") ++ im, ?_, ?_⟩
      · rw [himtext, hretext]
        dsimp only [bind, Except.bind]
        rw [hplus]
        cases isNegative z.im <;> rfl
      · rw [String.toList_append, String.toList_append, List.append_assoc]
        cases hsign : isNegative z.im <;> rw [hsign] at hphrase <;> exact hphrase
    | true =>
      obtain ⟨hneg, hpos⟩ := not_lt_of_zero hy
      refine ⟨re, ?_, ?_⟩
      · rw [imaginary_of_zero hy, hretext]
        simp [hpos, hneg, bind, Except.bind, pure, Except.pure]
      · rw [plain_of_zero hy]
        exact hrepart.phrase Part.neg_real hre.shown_plain shown_zero
  | true =>
    rw [plain_of_zero hx]
    cases hy : z.im == 0.0 with
    | false =>
      obtain ⟨im, himtext, himpart⟩ := him.imaginary_part (m := m) hy
      refine ⟨im, by rw [himtext]; rfl, ?_⟩
      exact himpart.phrase Part.neg_imaginary shown_zero him.shown_plain
    | true =>
      have hzero : Double.Written 0.0 "0".toList := ⟨⟨.zero, none, none⟩, rfl, rfl⟩
      have hpart : Part (Shown m precision) .ofReal 0.0 "0".toList := .real hzero shown_zero shown_zero
      refine ⟨"0", rfl, ?_⟩
      rw [plain_of_zero hy]
      exact hpart.phrase Part.neg_real shown_zero shown_zero

end Display

/-- If the components of a number are displayed exactly, then the display reads back as the number. -/
theorem display_reads_back (s : Settings) (random : RandomSource) (journal : Journal) {z : Number}
    (hre : Display.Exact s.precision z.re) (him : Display.Exact s.precision z.im) :
    ∃ text, Display.value s.math s.precision (.number z) = .ok text ∧
      ReadsBack s text (.fresh random true journal) z := by
  obtain ⟨text, htext, hphrase⟩ := Display.number_phrase (m := s.math) hre him
  refine ⟨text, htext, ?_⟩
  rcases hphrase.readsBack (Number.plain_beq hre.isFinite him.isFinite) s random journal with
    h | ⟨-, -, y, hyre, hyim, hfail⟩
  · exact h
  · obtain ⟨t, ht⟩ := Display.number_shown hyre hyim
    exact absurd ht (hfail t)

/-- A decimal with a negative integer as its imaginary part, which brings its sign, also with debugging
on. -/
theorem display_of_decimal_and_integer_reads_back :
    Display.value .machine 10 (.number ⟨0.25, -3.0⟩) = .ok "0.25-3i" ∧
    ReadsBack .standard "0.25-3i" (.fresh default true (.fresh true)) ⟨0.25, -3.0⟩ := by
  have hround : Decimal.roundSignificant 10 0.25 = 0.25 :=
    Double.eq_of_beq (by decide +kernel) (by decide +kernel)
  have hre : Display.Exact 10 0.25 := .inr ⟨by decide +kernel, by decide +kernel, by decide +kernel, hround⟩
  have him : Display.Exact 10 (-3.0) := .inl ⟨-3, by decide +kernel, by decide⟩
  obtain ⟨text, htext, h⟩ := display_reads_back .standard default (.fresh true) (z := ⟨0.25, -3.0⟩) hre him
  have hvalue : (Display.value .machine 10 (.number ⟨0.25, -3.0⟩)).toOption = some "0.25-3i" := by
    decide +kernel
  have hsome : some text = some "0.25-3i" := (congrArg Except.toOption htext).symm.trans hvalue
  obtain rfl : text = "0.25-3i" := Option.some.inj hsome
  exact ⟨htext, h⟩

end ComplexCalc
