import ComplexCalc.Display
import ComplexCalc.Elementary
import ComplexCalc.Proofs.Doubles
/-!
# Faults of primitive operations

Two operations on numbers fail without being foreseen. Division scales by the larger component of its
divisor, and takes a zero for larger than a NaN; the inverse tangents square a component that may be
finite while its square is not. Everything else that is computed on numbers gives a number, or says
why there is none.
-/
namespace ComplexCalc

/-- A failure other than that an expression has no value. -/
def Failure.Other (φ : Failure) : Prop := ∀ e, φ ≠ .noValue e

theorem noValue_ne {α : Type} {φ : Failure} (hφ : φ.Other) (e : EvalError) :
    (noValue e : Except Failure α) ≠ .error φ := by
  intro h
  cases h
  exact hφ e rfl

theorem bind_eq_error {α β : Type} {φ : Failure} {x : Except Failure α} {f : α → Except Failure β} :
    x >>= f = .error φ ↔ x = .error φ ∨ ∃ a, x = .ok a ∧ f a = .error φ := by
  cases x with
  | error e => simp [bind, Except.bind]
  | ok a => simp [bind, Except.bind]

theorem ite_ok_eq_error {α : Type} {φ : Failure} {c : Bool} {a : α} {x : Except Failure α} :
    (if c then .ok a else x) = .error φ ↔ c = false ∧ x = .error φ := by
  cases c <;> simp

namespace Number

variable {φ : Failure}

/-! ## Division -/

/-- The real part is zero and the imaginary part is no number. -/
def HalfNaN (z : Number) : Prop := (z.re == 0.0) = true ∧ z.im.isNaN = true

theorem HalfNaN.im_ne_zero {z : Number} (h : z.HalfNaN) : (z.im == 0.0) = false := by
  rw [← Bool.not_eq_true, Double.beq_zero_iff, (Double.isNaN_iff _).1 h.2]
  simp

theorem divReal_ne_error (hφ : φ.Other) (z : Number) (k : Float) : z.divReal k ≠ .error φ := by
  unfold divReal
  split
  · exact noValue_ne hφ _
  · simp

/-- Division fails unforeseen exactly for a divisor that is zero and NaN in one. -/
theorem div_eq_error (hφ : φ.Other) {z w : Number} :
    z.div w = .error φ ↔ w.HalfNaN ∧ φ = .fault .zeroDivision := by
  unfold div
  dsimp only
  split
  · rename_i hzero
    rw [Bool.and_eq_true] at hzero
    refine ⟨fun h => absurd h (noValue_ne hφ _), fun ⟨hw, _⟩ => ?_⟩
    rw [hw.im_ne_zero] at hzero
    cases hzero.2
  · rename_i hzero
    split
    -- The larger component is zero although the divisor is not.
    · rename_i hs
      obtain ⟨hre, him⟩ := (Double.larger_abs_eq_zero _ _).1 hs
      have hw : w.HalfNaN := ⟨hre, him.resolve_left fun h => hzero (by simp [hre, h])⟩
      refine ⟨fun h => ⟨hw, ?_⟩, fun ⟨_, h⟩ => h ▸ rfl⟩
      cases h
      rfl
    · rename_i hs
      refine ⟨fun h => absurd h (divReal_ne_error hφ _ _), fun ⟨hw, _⟩ => ?_⟩
      exact absurd ((Double.larger_abs_eq_zero _ _).2 ⟨hw.1, .inr hw.2⟩) hs

/-! ## Squares -/

/-- The double is finite and its square is not. -/
def SquareOverflows (x : Float) : Prop := x.isFinite = true ∧ (x * x).isInf = true

theorem realSquare_eq_error {m : RealFunctions} {x : Float} :
    realSquare m x = .error φ ↔ SquareOverflows x ∧ φ = .fault .overflow := by
  unfold realSquare SquareOverflows
  split
  · rename_i h
    rw [Bool.and_eq_true] at h
    refine ⟨fun h' => ⟨h.symm, ?_⟩, fun ⟨_, h'⟩ => h' ▸ rfl⟩
    cases h'
    rfl
  · rename_i h
    rw [Bool.and_eq_true] at h
    exact ⟨fun h' => (by cases h'), fun ⟨h', _⟩ => absurd h'.symm h⟩

/-- Two squares in turn fail if one of them does. -/
theorem squares_eq_error {m : RealFunctions} {α : Type} {x y : Float} {f : Float → Float → α} :
    (realSquare m x >>= fun a => realSquare m y >>= fun b => pure (f a b)) = .error φ ↔
      (SquareOverflows x ∨ SquareOverflows y) ∧ φ = .fault .overflow := by
  have hpure : ∀ a b, (pure (f a b) : Except Failure α) ≠ .error φ := by simp [pure, Except.pure]
  simp only [bind_eq_error, realSquare_eq_error, hpure, and_false, exists_false, or_false]
  constructor
  · rintro (⟨h, hf⟩ | ⟨a, -, h, hf⟩)
    · exact ⟨.inl h, hf⟩
    · exact ⟨.inr h, hf⟩
  · rintro ⟨h | h, hf⟩
    · exact .inl ⟨h, hf⟩
    · by_cases hx : SquareOverflows x
      · exact .inl ⟨hx, hf⟩
      · rcases hr : realSquare m x with e | a
        · exact absurd ((realSquare_eq_error.1 hr).1) hx
        · exact .inr ⟨a, rfl, h, hf⟩

end Number

/-! ## Builtin functions -/

/-- A builtin function fails with a fault at a number. -/
inductive Elementary.Breaks (m : RealFunctions) : Elementary → Number → Fault → Prop
  | tan {z : Number} : z.isReal = false → (z.cos m).HalfNaN → Breaks m .tan z .zeroDivision
  | tanh {z : Number} : z.isReal = false → (z.cosh m).HalfNaN → Breaks m .tanh z .zeroDivision
  | atan {z : Number} : z.isReal = false →
      (Number.SquareOverflows (z.im + 1.0) ∨ Number.SquareOverflows (z.im - 1.0)) →
      Breaks m .atan z .overflow
  | atanh {z : Number} : (z.isReal && z.re.abs < 1.0) = false →
      (Number.SquareOverflows (1.0 + z.re) ∨ Number.SquareOverflows (1.0 - z.re)) →
      Breaks m .atanh z .overflow

theorem Elementary.apply_eq_error {φ : Failure} (hφ : φ.Other) {m : RealFunctions} {z : Number}
    {g : Elementary} : g.apply m z = .error φ ↔ ∃ f, φ = .fault f ∧ g.Breaks m z f := by
  cases g with
  | tan =>
    simp only [apply, Number.tan]
    rw [ite_ok_eq_error, Number.div_eq_error hφ]
    constructor
    · rintro ⟨hr, h, hf⟩
      exact ⟨_, hf, .tan hr h⟩
    · rintro ⟨_, hf, h⟩
      cases h with
      | tan hr h => exact ⟨hr, h, hf⟩
  | tanh =>
    simp only [apply, Number.tanh]
    rw [ite_ok_eq_error, Number.div_eq_error hφ]
    constructor
    · rintro ⟨hr, h, hf⟩
      exact ⟨_, hf, .tanh hr h⟩
    · rintro ⟨_, hf, h⟩
      cases h with
      | tanh hr h => exact ⟨hr, h, hf⟩
  | atan =>
    simp only [apply, Number.atan]
    rw [ite_ok_eq_error, Number.squares_eq_error]
    constructor
    · rintro ⟨hr, h, hf⟩
      exact ⟨_, hf, .atan hr h⟩
    · rintro ⟨_, hf, h⟩
      cases h with
      | atan hr h => exact ⟨hr, h, hf⟩
  | atanh =>
    simp only [apply, Number.atanh]
    rw [ite_ok_eq_error, Number.squares_eq_error]
    constructor
    · rintro ⟨hr, h, hf⟩
      exact ⟨_, hf, .atanh hr h⟩
    · rintro ⟨_, hf, h⟩
      cases h with
      | atanh hr h => exact ⟨hr, h, hf⟩
  | log =>
    refine ⟨fun h => absurd h (Number.divReal_ne_error hφ (z.ln m) Number.ln10), ?_⟩
    rintro ⟨_, _, h⟩
    cases h
  | _ =>
    refine ⟨fun h => (by cases h), ?_⟩
    rintro ⟨_, _, h⟩
    cases h

/-! ## Display -/

namespace Display

variable {m : RealFunctions} {precision : Nat} {x y : Float} {φ : Failure}

theorem scientific_eq_error (h : scientific m precision x = .error φ) : φ = .fault .zeroDivision := by
  unfold scientific at h
  dsimp only at h
  split at h
  · cases h
    rfl
  · cases h

theorem inUnits_eq_error (h : real.inUnits m precision x = .error φ) : φ = .fault .zeroDivision := by
  rcases bind_eq_error.1 h with h | ⟨text, -, h⟩
  · exact scientific_eq_error h
  · cases h

theorem real_eq_error (h : real m precision x = .error φ) : φ = .fault .zeroDivision := by
  unfold real at h
  split at h
  · cases h
  · split at h
    · cases h
    · split at h
      · split at h
        · cases h
        · exact inUnits_eq_error h
      · split at h
        · exact inUnits_eq_error h
        · cases h

theorem imaginary_eq_error (h : imaginary m precision y = .error φ) :
    φ = .fault .zeroDivision := by
  unfold imaginary at h
  split at h
  · cases h
  · split at h
    · cases h
    · split at h
      · cases h
      · rcases bind_eq_error.1 h with h | ⟨text, -, h⟩
        · exact real_eq_error h
        · cases h

/-- The only failure of showing a value is a division by a power of ten that is zero as a double. -/
theorem value_eq_error {v : Value} (h : value m precision v = .error φ) :
    φ = .fault .zeroDivision := by
  cases v with
  | none => cases h
  | number z =>
    change number m precision z = .error φ at h
    unfold number at h
    split at h
    · exact real_eq_error h
    · rcases bind_eq_error.1 h with h | ⟨im, -, h⟩
      · exact imaginary_eq_error h
      · split at h
        · cases h
        · rcases bind_eq_error.1 h with h | ⟨re, -, h⟩
          · exact real_eq_error h
          · cases h

end Display
end ComplexCalc
