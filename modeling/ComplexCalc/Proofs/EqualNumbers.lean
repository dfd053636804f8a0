import ComplexCalc.Elementary
import ComplexCalc.Proofs.SignedZeros
/-!
# Arithmetic at equal numbers

Equal numbers may differ in the signs of their zeros. Arithmetic gives equal results at equal
operands, because squares, absolute values and comparisons lose the sign of a zero before it can
matter: a quotient divides by the square of a modulus, and a root takes its sign from a comparison.
-/
namespace ComplexCalc

open Double (isNegative)

namespace Number

/-- Equal in each component, or NaN in both. -/
def Matches (z w : Number) : Prop := Double.Matches z.re w.re ∧ Double.Matches z.im w.im

namespace Matches

variable {z z' w w' : Number}

@[refl] theorem refl (z : Number) : Matches z z := ⟨.refl _, .refl _⟩

theorem of_beq (h : (z == w) = true) : Matches z w := by
  obtain ⟨hre, him⟩ := Bool.and_eq_true_iff.1 h
  exact ⟨.of_beq hre, .of_beq him⟩

theorem ofReal {x y : Float} (h : Double.Matches x y) : Matches (ofReal x) (ofReal y) :=
  ⟨h, .refl _⟩

theorem isReal_eq (h : Matches z w) : z.isReal = w.isReal := h.2.beq_left 0.0

/-! ## Arithmetic -/

theorem add (hz : Matches z z') (hw : Matches w w') : Matches (z + w) (z' + w') :=
  ⟨hz.1.add hw.1, hz.2.add hw.2⟩

theorem mul (hz : Matches z z') (hw : Matches w w') : Matches (z * w) (z' * w') :=
  ⟨(hz.1.mul hw.1).sub (hz.2.mul hw.2), (hz.1.mul hw.2).add (hz.2.mul hw.1)⟩

theorem addReal (h : Matches z w) (k : Float) : Matches (z.addReal k) (w.addReal k) :=
  ⟨h.1.add (.refl _), h.2.add (.refl _)⟩

theorem subReal (h : Matches z w) (k : Float) : Matches (z.subReal k) (w.subReal k) :=
  ⟨h.1.sub (.refl _), h.2.sub (.refl _)⟩

theorem mulReal (h : Matches z w) (k : Float) : Matches (z.mulReal k) (w.mulReal k) :=
  ⟨h.1.mul (.refl _), h.2.mul (.refl _)⟩

theorem abs_eq (h : Matches z w) : z.abs = w.abs := by
  unfold Number.abs
  rw [h.1.isInf_eq, h.2.isInf_eq, h.1.abs_eq, h.2.abs_eq]
  dsimp only
  rw [(h.1.div _).mul_self_eq, (h.2.div _).mul_self_eq]

/-- The sign that a zero imaginary part has is not tested, and the real part of a root is computed
from absolute values. -/
theorem sqrt (h : Matches z w) : Matches z.sqrt w.sqrt := by
  unfold Number.sqrt
  simp only [h.1.beq_left 0.0, h.2.abs_eq, h.abs_eq, h.1.abs_eq, h.2.lt_left 0.0, gt_iff_lt,
    h.1.lt_right 0.0]
  split
  · exact .refl _
  · split
    · exact ⟨.refl _, h.2.div _⟩
    · exact .refl _

theorem powerTimes {r r' : Number} (hr : Matches r r') (hz : Matches z z') (e : Nat) :
    Matches (Number.powerTimes r z e) (Number.powerTimes r' z' e) := by
  induction e using Nat.strongRecOn generalizing r r' z z' with
  | ind e ih =>
    rw [Number.powerTimes_eq r, Number.powerTimes_eq r']
    split
    · exact hr.mul hz
    · have hhalf : e / 2 < e := by omega
      split
      · exact ih _ hhalf (hr.mul hz) (hz.mul hz)
      · exact ih _ hhalf hr (hz.mul hz)

theorem intPower (h : Matches z w) (e : Nat) : Matches (z.intPower e) (w.intPower e) := by
  induction e using Nat.strongRecOn generalizing z w with
  | ind e ih =>
    rw [Number.intPower_eq z, Number.intPower_eq w]
    split
    · exact h
    · split
      · exact h.powerTimes (h.mul h) _
      · exact ih _ (by omega) (h.mul h)

end Matches

end Number

/-- The same failure, or matching numbers. -/
def Agree : Except Failure Number → Except Failure Number → Prop
  | .ok z, .ok w => z.Matches w
  | .error e, .error f => e = f
  | _, _ => False

namespace Number
namespace Matches

variable {z z' w w' : Number}

theorem divReal (h : Matches z w) (k : Float) : Agree (z.divReal k) (w.divReal k) := by
  unfold Number.divReal
  split
  · exact rfl
  · exact ⟨h.1.div k, h.2.div k⟩

theorem div (hz : Matches z z') (hw : Matches w w') : Agree (z.div w) (z'.div w') := by
  unfold Number.div
  simp only [hw.1.beq_left 0.0, hw.2.beq_left 0.0, hw.1.abs_eq, hw.2.abs_eq]
  split
  · exact rfl
  · split
    · exact rfl
    · rw [(hw.1.div _).mul_self_eq, (hw.2.div _).mul_self_eq]
      have hconj : ∀ s, Matches ⟨w.re / s, -(w.im / s)⟩ ⟨w'.re / s, -(w'.im / s)⟩ :=
        fun s => ⟨hw.1.div s, (hw.2.div s).neg⟩
      exact divReal (hz.mul (hconj _)) _

end Matches

/-! ## Signs of roots -/

theorem isNegative_larger {x y : Float} (hx : isNegative x = false) (hy : isNegative y = false) :
    isNegative (Double.larger x y) = false := by
  unfold Double.larger
  split
  · exact hy
  · exact hx

theorem isNegative_abs (z : Number) : isNegative z.abs = false := by
  have hsquares : ∀ x y : Float, isNegative (x * x + y * y) = false := fun x y =>
    Double.isNegative_add (Double.isNegative_mul_self x) (Double.isNegative_mul_self y)
  unfold Number.abs
  split
  · decide +kernel
  · dsimp only
    split
    · decide +kernel
    · refine Double.isNegative_mul ?_ (Double.isNegative_sqrt ?_)
      · exact isNegative_larger (Double.isNegative_abs _) (Double.isNegative_abs _)
      · exact hsquares _ _

/-- The real part of a principal root is not negative, not even a negative zero. -/
theorem isNegative_re_sqrt (z : Number) : isNegative z.sqrt.re = false := by
  have htwo : isNegative 2.0 = false := by decide +kernel
  have ht : isNegative (2.0 * (z.abs + z.re.abs)).sqrt = false := by
    refine Double.isNegative_sqrt (Double.isNegative_mul htwo ?_)
    exact Double.isNegative_add z.isNegative_abs (Double.isNegative_abs _)
  unfold Number.sqrt
  split
  · exact Double.isNegative_sqrt (Double.isNegative_div (Double.isNegative_abs _) htwo)
  · dsimp only
    split
    · exact Double.isNegative_div ht htwo
    · exact Double.isNegative_div (Double.isNegative_abs _) ht

end Number
end ComplexCalc
