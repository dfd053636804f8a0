import ComplexCalc.Double
import Mathlib
/-!
# Absolute values of doubles

A double is its sign, its exponent and its mantissa, and the absolute value makes the sign positive.
Packing the result and unpacking it again gives it back, which settles how absolute values compare.
-/
namespace ComplexCalc.Double

open Float.Model

/-! ## Packing -/

theorem unpack_of_isNaNBits {b : BitVec Format.binary64.numBits}
    (h : UnpackedFloat.isNaNBits b = true) :
    UnpackedFloat.unpack Format.binary64 b = .notANumber := by
  simp only [UnpackedFloat.isNaNBits, decide_eq_true_eq] at h
  simp [UnpackedFloat.unpack, h]

/-- What bits stand for survives packing. -/
theorem unpack_pack_unpack (b : BitVec Format.binary64.numBits) :
    UnpackedFloat.unpack Format.binary64
      (UnpackedFloat.pack Format.binary64 (UnpackedFloat.unpack Format.binary64 b)) =
      UnpackedFloat.unpack Format.binary64 b := by
  rw [UnpackedFloat.pack_unpack]
  split
  · rename_i h
    rw [UnpackedFloat.unpack_packedNaN, unpack_of_isNaNBits h]
  · rfl

/-- A double is what it stands for, packed. -/
theorem ofModel_pack_unpack (x : Float) : Float.ofModel (Float.Model.pack x.toModel.unpack) = x := by
  obtain ⟨⟨bits, hbits⟩⟩ := x
  have hpack := UnpackedFloat.pack_unpack_of_valid hbits
  simp only [Float.Model.pack, Float.Model.unpack, hpack, UInt64.ofBitVec_toBitVec]

theorem ofModel_pack_of_eq {x : Float} {u : UnpackedFloat} (h : u = x.toModel.unpack) :
    Float.ofModel (Float.Model.pack u) = x := h ▸ ofModel_pack_unpack x

/-- The absolute value of what bits stand for is what the bits with a positive sign stand for. -/
theorem unpack_positive (b : BitVec Format.binary64.numBits) :
    UnpackedFloat.unpack Format.binary64 (UnpackedFloat.packComponents Format.binary64 .positive
        (UnpackedFloat.unpackExponent b) (UnpackedFloat.unpackMantissa b)) =
      (UnpackedFloat.unpack Format.binary64 b).abs := by
  simp only [UnpackedFloat.unpack, UnpackedFloat.unpackSign_packComponents,
    UnpackedFloat.unpackExponent_packComponents, UnpackedFloat.unpackMantissa_packComponents,
    UnpackedFloat.Sign.ofBitVec_toBitVec]
  split
  · split <;> rfl
  · split
    · split <;> rfl
    · rfl

theorem unpack_abs (x : Float) : x.abs.toModel.unpack = x.toModel.unpack.abs := by
  have hx : x.abs.toModel.unpack = UnpackedFloat.unpack Format.binary64
      (UnpackedFloat.pack Format.binary64 x.toModel.unpack.abs) := rfl
  rw [hx, Float.Model.unpack, ← unpack_positive, unpack_pack_unpack]

/-! ## Comparisons -/

theorem unpack_zero : (0.0 : Float).toModel.unpack = .zero .positive := rfl

theorem beq_zero_iff (x : Float) : (x == 0.0) = true ↔ ∃ s, x.toModel.unpack = .zero s := by
  have h : (x == 0.0) = x.toModel.unpack.beq (.zero .positive) := by
    rw [← unpack_zero]
    rfl
  rw [h, UnpackedFloat.beq_iff_ne_notANumber_and_eq]
  cases x.toModel.unpack with
  | zero s => cases s <;> simp
  | _ => simp

theorem lt_iff (x y : Float) :
    x < y ↔ x.toModel.unpack.compare y.toModel.unpack = some .lt := by
  change decide ((x.toModel.unpack.compare y.toModel.unpack == some .lt) = true) = true ↔ _
  rw [decide_eq_true_iff, beq_iff_eq]

theorem le_iff (x y : Float) :
    x ≤ y ↔ (x.toModel.unpack.compare y.toModel.unpack).any Ordering.isLE = true := by
  change decide ((x.toModel.unpack.compare y.toModel.unpack).any Ordering.isLE = true) = true ↔ _
  rw [decide_eq_true_iff]

theorem compare_swap (u v : UnpackedFloat) : v.compare u = (u.compare v).map Ordering.swap := by
  have hint : ∀ a b : Int, compare b a = (compare a b).swap := fun a b => (Int.compare_swap a b).symm
  have hnat : ∀ a b : Nat, compare b a = (compare a b).swap := fun a b => (Nat.compare_swap a b).symm
  rcases u with ⟨_ | _⟩ | _ | _ | ⟨_ | _, m, e, hm⟩ <;>
    rcases v with ⟨_ | _⟩ | _ | _ | ⟨_ | _, m', e', hm'⟩ <;>
      first
        | rfl
        | simp only [UnpackedFloat.compare, Option.map_some, Ordering.swap_then, hint e e', hnat m m']

theorem not_le_of_lt {x y : Float} (h : x < y) : ¬y ≤ x := by
  rw [le_iff, compare_swap, (lt_iff x y).1 h]
  decide

theorem not_lt_of_le {x y : Float} (h : x ≤ y) : ¬y < x := fun hlt => not_le_of_lt hlt h

/-- What is below something in absolute value is finite. -/
theorem isFinite_of_abs_lt {x y : Float} (h : x.abs < y) : x.isFinite = true := by
  change x.toModel.unpack.isFinite = true
  rw [lt_iff, unpack_abs] at h
  revert h
  rcases x.toModel.unpack with s | _ | s | _ <;> rcases y.toModel.unpack with ⟨_ | _⟩ | _ | _ | _ <;>
    intro h <;> first | rfl | cases h

/-- What is equal to a number other than zero is that number. -/
theorem eq_of_beq {x y : Float} (h : (y == x) = true) (hx : (x == 0.0) = false) : y = x := by
  have hbeq : (y == x) = y.toModel.unpack.beq x.toModel.unpack := rfl
  rw [hbeq, UnpackedFloat.beq_iff_ne_notANumber_and_eq] at h
  obtain ⟨-, -, h | ⟨-, h⟩ | ⟨-, h⟩⟩ := h
  · rw [← ofModel_pack_unpack y, h, ofModel_pack_unpack]
  all_goals
    rw [(beq_zero_iff x).2 ⟨_, h⟩] at hx
    cases hx

theorem isNaN_iff (x : Float) : x.isNaN = true ↔ x.toModel.unpack = .notANumber :=
  UnpackedFloat.isNaN_iff

/-- The larger of two absolute values is zero if the first one is and the second one is zero or no
number. -/
theorem larger_abs_eq_zero (x y : Float) : (larger x.abs y.abs == 0.0) = true ↔
    (x == 0.0) = true ∧ ((y == 0.0) = true ∨ y.isNaN = true) := by
  unfold larger
  rw [apply_ite (fun z => (z == 0.0) = true)]
  simp only [gt_iff_lt, lt_iff, beq_zero_iff, isNaN_iff, unpack_abs]
  cases x.toModel.unpack <;> cases y.toModel.unpack <;>
    simp [UnpackedFloat.abs, UnpackedFloat.compare]

/-! ## Signs and zeros -/

/-- The number, where a zero is positive. -/
def plain (x : Float) : Float := if x == 0.0 then 0.0 else x

section Plain
variable {x : Float}

theorem plain_of_zero (h : (x == 0.0) = true) : plain x = 0.0 := if_pos h

theorem plain_cases (x : Float) : (∃ s, x.toModel.unpack = .zero s ∧ plain x = 0.0) ∨
    (∀ s, x.toModel.unpack ≠ .zero s) ∧ plain x = x := by
  by_cases hx : (x == 0.0) = true
  · obtain ⟨s, hs⟩ := (beq_zero_iff x).1 hx
    exact .inl ⟨s, hs, plain_of_zero hx⟩
  · exact .inr ⟨fun s hs => hx ((beq_zero_iff x).2 ⟨s, hs⟩), if_neg hx⟩

/-- The sign of a zero makes no difference. -/
theorem plain_beq (h : x.isFinite = true) : (plain x == x) = true := by
  have hbeq : ∀ y, (y == x) = y.toModel.unpack.beq x.toModel.unpack := fun _ => rfl
  rw [hbeq, UnpackedFloat.beq_iff_ne_notANumber_and_eq]
  rcases plain_cases x with ⟨s, hx, hp⟩ | ⟨-, hp⟩
  · rw [hp, hx, unpack_zero]
    cases s <;> simp
  · have hnan : x.toModel.unpack ≠ .notANumber := fun hnan => by
      have hfinite : x.toModel.unpack.isFinite = true := h
      rw [hnan] at hfinite
      cases hfinite
    rw [hp]
    exact ⟨hnan, hnan, .inl rfl⟩

theorem isNegative_abs (x : Float) : isNegative x.abs = false := by
  unfold isNegative
  rw [unpack_abs]
  cases x.toModel.unpack <;> rfl

/-- A number that is not negative is its absolute value. -/
theorem abs_of_not_negative (h : isNegative x = false) : x.abs = x := by
  unfold isNegative at h
  rw [← ofModel_pack_unpack x.abs, unpack_abs]
  refine ofModel_pack_of_eq ?_
  revert h
  rcases x.toModel.unpack with ⟨_ | _⟩ | _ | ⟨_ | _⟩ | ⟨_ | _, _, _, _⟩ <;> intro h <;>
    first | rfl | cases h

theorem plain_of_not_negative (h : isNegative x = false) : plain x = x := by
  rcases plain_cases x with ⟨s, hx, hp⟩ | ⟨-, hp⟩
  · rw [hp, ← abs_of_not_negative h, ← ofModel_pack_unpack x.abs, unpack_abs, hx]
    rfl
  · exact hp

/-- A negative number is its absolute value taken from zero. -/
theorem zero_sub_abs (h : isNegative x = true) : 0.0 - x.abs = plain x := by
  have hsub : (0.0 - x.abs) = Float.ofModel (Float.Model.pack
      (UnpackedFloat.sub Format.binary64 (.zero .positive) x.toModel.unpack.abs)) := by
    rw [← unpack_abs]
    rfl
  unfold isNegative at h
  rw [hsub]
  rcases plain_cases x with ⟨s, hx, hp⟩ | ⟨hne, hp⟩
  · rw [hp, hx]
    rfl
  · rw [hp]
    refine ofModel_pack_of_eq ?_
    revert h hne
    rcases x.toModel.unpack with ⟨_ | _⟩ | _ | ⟨_ | _⟩ | ⟨_ | _, _, _, _⟩ <;> intro h hne <;>
      first | rfl | exact absurd rfl (hne _) | cases h

/-- A finite number other than zero is above zero or negative. -/
theorem pos_iff (hx : (x == 0.0) = false) (hfinite : x.isFinite = true) :
    0.0 < x ↔ isNegative x = false := by
  have hne : ∀ s, x.toModel.unpack ≠ .zero s := fun s hs => by
    rw [(beq_zero_iff x).2 ⟨s, hs⟩] at hx
    cases hx
  change x.toModel.unpack.isFinite = true at hfinite
  unfold isNegative
  rw [lt_iff, unpack_zero]
  revert hne hfinite
  rcases x.toModel.unpack with s | _ | s | ⟨_ | _, m, e, hm⟩ <;> intro hne hfinite
  · cases hfinite
  · cases hfinite
  · exact absurd rfl (hne s)
  · exact iff_of_false (fun h => by cases h) (fun h => by cases h)
  · exact iff_of_true rfl rfl

/-- A zero has no sign that a comparison sees. -/
theorem not_lt_of_zero (h : (x == 0.0) = true) : ¬x < 0.0 ∧ ¬0.0 < x := by
  obtain ⟨s, hs⟩ := (beq_zero_iff x).1 h
  rw [lt_iff, lt_iff, hs, unpack_zero]
  cases s <;> decide

theorem plain_add_zero (x : Float) : plain x + 0.0 = plain x := by
  rcases plain_cases x with ⟨-, -, hp⟩ | ⟨hne, hp⟩ <;> rw [hp]
  · rfl
  · have hadd : x + 0.0 = Float.ofModel (Float.Model.pack
        (UnpackedFloat.add Format.binary64 x.toModel.unpack (.zero .positive))) := rfl
    rw [hadd]
    refine ofModel_pack_of_eq ?_
    revert hne
    rcases x.toModel.unpack with _ | _ | s | _ <;> intro hne <;>
      first | rfl | exact absurd rfl (hne _)

theorem zero_add_plain (x : Float) : 0.0 + plain x = plain x := by
  rcases plain_cases x with ⟨-, -, hp⟩ | ⟨hne, hp⟩ <;> rw [hp]
  · rfl
  · have hadd : 0.0 + x = Float.ofModel (Float.Model.pack
        (UnpackedFloat.add Format.binary64 (.zero .positive) x.toModel.unpack)) := rfl
    rw [hadd]
    refine ofModel_pack_of_eq ?_
    revert hne
    rcases x.toModel.unpack with _ | _ | s | _ <;> intro hne <;>
      first | rfl | exact absurd rfl (hne _)

theorem sub_positive_zero (x : Float) : x - 0.0 = x := by
  have hsub : x - 0.0 = Float.ofModel (Float.Model.pack
      (UnpackedFloat.sub Format.binary64 x.toModel.unpack (.zero .positive))) := rfl
  rw [hsub]
  refine ofModel_pack_of_eq ?_
  rcases x.toModel.unpack with _ | _ | ⟨_ | _⟩ | _ <;> rfl

end Plain
end ComplexCalc.Double
