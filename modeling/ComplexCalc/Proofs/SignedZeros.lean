import ComplexCalc.Proofs.Doubles
/-!
# Doubles that differ in the sign of a zero

Comparisons do not see the sign of a zero, and a NaN is equal to nothing. Two doubles match if they
are equal or both NaN, that is, if they are the same double or both a zero. Sums, differences and
products of matching doubles match, and so do quotients by one divisor. A quotient by matching zeros
need not: its sign is that of the zero.
-/
namespace ComplexCalc.Double

open Float.Model

/-- Equal as doubles, or both NaN. -/
def Matches (x y : Float) : Prop := (x == y) = true ∨ x.isNaN = true ∧ y.isNaN = true

instance (x y : Float) : Decidable (Matches x y) := inferInstanceAs (Decidable (_ ∨ _))

/-! ## What doubles stand for -/

/-- A zero of either sign. -/
def IsZero (u : UnpackedFloat) : Prop := ∃ s, u = .zero s

/-- The same, apart from the sign of a zero. -/
def Alike (u v : UnpackedFloat) : Prop := u = v ∨ IsZero u ∧ IsZero v

namespace Alike

variable {u u' v v' : UnpackedFloat}

theorem neg (h : Alike u u') : Alike u.neg u'.neg := by
  obtain rfl | ⟨⟨s, rfl⟩, ⟨s', rfl⟩⟩ := h
  · exact .inl rfl
  · exact .inr ⟨⟨_, rfl⟩, ⟨_, rfl⟩⟩

theorem abs (h : Alike u u') : u.abs = u'.abs := by
  obtain rfl | ⟨⟨s, rfl⟩, ⟨s', rfl⟩⟩ := h <;> rfl

/-- Each way of adding zeros gives a zero. -/
theorem zero_add_zero (s t : UnpackedFloat.Sign) :
    IsZero (UnpackedFloat.add .binary64 (.zero s) (.zero t)) := by
  cases s <;> cases t <;> exact ⟨_, rfl⟩

theorem add (hu : Alike u u') (hv : Alike v v') :
    Alike (u.add .binary64 v) (u'.add .binary64 v') := by
  obtain rfl | ⟨⟨s, rfl⟩, ⟨s', rfl⟩⟩ := hu <;> obtain rfl | ⟨⟨t, rfl⟩, ⟨t', rfl⟩⟩ := hv
  · exact .inl rfl
  · cases u with
    | zero s => exact .inr ⟨zero_add_zero s t, zero_add_zero s t'⟩
    | _ => exact .inl rfl
  · cases v with
    | zero t => exact .inr ⟨zero_add_zero s t, zero_add_zero s' t⟩
    | _ => exact .inl rfl
  · exact .inr ⟨zero_add_zero s t, zero_add_zero s' t'⟩

theorem sub (hu : Alike u u') (hv : Alike v v') :
    Alike (u.sub .binary64 v) (u'.sub .binary64 v') := by
  have hzero : ∀ s t, IsZero (UnpackedFloat.sub .binary64 (.zero s) (.zero t)) := by
    intro s t
    cases s <;> cases t <;> exact ⟨_, rfl⟩
  obtain rfl | ⟨⟨s, rfl⟩, ⟨s', rfl⟩⟩ := hu <;> obtain rfl | ⟨⟨t, rfl⟩, ⟨t', rfl⟩⟩ := hv
  · exact .inl rfl
  · cases u with
    | zero s => exact .inr ⟨hzero s t, hzero s t'⟩
    | _ => exact .inl rfl
  · cases v with
    | zero t => exact .inr ⟨hzero s t, hzero s' t⟩
    | _ => exact .inl rfl
  · exact .inr ⟨hzero s t, hzero s' t'⟩

theorem mul (hu : Alike u u') (hv : Alike v v') :
    Alike (u.mul .binary64 v) (u'.mul .binary64 v') := by
  obtain rfl | ⟨⟨s, rfl⟩, ⟨s', rfl⟩⟩ := hu <;> obtain rfl | ⟨⟨t, rfl⟩, ⟨t', rfl⟩⟩ := hv
  · exact .inl rfl
  · cases u with
    | zero s => exact .inr ⟨⟨_, rfl⟩, ⟨_, rfl⟩⟩
    | finite s m e hm => exact .inr ⟨⟨_, rfl⟩, ⟨_, rfl⟩⟩
    | _ => exact .inl rfl
  · cases v with
    | zero t => exact .inr ⟨⟨_, rfl⟩, ⟨_, rfl⟩⟩
    | finite t m e hm => exact .inr ⟨⟨_, rfl⟩, ⟨_, rfl⟩⟩
    | _ => exact .inl rfl
  · exact .inr ⟨⟨_, rfl⟩, ⟨_, rfl⟩⟩

/-- The divisor is the same, because the sign of a quotient shows the sign of a zero divisor. -/
theorem div (hu : Alike u u') (v : UnpackedFloat) :
    Alike (u.div .binary64 v) (u'.div .binary64 v) := by
  obtain rfl | ⟨⟨s, rfl⟩, ⟨s', rfl⟩⟩ := hu
  · exact .inl rfl
  · cases v with
    | infinity t => exact .inr ⟨⟨_, rfl⟩, ⟨_, rfl⟩⟩
    | finite t m e hm => exact .inr ⟨⟨_, rfl⟩, ⟨_, rfl⟩⟩
    | _ => exact .inl rfl

theorem compare_left (h : Alike u u') (v : UnpackedFloat) : u.compare v = u'.compare v := by
  obtain rfl | ⟨⟨s, rfl⟩, ⟨s', rfl⟩⟩ := h
  · rfl
  · cases v with
    | infinity t => cases t <;> rfl
    | finite t m e hm => cases t <;> rfl
    | _ => rfl

theorem compare_right (h : Alike u u') (v : UnpackedFloat) : v.compare u = v.compare u' := by
  rw [compare_swap u v, compare_swap u' v, h.compare_left]

/-- Every zero becomes a zero when it is packed. -/
theorem pack (h : Alike u v) : Alike (Float.Model.pack u).unpack (Float.Model.pack v).unpack := by
  have hzero : ∀ s, IsZero (Float.Model.pack (.zero s)).unpack := by
    intro s
    cases s <;> exact ⟨_, rfl⟩
  obtain rfl | ⟨⟨s, rfl⟩, ⟨t, rfl⟩⟩ := h
  · exact .inl rfl
  · exact .inr ⟨hzero s, hzero t⟩

end Alike

/-! ## Matching doubles -/

theorem beq_eq_unpack (x y : Float) : (x == y) = x.toModel.unpack.beq y.toModel.unpack := rfl

theorem matches_iff_alike {x y : Float} : Matches x y ↔ Alike x.toModel.unpack y.toModel.unpack := by
  unfold Matches Alike IsZero
  rw [beq_eq_unpack, UnpackedFloat.beq_iff_ne_notANumber_and_eq, isNaN_iff, isNaN_iff]
  generalize x.toModel.unpack = u
  generalize y.toModel.unpack = v
  constructor
  · rintro (⟨-, -, h | ⟨hu, hv⟩ | ⟨hu, hv⟩⟩ | ⟨hu, hv⟩)
    · exact .inl h
    · exact .inr ⟨⟨_, hu⟩, ⟨_, hv⟩⟩
    · exact .inr ⟨⟨_, hu⟩, ⟨_, hv⟩⟩
    · exact .inl (hu.trans hv.symm)
  · rintro (rfl | ⟨⟨s, rfl⟩, ⟨t, rfl⟩⟩)
    · by_cases hu : u = .notANumber
      · exact .inr ⟨hu, hu⟩
      · exact .inl ⟨hu, hu, .inl rfl⟩
    · cases s <;> cases t <;> simp

theorem matches_iff {x y : Float} :
    Matches x y ↔ x = y ∨ (x == 0.0) = true ∧ (y == 0.0) = true := by
  rw [matches_iff_alike, Alike, beq_zero_iff, beq_zero_iff]
  refine or_congr_left ⟨fun h => ?_, fun h => h ▸ rfl⟩
  rw [← ofModel_pack_unpack x, h, ofModel_pack_unpack]

theorem eq_zero_of_beq {x : Float} (h : (x == 0.0) = true) : x = 0.0 ∨ x = -0.0 := by
  obtain ⟨s, hs⟩ := (beq_zero_iff x).1 h
  rw [← ofModel_pack_unpack x, hs]
  cases s with
  | positive => exact .inl rfl
  | negative => exact .inr rfl

namespace Matches

variable {x x' y y' : Float}

theorem of_beq (h : (x == y) = true) : Matches x y := .inl h

@[refl] theorem refl (x : Float) : Matches x x := matches_iff.2 (.inl rfl)

theorem of_zero (hx : (x == 0.0) = true) (hy : (y == 0.0) = true) : Matches x y :=
  matches_iff.2 (.inr ⟨hx, hy⟩)

theorem of_isNaN (hx : x.isNaN = true) (hy : y.isNaN = true) : Matches x y := .inr ⟨hx, hy⟩

theorem symm (h : Matches x y) : Matches y x := matches_iff.2 ((matches_iff.1 h).imp .symm .symm)

theorem trans {z : Float} (hxy : Matches x y) (hyz : Matches y z) : Matches x z := by
  obtain rfl | ⟨hx, hy⟩ := matches_iff.1 hxy
  · exact hyz
  · obtain rfl | ⟨-, hz⟩ := matches_iff.1 hyz
    · exact hxy
    · exact .of_zero hx hz

/-- Other than zero, only equal doubles match. -/
theorem eq_of_ne_zero (h : Matches x y) (hx : (x == 0.0) = false) : x = y := by
  obtain h | ⟨hzero, -⟩ := matches_iff.1 h
  · exact h
  · rw [hx] at hzero
    cases hzero

theorem alike (h : Matches x y) : Alike x.toModel.unpack y.toModel.unpack := matches_iff_alike.1 h

theorem ofModel {u v : UnpackedFloat} (h : Alike u v) :
    Matches (Float.ofModel (Float.Model.pack u)) (Float.ofModel (Float.Model.pack v)) :=
  matches_iff_alike.2 h.pack

/-! ### Operations -/

theorem neg (h : Matches x x') : Matches (-x) (-x') := ofModel h.alike.neg

theorem add (hx : Matches x x') (hy : Matches y y') : Matches (x + y) (x' + y') :=
  ofModel (hx.alike.add hy.alike)

theorem sub (hx : Matches x x') (hy : Matches y y') : Matches (x - y) (x' - y') :=
  ofModel (hx.alike.sub hy.alike)

theorem mul (hx : Matches x x') (hy : Matches y y') : Matches (x * y) (x' * y') :=
  ofModel (hx.alike.mul hy.alike)

theorem div (hx : Matches x x') (k : Float) : Matches (x / k) (x' / k) :=
  ofModel (hx.alike.div k.toModel.unpack)

theorem abs_eq (h : Matches x x') : x.abs = x'.abs := by
  rw [← ofModel_pack_unpack x.abs, ← ofModel_pack_unpack x'.abs, unpack_abs, unpack_abs, h.alike.abs]

/-! ### What does not see the sign of a zero -/

theorem beq_left (h : Matches x x') (y : Float) : (x == y) = (x' == y) := by
  change (x.toModel.unpack.compare _ == _) = (x'.toModel.unpack.compare _ == _)
  rw [h.alike.compare_left]

theorem lt_left (h : Matches x x') (y : Float) : x < y ↔ x' < y := by
  rw [lt_iff, lt_iff, h.alike.compare_left]

theorem lt_right (h : Matches x x') (y : Float) : y < x ↔ y < x' := by
  rw [lt_iff, lt_iff, h.alike.compare_right]

theorem le_right (h : Matches x x') (y : Float) : y ≤ x ↔ y ≤ x' := by
  rw [le_iff, le_iff, h.alike.compare_right]

theorem isNaN_eq (h : Matches x x') : x.isNaN = x'.isNaN := by
  change x.toModel.unpack.isNaN = x'.toModel.unpack.isNaN
  obtain h | ⟨⟨s, h⟩, ⟨s', h'⟩⟩ := h.alike
  · rw [h]
  · rw [h, h']
    rfl

theorem isInf_eq (h : Matches x x') : x.isInf = x'.isInf := by
  change x.toModel.unpack.isInf = x'.toModel.unpack.isInf
  obtain h | ⟨⟨s, h⟩, ⟨s', h'⟩⟩ := h.alike
  · rw [h]
  · rw [h, h']
    rfl

theorem integer?_eq (h : Matches x x') : integer? x = integer? x' := by
  have hzero : ∀ {z : Float}, (z == 0.0) = true → integer? z = some 0 := by
    intro z hz
    obtain ⟨s, hs⟩ := (beq_zero_iff z).1 hz
    cases s <;> simp [integer?, magnitude?, isNegative, hs]
  obtain rfl | ⟨hx, hx'⟩ := matches_iff.1 h
  · rfl
  · rw [hzero hx, hzero hx']

/-- The square of a zero is a positive zero. -/
theorem mul_self_eq (h : Matches x x') : x * x = x' * x' := by
  change Float.ofModel (Float.Model.pack (x.toModel.unpack.mul .binary64 _)) =
    Float.ofModel (Float.Model.pack (x'.toModel.unpack.mul .binary64 _))
  obtain h | ⟨⟨s, h⟩, ⟨s', h'⟩⟩ := h.alike
  · rw [h]
  · rw [h, h']
    cases s <;> cases s' <;> rfl

theorem isFinite_eq (h : Matches x x') : x.isFinite = x'.isFinite := by
  change x.toModel.unpack.isFinite = x'.toModel.unpack.isFinite
  obtain h | ⟨⟨s, h⟩, ⟨s', h'⟩⟩ := h.alike
  · rw [h]
  · rw [h, h']
    rfl

end Matches

/-! ## Doubles without a sign -/

open UnpackedFloat in
/-- Without a negative sign. -/
inductive Unsigned : UnpackedFloat → Prop where
  | notANumber : Unsigned .notANumber
  | infinity : Unsigned (.infinity .positive)
  | zero : Unsigned (.zero .positive)
  | finite (m : Nat) (e : Int) (h : 0 < m) : Unsigned (.finite .positive m e h)

namespace Unsigned

open UnpackedFloat

variable {u v : UnpackedFloat}

theorem abs (u : UnpackedFloat) : Unsigned u.abs := by
  cases u with
  | notANumber => exact .notANumber
  | infinity => exact .infinity
  | zero => exact .zero
  | finite s m e h => exact .finite m e h

/-- Rounding keeps the sign. -/
theorem roundWithAccuracy (m : Nat) (e : Int) (a : Accuracy) :
    Unsigned (roundWithAccuracy .binary64 .positive m e a) := by
  unfold UnpackedFloat.roundWithAccuracy
  dsimp only
  split
  · exact .zero
  · exact .finite _ _ _

theorem normalize {m : Int} (hm : 0 ≤ m) (e : Int) :
    Unsigned (UnpackedFloat.normalize .binary64 m e .positive) := by
  unfold UnpackedFloat.normalize
  split
  · rename_i h
    rw [compare_lt_iff_lt] at h
    omega
  · exact .zero
  · exact .roundWithAccuracy _ _ _

theorem add (hu : Unsigned u) (hv : Unsigned v) : Unsigned (u.add .binary64 v) := by
  cases hu with
  | notANumber => exact .notANumber
  | infinity => cases hv <;> constructor
  | zero => cases hv <;> constructor
  | finite m e h =>
    cases hv with
    | finite m' e' h' => exact .normalize (Int.add_nonneg (Int.natCast_nonneg _) (Int.natCast_nonneg _)) _
    | _ => constructor

theorem mul (hu : Unsigned u) (hv : Unsigned v) : Unsigned (u.mul .binary64 v) := by
  cases hu with
  | finite m e h =>
    cases hv with
    | finite m' e' h' => exact .roundWithAccuracy _ _ _
    | _ => constructor
  | _ => cases hv <;> constructor

theorem mul_self (u : UnpackedFloat) : Unsigned (u.mul .binary64 u) := by
  cases u with
  | notANumber => exact .notANumber
  | infinity s => cases s <;> exact .infinity
  | zero s => cases s <;> exact .zero
  | finite s m e h => cases s <;> exact .roundWithAccuracy _ _ _

theorem div (hu : Unsigned u) (hv : Unsigned v) : Unsigned (u.div .binary64 v) := by
  cases hu with
  | finite m e h =>
    cases hv with
    | finite m' e' h' => exact .roundWithAccuracy _ _ _
    | _ => constructor
  | _ => cases hv <;> constructor

theorem sqrt (hu : Unsigned u) : Unsigned (u.sqrt .binary64) := by
  cases hu with
  | finite m e h => exact .roundWithAccuracy _ _ _
  | _ => constructor

/-- What is packed without a sign is unpacked without one. -/
theorem pack (h : Unsigned u) : Unsigned (Float.Model.pack u).unpack := by
  have hcomponents : ∀ (e : BitVec Format.binary64.exponentBits)
      (m : BitVec Format.binary64.mantissaBitsWithoutImplicit),
      Unsigned (unpack .binary64 (packComponents .binary64 .positive e m)) := by
    intro e m
    have h := unpack_positive (packComponents .binary64 .positive e m)
    rw [unpackExponent_packComponents, unpackMantissa_packComponents] at h
    rw [h]
    exact .abs _
  change Unsigned (unpack .binary64 (UnpackedFloat.pack .binary64 u))
  cases h with
  | notANumber => exact hcomponents _ _
  | infinity => exact hcomponents _ _
  | zero => exact hcomponents _ _
  | finite m e h =>
    unfold UnpackedFloat.pack
    dsimp only
    split
    · exact hcomponents _ _
    · split
      · exact hcomponents _ _
      · exact hcomponents _ _

end Unsigned

section Unsigned

variable {x y : Float}

theorem isNegative_eq_false_iff : isNegative x = false ↔ Unsigned x.toModel.unpack := by
  unfold isNegative
  generalize x.toModel.unpack = u
  constructor
  · rcases u with ⟨_ | _⟩ | _ | ⟨_ | _⟩ | ⟨_ | _, m, e, hm⟩ <;> intro h <;>
      first | constructor | cases h
  · intro h
    cases h <;> rfl

theorem isNegative_of_isNaN (h : x.isNaN = true) : isNegative x = false := by
  rw [isNegative_eq_false_iff, (isNaN_iff x).1 h]
  exact .notANumber

theorem isNegative_ofModel {u : UnpackedFloat} (h : Unsigned u) :
    isNegative (Float.ofModel (Float.Model.pack u)) = false := isNegative_eq_false_iff.2 h.pack

theorem isNegative_add (hx : isNegative x = false) (hy : isNegative y = false) :
    isNegative (x + y) = false :=
  isNegative_ofModel ((isNegative_eq_false_iff.1 hx).add (isNegative_eq_false_iff.1 hy))

/-- A negative zero makes no sum negative. -/
theorem isNegative_zero_add (hx : (x == 0.0) = true) (hy : isNegative y = false) :
    isNegative (x + y) = false := by
  obtain ⟨s, hs⟩ := (beq_zero_iff x).1 hx
  refine isNegative_ofModel (u := UnpackedFloat.add .binary64 x.toModel.unpack _) ?_
  rw [hs]
  have hy := isNegative_eq_false_iff.1 hy
  cases s with
  | positive => exact .add .zero hy
  | negative =>
    revert hy
    generalize y.toModel.unpack = v
    intro hy
    cases hy <;> constructor

theorem isNegative_mul (hx : isNegative x = false) (hy : isNegative y = false) :
    isNegative (x * y) = false :=
  isNegative_ofModel ((isNegative_eq_false_iff.1 hx).mul (isNegative_eq_false_iff.1 hy))

theorem isNegative_mul_self (x : Float) : isNegative (x * x) = false :=
  isNegative_ofModel (.mul_self x.toModel.unpack)

theorem isNegative_div (hx : isNegative x = false) (hy : isNegative y = false) :
    isNegative (x / y) = false :=
  isNegative_ofModel ((isNegative_eq_false_iff.1 hx).div (isNegative_eq_false_iff.1 hy))

theorem isNegative_sqrt (hx : isNegative x = false) : isNegative x.sqrt = false :=
  isNegative_ofModel (isNegative_eq_false_iff.1 hx).sqrt

end Unsigned

end ComplexCalc.Double
