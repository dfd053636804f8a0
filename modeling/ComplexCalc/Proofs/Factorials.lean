import ComplexCalc.Proofs.Modulus
import Mathlib.Data.Nat.Factorial.Basic
/-!
# Factorials

The loop of the factorial multiplies exactly and gives up at the first product that is beyond the largest
double, which is the factorial of 171. Up to there its result is the factorial, which is rounded once.
The products that the loop makes are those up to there, however large the argument is.
-/
namespace ComplexCalc

open Double
open scoped Nat

namespace Rule

/-! ## The loop -/

/-- The multiplication, with a record of its products. -/
def timesRecorded (a b : Nat) : StateM (List Nat) Nat := do
  modify (· ++ [a * b])
  pure (a * b)

theorem largest_eq : largest = (2 ^ 53 - 1) * 2 ^ 971 := by
  unfold largest
  -- The power is not to be evaluated.
  generalize 971 = e
  rfl

theorem factorial_at_bound : 170 ! ≤ largest ∧ largest < 171 ! := by
  -- The exponents are small enough for the powers to be evaluated.
  have hpow : 2 ^ (194 * 5 + 1) = (2 ^ 194) ^ 5 * 2 := by rw [pow_succ, pow_mul]
  rw [largest_eq, show 971 = 194 * 5 + 1 from rfl, hpow]
  norm_num [Nat.factorial]

/-- The factorials up to that of 170 are within the doubles. -/
theorem factorial_le_largest_iff {n : Nat} : n ! ≤ largest ↔ n ≤ 170 := by
  refine ⟨fun h => ?_, fun h => (Nat.factorial_le h).trans factorial_at_bound.1⟩
  by_contra hn
  exact absurd (factorial_at_bound.2.trans_le (Nat.factorial_le (show 171 ≤ n by omega)))
    (not_lt.2 h)

/-- One round of the loop with the record. -/
theorem run_risingProductBy_succ (result i count : Nat) (made : List Nat) :
    (risingProductBy timesRecorded result i (count + 1)).run made =
      if largest < result * i then (none, made ++ [result * i])
      else (risingProductBy timesRecorded (result * i) (i + 1) count).run (made ++ [result * i]) := by
  show StateT.run (do
    let next ← timesRecorded result i
    if largest < next then pure none else risingProductBy timesRecorded next (i + 1) count) made = _
  rw [StateT.run_bind]
  split
  · rename_i h
    simp only [timesRecorded, StateT.run_bind, StateT.run_modify, StateT.run_pure, pure_bind, if_pos h]
    rfl
  · rename_i h
    simp only [timesRecorded, StateT.run_bind, StateT.run_modify, StateT.run_pure, pure_bind, if_neg h]

/-- The record leaves the loop as it is. -/
theorem run_risingProductBy (result i count : Nat) (made : List Nat) :
    ((risingProductBy timesRecorded result i count).run made).1 = risingProduct result i count := by
  induction count generalizing result i made with
  | zero => rfl
  | succ count ih =>
    rw [run_risingProductBy_succ, risingProduct_succ]
    split
    · rfl
    · exact ih ..

/-- From a factorial within the doubles on, the loop makes the factorials up to the first one beyond
them, and gives up there. -/
theorem run_risingProductBy_factorial {k : Nat} (hk : k ≤ 170) (count : Nat) (made : List Nat) :
    (risingProductBy timesRecorded k ! (k + 1) count).run made =
      (if k + count ≤ 170 then some (k + count)! else none,
        made ++ (List.range' (k + 1) (min (k + count) 171 - k)).map Nat.factorial) := by
  induction count generalizing k made with
  | zero =>
    have hnone : min k 171 - k = 0 := by omega
    simp only [Nat.add_zero, if_pos hk, hnone, List.range'_zero, List.map_nil, List.append_nil]
    rfl
  | succ count ih =>
    have hnext : k ! * (k + 1) = (k + 1)! := by rw [Nat.factorial_succ, Nat.mul_comm]
    have hsum : k + 1 + count = k + (count + 1) := by omega
    rw [run_risingProductBy_succ, hnext]
    by_cases hbeyond : largest < (k + 1)!
    · have hlast : ¬k + 1 ≤ 170 := fun h => absurd hbeyond (not_lt.2 (factorial_le_largest_iff.2 h))
      have hone : min (k + (count + 1)) 171 - k = 1 := by omega
      rw [if_pos hbeyond, if_neg (by omega), hone]
      rfl
    · have hk' := factorial_le_largest_iff.1 (not_lt.1 hbeyond)
      have hmore : min (k + (count + 1)) 171 - k = min (k + 1 + count) 171 - (k + 1) + 1 := by omega
      rw [if_neg hbeyond, ih hk', hsum, hmore, List.range'_succ, hsum]
      simp

theorem run_factorial (n : Nat) : (risingProductBy timesRecorded 1 2 (n - 1)).run [] =
    (if n ≤ 170 then some n ! else none, (List.range' 2 (min n 171 - 1)).map Nat.factorial) := by
  have hloop := run_risingProductBy_factorial (show 1 ≤ 170 by decide) (n - 1) []
  rcases n with - | n
  · exact hloop
  · rwa [Nat.add_sub_cancel, Nat.add_comm 1 n] at hloop

theorem risingProduct_eq (n : Nat) :
    risingProduct 1 2 (n - 1) = if n ≤ 170 then some n ! else none := by
  rw [← run_risingProductBy 1 2 (n - 1) [], run_factorial]

theorem factorial_of_le {n : Nat} (hn : n ! ≤ largest) : factorial n = ofRat n ! := by
  rw [factorial, risingProduct_eq, if_pos (factorial_le_largest_iff.1 hn)]
  exact congrArg Number.re (BasedLiteral.ofInt_natCast n !)

theorem factorial_of_lt {n : Nat} (hn : largest < n !) : factorial n = infinity := by
  rw [factorial, risingProduct_eq, if_neg (fun h => not_le.2 hn (factorial_le_largest_iff.2 h))]

theorem largest_lt_overflowBound : (largest : ℚ) < overflowBound := by
  rw [largest_eq, Nat.cast_mul, Nat.cast_pow, overflowBound_eq, zpow_ofNat, Nat.cast_ofNat]
  exact mul_lt_mul_of_pos_right (by norm_num) (by positivity)

/-- The conversion of a factorial within the doubles does not overflow. -/
theorem roundsTo_factorial {n : Nat} (hn : n ! ≤ largest) :
    RoundsTo n ! (factorial n) ∧ (factorial n).isFinite = true := by
  have hround : RoundsTo n ! (factorial n) := factorial_of_le hn ▸ roundsTo_ofRat (Nat.cast_nonneg _)
  have hle : (n ! : ℚ) ≤ largest := by exact_mod_cast hn
  obtain ⟨u, hu, -⟩ := hround.finite (hle.trans_lt largest_lt_overflowBound)
  exact ⟨hround, isFinite_iff_value?.2 ⟨u, hu⟩⟩

end Rule

/-! ## The operator -/

/-- The value is an integer of any size, on the real axis. -/
def Value.IsInteger (v : Value) (n : ℤ) : Prop :=
  ∃ z, v = .number z ∧ z.isReal = true ∧ value? z.re = some (n : ℚ)

theorem Value.integer?_eq_some_iff {v : Value} {n : ℤ} :
    v.integer? = some n ↔ v.IsInteger n ∧ -2 ^ 63 ≤ n ∧ n < 2 ^ 63 := by
  constructor
  · intro h
    cases v with
    | none => cases h
    | number z =>
      obtain ⟨hreal, hre, hbounds⟩ := Number.integer?_eq_some_iff.1 h
      exact ⟨⟨z, rfl, hreal, Double.integer?_eq_some_iff.1 hre⟩, hbounds⟩
  · rintro ⟨⟨z, rfl, hreal, hre⟩, hbounds⟩
    exact Number.integer?_eq_some_iff.2 ⟨hreal, Double.integer?_eq_some_iff.2 hre, hbounds⟩

section Run
variable {part : EvalM Value} {w w' : Workspace} {v : Value}

theorem fact_integer (hv : part w = (.ok v, w')) {n : ℤ} (hn : v.integer? = some n) :
    Rule.unary .fact part w = (if n < 0 then noValue .negativeFactorial
      else .ok (.number (.ofReal (Rule.factorial n.toNat))), w') := by
  have hpart := expectInteger_apply hv
  rw [Value.expectInteger_eq, hn] at hpart
  refine (Action.bind_ok hpart).trans ?_
  split <;> rfl

theorem fact_not_integer (hv : part w = (.ok v, w')) (hn : v.integer? = none) :
    Rule.unary .fact part w = (noValue (.notInteger (.value v)), w') := by
  have hpart := expectInteger_apply hv
  rw [Value.expectInteger_eq, hn] at hpart
  exact Action.bind_error hpart

/-- The factorial of a value. At an integer that is not negative it is the product of the integers up to
there, rounded once, or infinite if the product is beyond the largest double. The loop makes the
products up to the first one beyond the largest double, which is the factorial of 171, and no more.
The factorial of any other value is an argument error. -/
theorem factorial_is_product_rounded_once (hv : part w = (.ok v, w')) :
    (∀ n : Nat, v.IsInteger n → n < 2 ^ 63 →
      (∃ x, Rule.unary .fact part w = (.ok (.number (.ofReal x)), w') ∧
        (n ! ≤ largest → RoundsTo n ! x ∧ x.isFinite = true) ∧ (largest < n ! → x = infinity)) ∧
      (Rule.risingProductBy Rule.timesRecorded 1 2 (n - 1)).run [] =
        (Rule.risingProduct 1 2 (n - 1), (List.range' 2 (min n 171 - 1)).map Nat.factorial)) ∧
    (∀ n, n ! ≤ largest ↔ n < 171) ∧
    ((∃ e : EvalError, Rule.unary .fact part w = (noValue e, w') ∧ e.kind = .argument) ↔
      ∀ n : Nat, v.IsInteger n → 2 ^ 63 ≤ n) := by
  refine ⟨fun n hn hbound => ⟨⟨Rule.factorial n, ?_, Rule.roundsTo_factorial, Rule.factorial_of_lt⟩, ?_⟩,
    fun n => Rule.factorial_le_largest_iff.trans Nat.lt_succ_iff.symm, ⟨?_, ?_⟩⟩
  · have hn' : v.integer? = some (n : ℤ) := Value.integer?_eq_some_iff.2 ⟨hn, by omega, by omega⟩
    rw [fact_integer hv hn', if_neg (by omega), Int.toNat_natCast]
  · rw [← Rule.run_risingProductBy 1 2 (n - 1) [], Rule.run_factorial]
  · rintro ⟨e, he, -⟩ n hn
    by_contra hbound
    have hn' : v.integer? = some (n : ℤ) := Value.integer?_eq_some_iff.2 ⟨hn, by omega, by omega⟩
    rw [fact_integer hv hn', if_neg (by omega)] at he
    cases he
  · intro hlarge
    rcases hn : v.integer? with - | n
    · exact ⟨_, fact_not_integer hv hn, rfl⟩
    · obtain ⟨hinteger, -, hbound⟩ := Value.integer?_eq_some_iff.1 hn
      have hneg : n < 0 := by
        by_contra hnonneg
        obtain ⟨k, rfl⟩ := Int.eq_ofNat_of_zero_le (not_lt.1 hnonneg)
        have := hlarge k hinteger
        omega
      exact ⟨_, by rw [fact_integer hv hn, if_pos hneg], rfl⟩

/-- The factorial of a large power of two takes no more products than that of 171. -/
theorem factorial_stops_at_power_of_two :
    ∃ x, Rule.unary .fact (pure (.number (.ofReal 4611686018427387904.0)))
        (.fresh default true (.fresh false)) =
        (.ok (.number (.ofReal x)), .fresh default true (.fresh false)) ∧ x = infinity ∧
      (Rule.risingProductBy Rule.timesRecorded 1 2 (2 ^ 62 - 1)).run [] =
        (Rule.risingProduct 1 2 (2 ^ 62 - 1), (List.range' 2 170).map Nat.factorial) := by
  have hrun : (pure (.number (.ofReal 4611686018427387904.0)) : EvalM Value)
      (.fresh default true (.fresh false)) =
      (.ok (.number (.ofReal 4611686018427387904.0)), .fresh default true (.fresh false)) := rfl
  obtain ⟨hproduct, hbound, -⟩ := factorial_is_product_rounded_once hrun
  have hinteger : Double.integer? 4611686018427387904.0 = some ((2 ^ 62 : Nat) : ℤ) := by rfl
  obtain ⟨⟨x, hx, -, hinfinite⟩, hloop⟩ := hproduct (2 ^ 62)
    ⟨_, rfl, by rfl, Double.integer?_eq_some_iff.1 hinteger⟩ (by norm_num)
  have hmin : min (2 ^ 62) 171 - 1 = 170 := by norm_num
  rw [hmin] at hloop
  exact ⟨x, hx, hinfinite (not_le.1 fun h => absurd ((hbound _).1 h) (by norm_num)), hloop⟩

end Run

end ComplexCalc
