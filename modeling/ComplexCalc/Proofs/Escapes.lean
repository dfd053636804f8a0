import ComplexCalc.Proofs.Faults
import ComplexCalc.Proofs.Frame
/-!
# Where a fault escapes

A failure that is not foreseen passes through every rule up to the line it came from, and no rule makes
one of its own but division and two pairs of builtin functions. So a line ends with a fault exactly if
its evaluation reaches a part at which one of these operations breaks.
-/
namespace ComplexCalc

/-- Begun in the state `w`, the step fails with `φ`. -/
def FailsWith {α : Type} (m : EvalM α) (w : Workspace) (φ : Failure) : Prop := (m w).1 = .error φ

section Steps
variable {α β : Type} {m : EvalM α} {f : α → EvalM β} {w : Workspace} {φ : Failure}

theorem failsWith_bind : FailsWith (m >>= f) w φ ↔
    FailsWith m w φ ∨ ∃ a w', m w = (.ok a, w') ∧ FailsWith (f a) w' φ := by
  unfold FailsWith
  rcases hm : m w with ⟨e | a, w'⟩
  · rw [Action.bind_error hm]
    constructor
    · intro h
      cases h
      exact .inl rfl
    · rintro (h | ⟨a, w'', h, -⟩) <;> cases h
      rfl
  · rw [Action.bind_ok hm]
    refine ⟨fun h => .inr ⟨a, w', rfl, h⟩, ?_⟩
    rintro (h | ⟨b, w'', hb, h⟩)
    · cases h
    · cases hb
      exact h

theorem failsWith_bind_ok {a : α} {w' : Workspace} (h : m w = (.ok a, w')) :
    FailsWith (m >>= f) w φ ↔ FailsWith (f a) w' φ := by
  unfold FailsWith
  rw [Action.bind_ok h]

/-- A step that cannot fail with `φ` adds nothing to the failures of the step before. -/
theorem failsWith_bind_left (h : ∀ a w', ¬FailsWith (f a) w' φ) :
    FailsWith (m >>= f) w φ ↔ FailsWith m w φ := by
  refine failsWith_bind.trans ⟨?_, .inl⟩
  rintro (hm | ⟨a, w', -, hf⟩)
  · exact hm
  · exact absurd hf (h a w')

theorem not_failsWith_pure (a : α) : ¬FailsWith (pure a : EvalM α) w φ := by simp [FailsWith]

theorem failsWith_lift {r : Except Failure α} : FailsWith (EvalM.lift r) w φ ↔ r = .error φ := Iff.rfl

theorem not_failsWith_refuse (hφ : φ.Other) (e : EvalError) :
    ¬FailsWith (EvalM.refuse e : EvalM α) w φ := noValue_ne hφ e

/-- A step whose result is put into a value fails as the step does. -/
theorem failsWith_map {g : α → β} : FailsWith (m >>= fun a => pure (g a)) w φ ↔ FailsWith m w φ :=
  failsWith_bind_left fun _ _ => not_failsWith_pure _

theorem not_failsWith_refuse_bind (hφ : φ.Other) (e : EvalError) :
    ¬FailsWith (EvalM.refuse e >>= f) w φ := by
  intro h
  rcases failsWith_bind.1 h with h | ⟨_, _, h, -⟩
  · exact not_failsWith_refuse hφ e h
  · cases h

theorem not_failsWith_draw (g : RandomSource → α × RandomSource) : ¬FailsWith (EvalM.draw g) w φ := by
  simp [FailsWith, EvalM.draw_apply]

theorem not_failsWith_define (hφ : φ.Other) (v : Variable) : ¬FailsWith (EvalM.define v) w φ := by
  unfold FailsWith
  rcases EvalM.define_cases w v with ⟨e, h⟩ | h <;> rw [h]
  · simpa using Ne.symm (hφ e)
  · simp

theorem not_failsWith_assign (hφ : φ.Other) (x : String) (a : Value) :
    ¬FailsWith (EvalM.assign x a) w φ := by
  intro h
  rcases failsWith_bind.1 h with h | ⟨found, w', -, h⟩
  · cases h
  · rcases found with - | ⟨id, v⟩
    · exact not_failsWith_define hφ _ h
    · dsimp only at h
      split at h
      · exact not_failsWith_refuse hφ _ h
      · cases h

end Steps

/-! ## Rules -/

section Rules
variable {part left right : EvalM Value} {args : List Argument} {w : Workspace} {φ : Failure}

theorem FailsWith.expectNumber (h : FailsWith part w φ) : FailsWith (Rule.expectNumber part) w φ :=
  failsWith_bind.2 (.inl h)

theorem FailsWith.expectInteger (h : FailsWith part w φ) : FailsWith (Rule.expectInteger part) w φ :=
  failsWith_bind.2 (.inl h)

theorem failsWith_expectNumber (hφ : φ.Other) :
    FailsWith (Rule.expectNumber part) w φ ↔ FailsWith part w φ := by
  have hlift : ∀ v : Value, v.expectNumber ≠ .error φ := by
    intro v
    cases v with
    | none => exact noValue_ne hφ _
    | number z => exact fun h => by cases h
  simp [Rule.expectNumber, failsWith_bind, failsWith_lift, hlift]

theorem failsWith_expectInteger (hφ : φ.Other) :
    FailsWith (Rule.expectInteger part) w φ ↔ FailsWith part w φ := by
  have hlift : ∀ v : Value, v.expectInteger ≠ .error φ := by
    intro v h
    unfold Value.expectInteger Native.expectInteger at h
    split at h
    · split at h
      · cases h
      · exact noValue_ne hφ _ h
    · exact noValue_ne hφ _ h
  simp [Rule.expectInteger, failsWith_bind, failsWith_lift, hlift]

theorem failsWith_operands (hφ : φ.Other) : FailsWith (Rule.operands left right) w φ ↔
    FailsWith left w φ ∨
      ∃ z w', Rule.expectNumber left w = (.ok z, w') ∧ FailsWith right w' φ := by
  simp only [Rule.operands, failsWith_bind, failsWith_expectNumber hφ, not_failsWith_pure,
    and_false, exists_false, or_false]

theorem not_failsWith_checkCount (hφ : φ.Other) (n : Nat) :
    ¬FailsWith (Rule.checkCount args n) w φ := by
  unfold Rule.checkCount
  split
  · exact not_failsWith_refuse hφ _
  · split
    · exact not_failsWith_refuse hφ _
    · exact not_failsWith_pure _

theorem checkCount_apply (w : Workspace) {n : Nat} (h : args.length = n) :
    Rule.checkCount args n w = (.ok (), w) := by
  unfold Rule.checkCount
  rw [if_neg (by omega), if_neg (by omega)]
  rfl

/-- An argument that is counted from the start is there, or its lack is foreseen. -/
theorem not_failsWith_argumentAt (hφ : φ.Other) (k : Nat) :
    ¬FailsWith (Rule.argumentAt args k) w φ := by
  unfold Rule.argumentAt
  split
  · exact not_failsWith_refuse hφ _
  · rw [if_neg (by omega), if_neg (by omega), Int.toNat_natCast]
    have hk : k < args.length := by omega
    rw [List.getElem?_eq_getElem hk]
    exact not_failsWith_pure _

theorem argumentAt_apply {k : Nat} {a : Argument} (h : args[k]? = some a) :
    Rule.argumentAt args k w = (.ok a, w) := by
  have hk : k < args.length := (List.getElem?_eq_some_iff.1 h).1
  unfold Rule.argumentAt
  rw [if_neg (by omega), if_neg (by omega), if_neg (by omega), Int.toNat_natCast, h]
  rfl

theorem FailsWith.integerArgument {k : Nat} {a : Argument} (ha : args[k]? = some a)
    (h : FailsWith a.value w φ) : FailsWith (Rule.integerArgument args k) w φ :=
  failsWith_bind.2 (.inr ⟨a, w, argumentAt_apply ha, failsWith_bind.2 (.inl h)⟩)

theorem failsWith_integerArgument (hφ : φ.Other) (k : Nat) :
    FailsWith (Rule.integerArgument args k) w φ ↔
      ∃ a, args[k]? = some a ∧ FailsWith a.value w φ := by
  constructor
  · intro h
    rcases failsWith_bind.1 h with h | ⟨a, w', ha, h⟩
    · exact absurd h (not_failsWith_argumentAt hφ k)
    obtain ⟨hk, rfl⟩ := argumentAt_eq_ok ha
    refine ⟨a, hk, (failsWith_bind_left fun v w' => ?_).1 h⟩
    split
    · split
      · exact not_failsWith_pure _
      · exact not_failsWith_refuse hφ _
    · exact not_failsWith_refuse hφ _
  · rintro ⟨a, hk, h⟩
    exact h.integerArgument hk

theorem FailsWith.numberArguments {k : Nat} {a : Argument} {zs : List Number} {w' : Workspace}
    (ha : args[k]? = some a) (hzs : Rule.numberArguments (args.take k) w = (.ok zs, w'))
    (h : FailsWith a.value w' φ) : FailsWith (Rule.numberArguments args) w φ := by
  induction args generalizing k w zs with
  | nil => cases ha
  | cons b rest ih =>
    rw [Rule.numberArguments, failsWith_bind]
    cases k with
    | zero =>
      cases ha
      cases hzs
      exact .inl h.expectNumber
    | succ k =>
      rw [List.take_succ_cons, Rule.numberArguments] at hzs
      obtain ⟨z, w₁, hz, hzs⟩ := Action.bind_eq_ok hzs
      obtain ⟨zs', w₂, hzs', hpure⟩ := Action.bind_eq_ok hzs
      cases hpure
      exact .inr ⟨z, w₁, hz, failsWith_map.2 (ih ha hzs')⟩

theorem failsWith_numberArguments (hφ : φ.Other) : FailsWith (Rule.numberArguments args) w φ ↔
    ∃ (k : Nat) (a : Argument) (zs : List Number) (w' : Workspace), args[k]? = some a ∧
      Rule.numberArguments (args.take k) w = (.ok zs, w') ∧ FailsWith a.value w' φ := by
  refine ⟨fun h => ?_, fun ⟨_, _, _, _, ha, hzs, h⟩ => h.numberArguments ha hzs⟩
  induction args generalizing w with
  | nil => exact absurd h (not_failsWith_pure _)
  | cons a rest ih =>
    rw [Rule.numberArguments, failsWith_bind, failsWith_expectNumber hφ] at h
    rcases h with h | ⟨z, w₁, hz, h⟩
    · exact ⟨0, a, [], w, rfl, rfl, h⟩
    · obtain ⟨k, b, zs, w', hb, hzs, h⟩ := ih (failsWith_map.1 h)
      refine ⟨k + 1, b, z :: zs, w', hb, ?_, h⟩
      rw [List.take_succ_cons, Rule.numberArguments, Action.bind_ok hz, Action.bind_ok hzs]
      rfl

theorem failsWith_numberArguments_singleton (hφ : φ.Other) {a : Argument} :
    FailsWith (Rule.numberArguments [a]) w φ ↔ FailsWith a.value w φ := by
  rw [Rule.numberArguments, failsWith_bind_left, failsWith_expectNumber hφ]
  intro _ _ h
  cases h

theorem FailsWith.sumLoop {x : String} {body : EvalM Value} {count : Nat} {i : Int} {w' : Workspace}
    (hit : Iterates x body count i w w') (h : FailsWith body w' φ) (total : Number) :
    FailsWith (Rule.sumLoop x body count i total) w φ := by
  induction hit generalizing total with
  | here ha => exact failsWith_bind.2 (.inr ⟨(), _, ha, failsWith_bind.2 (.inl h.expectNumber)⟩)
  | later ha hz _ ih =>
    exact failsWith_bind.2 (.inr ⟨(), _, ha, failsWith_bind.2 (.inr ⟨_, _, hz, ih h _⟩)⟩)

theorem failsWith_sumLoop (hφ : φ.Other) {x : String} {body : EvalM Value} {count : Nat} {i : Int}
    {total : Number} : FailsWith (Rule.sumLoop x body count i total) w φ ↔
      ∃ w', Iterates x body count i w w' ∧ FailsWith body w' φ := by
  refine ⟨fun h => ?_, fun ⟨_, hit, h⟩ => h.sumLoop hit total⟩
  induction count generalizing w i total with
  | zero => exact absurd h (not_failsWith_pure _)
  | succ count ih =>
    rcases failsWith_bind.1 h with h | ⟨_, w₁, ha, h⟩
    · exact absurd h (not_failsWith_assign hφ _ _)
    · rcases failsWith_bind.1 h with h | ⟨z, w₂, hz, h⟩
      · exact ⟨w₁, .here ha, (failsWith_expectNumber hφ).1 h⟩
      · obtain ⟨w', hit, h⟩ := ih h
        exact ⟨w', .later ha hz hit, h⟩

/-- A function that takes two integers first fails while it evaluates them. -/
def FailsAtBound (args : List Argument) (w : Workspace) (φ : Failure) : Prop :=
  FailsWith (Rule.integerArgument args 0) w φ ∨ ∃ low w',
    Rule.integerArgument args 0 w = (.ok low, w') ∧ FailsWith (Rule.integerArgument args 1) w' φ

theorem failsWith_randomInteger (hφ : φ.Other) : FailsWith (Rule.randomInteger args) w φ ↔
    args.length ≤ 2 ∧ FailsAtBound args w φ := by
  have hdraw : ∀ (low high : Int) w', ¬FailsWith (do
      let n ← EvalM.draw fun r => r.integer low high
      return Value.number (.ofInt n)) w' φ := by
    intro low high w' h
    exact not_failsWith_draw _ (failsWith_map.1 h)
  have hbetween : ∀ (b : Int × Int) w', ¬FailsWith (if b.2 ≤ b.1 then do
        EvalM.refuse (.emptyRange b.1 b.2)
        let n ← EvalM.draw fun r => r.integer b.1 b.2
        return Value.number (.ofInt n)
      else do
        let n ← EvalM.draw fun r => r.integer b.1 b.2
        return Value.number (.ofInt n)) w' φ := by
    intro b w'
    split
    · exact not_failsWith_refuse_bind hφ _
    · exact hdraw _ _ _
  unfold Rule.randomInteger
  dsimp only
  split
  · exact ⟨fun h => absurd h (not_failsWith_refuse_bind hφ _), fun ⟨h, _⟩ => absurd h (by omega)⟩
  · refine failsWith_bind.trans ?_
    unfold FailsAtBound
    rw [and_iff_right (by omega)]
    refine or_congr .rfl (exists_congr fun first => exists_congr fun w₁ => and_congr_right fun _ => ?_)
    by_cases hlen : args.length = 2
    · rw [if_pos hlen]
      exact failsWith_bind_left fun high w₂ h => hbetween _ w₂ ((failsWith_bind_ok rfl).1 h)
    -- With one argument the other bound is computed, not evaluated.
    · have hsecond : ¬FailsWith (Rule.integerArgument args 1) w₁ φ := by
        intro h
        obtain ⟨a, ha, -⟩ := (failsWith_integerArgument hφ 1).1 h
        have := (List.getElem?_eq_some_iff.1 ha).1
        omega
      refine ⟨fun h => ?_, fun h => absurd h hsecond⟩
      rw [if_neg hlen] at h
      split at h
      · exact absurd ((failsWith_bind_ok rfl).1 h) (hbetween _ _)
      · split at h
        · exact absurd h (not_failsWith_refuse_bind hφ _)
        · exact absurd ((failsWith_bind_ok rfl).1 h) (hbetween _ _)

/-- The arguments of a call of `sum`, begun in the state `w`, make it evaluate its body in the state
`w'`. -/
inductive Loops (args : List Argument) (w : Workspace) : Argument → Workspace → Prop
  | intro {v b : Argument} {x : String} {i j : Int} {scope : Table} {w₁ w₂ w₃ w₄ w' : Workspace} :
      args.length = 4 → args[2]? = some v → v.name = .ok x → args[3]? = some b →
      Rule.integerArgument args 0 w = (.ok i, w₁) → Rule.integerArgument args 1 w₁ = (.ok j, w₂) →
      i ≤ j → EvalM.copy w₂ = (.ok scope, w₃) →
      EvalM.define ⟨x, .number (.ofInt i), false⟩ { w₃ with table := scope } = (.ok (), w₄) →
      Iterates x b.value (j - i).toNat i w₄ w' → Loops args w b w'

theorem failsWith_inTable {α : Type} {t : Table} {step : EvalM α} :
    FailsWith (EvalM.inTable t step) w φ ↔ FailsWith step { w with table := t } φ := Iff.rfl

theorem FailsAtBound.sum (h : FailsAtBound args w φ) (hlen : args.length = 4) :
    FailsWith (Rule.sum args) w φ := by
  refine (failsWith_bind_ok (checkCount_apply w hlen)).2 (failsWith_bind.2 ?_)
  rcases h with h | ⟨low, w₁, hlow, h⟩
  · exact .inl h
  · exact .inr ⟨low, w₁, hlow, failsWith_bind.2 (.inl h)⟩

/-- A sum with its bounds found binds its name in a copy of the table and runs the loop there. -/
theorem sum_apply {v b : Argument} {x : String} {i j : Int} {scope : Table} {w₁ w₂ w₃ : Workspace}
    (hlen : args.length = 4) (hv : args[2]? = some v) (hx : v.name = .ok x) (hb : args[3]? = some b)
    (hlow : Rule.integerArgument args 0 w = (.ok i, w₁))
    (hhigh : Rule.integerArgument args 1 w₁ = (.ok j, w₂)) (hle : i ≤ j)
    (hcopy : EvalM.copy w₂ = (.ok scope, w₃)) :
    Rule.sum args w = EvalM.inTable scope (do
      EvalM.define ⟨x, .number (.ofInt i), false⟩
      return Value.number (← Rule.sumLoop x b.value (j - i).toNat i .zero)) w₃ := by
  have hat₂ : Rule.argumentAt args 2 w₂ = (.ok v, w₂) := argumentAt_apply hv
  have hat₃ : Rule.argumentAt args 3 w₂ = (.ok b, w₂) := argumentAt_apply hb
  unfold Rule.sum
  dsimp only
  rw [Action.bind_ok (checkCount_apply w hlen), Action.bind_ok hlow, Action.bind_ok hhigh,
    if_neg (by omega), Action.bind_ok hat₂, hx, Action.bind_ok (EvalM.lift_apply _ _),
    Action.bind_ok hat₃, Action.bind_ok hcopy]

/-- What the body of a sum fails with, the sum fails with. -/
theorem Loops.failsWith {b : Argument} {w' : Workspace} (hloop : Loops args w b w')
    (h : FailsWith b.value w' φ) : FailsWith (Rule.sum args) w φ := by
  cases hloop with
  | intro hlen hv hx hb hlow hhigh hle hcopy hd hit =>
  unfold FailsWith
  rw [sum_apply hlen hv hx hb hlow hhigh hle hcopy]
  refine failsWith_inTable.2 ((failsWith_bind_ok hd).2 ?_)
  exact failsWith_map.2 (h.sumLoop hit _)

theorem failsWith_sum (hφ : φ.Other) (hname : ∀ a ∈ args, a.name ≠ .error φ) :
    FailsWith (Rule.sum args) w φ ↔ args.length = 4 ∧ FailsAtBound args w φ ∨
      ∃ b w', Loops args w b w' ∧ FailsWith b.value w' φ := by
  unfold Rule.sum
  dsimp only
  constructor
  · intro h
    -- The steps up to the loop are taken one by one; only the bounds evaluate anything.
    rcases failsWith_bind.1 h with h | ⟨_, w₀, hcount, h⟩
    · exact absurd h (not_failsWith_checkCount hφ 4)
    obtain ⟨hlen, rfl⟩ := checkCount_eq_ok hcount
    rcases failsWith_bind.1 h with h | ⟨low, w₁, hlow, h⟩
    · exact .inl ⟨hlen, .inl h⟩
    rcases failsWith_bind.1 h with h | ⟨high, w₂, hhigh, h⟩
    · exact .inl ⟨hlen, .inr ⟨low, w₁, hlow, h⟩⟩
    split at h
    · exact absurd h (not_failsWith_refuse_bind hφ _)
    rcases failsWith_bind.1 h with h | ⟨v, w, hat, h⟩
    · exact absurd h (not_failsWith_argumentAt hφ 2)
    obtain ⟨hv, rfl⟩ := argumentAt_eq_ok (k := 2) hat
    rcases failsWith_bind.1 h with h | ⟨x, w, hlift, h⟩
    · exact absurd h (hname v (List.mem_of_getElem? hv))
    obtain ⟨hx, rfl⟩ := Prod.mk.inj hlift
    rcases failsWith_bind.1 h with h | ⟨b, w, hat, h⟩
    · exact absurd h (not_failsWith_argumentAt hφ 3)
    obtain ⟨hb, rfl⟩ := argumentAt_eq_ok (k := 3) hat
    rcases failsWith_bind.1 h with h | ⟨scope, w₃, hcopy, h⟩
    · cases h
    rcases failsWith_bind.1 (failsWith_inTable.1 h) with h | ⟨_, w₄, hd, h⟩
    · exact absurd h (not_failsWith_define hφ _)
    obtain ⟨w', hit, h⟩ := (failsWith_sumLoop hφ).1 (failsWith_map.1 h)
    exact .inr ⟨b, w', .intro hlen hv hx hb hlow hhigh (by omega) hcopy hd hit, h⟩
  · rintro (⟨hlen, h⟩ | ⟨b, w', hloop, h⟩)
    · exact h.sum hlen
    · exact hloop.failsWith h

/-- The function is one of the language, not of a host. -/
def Callable.IsOwn : Callable → Prop
  | .native _ _ _ | .unary _ _ => False
  | _ => True

theorem numberArguments_length {zs : List Number} {w' : Workspace}
    (h : Rule.numberArguments args w = (.ok zs, w')) : zs.length = args.length := by
  induction args generalizing w zs with
  | nil =>
    cases h
    rfl
  | cons a rest ih =>
    obtain ⟨z, w₁, -, h⟩ := Action.bind_eq_ok h
    obtain ⟨zs', w₂, hzs, h⟩ := Action.bind_eq_ok h
    cases h
    simp [ih hzs]

theorem not_failsWith_asReal (hφ : φ.Other) (z : Number) :
    ¬FailsWith (EvalM.lift z.asReal) w φ := by
  unfold Number.asReal
  split
  · exact not_failsWith_pure _
  · exact not_failsWith_refuse hφ _

theorem failsWith_polar (hφ : φ.Other) {m : RealFunctions} :
    FailsWith (Rule.apply m .polar args) w φ ↔
      args.length = 2 ∧ FailsWith (Rule.numberArguments args) w φ := by
  unfold Rule.apply
  dsimp only
  constructor
  · intro h
    rcases failsWith_bind.1 h with h | ⟨_, w₀, hcount, h⟩
    · exact absurd h (not_failsWith_checkCount hφ 2)
    obtain ⟨hlen, rfl⟩ := checkCount_eq_ok hcount
    rcases failsWith_bind.1 h with h | ⟨zs, w₁, hzs, h⟩
    · exact ⟨hlen, h⟩
    have hpair : zs.length = 2 := (numberArguments_length hzs).trans hlen
    match zs, hpair with
    | [r, theta], _ =>
      rcases failsWith_bind.1 h with h | ⟨_, _, -, h⟩
      · exact absurd h (not_failsWith_asReal hφ r)
      · exact absurd (failsWith_map.1 h) (not_failsWith_asReal hφ theta)
  · rintro ⟨hlen, h⟩
    rw [failsWith_bind_ok (checkCount_apply w hlen)]
    exact failsWith_bind.2 (.inl h)

theorem failsWith_elementary (hφ : φ.Other) {m : RealFunctions} {g : Elementary} :
    FailsWith (Rule.apply m (.elementary g) args) w φ ↔ ∃ a, args = [a] ∧
      (FailsWith a.value w φ ∨
        ∃ z w', Rule.expectNumber a.value w = (.ok z, w') ∧ g.apply m z = .error φ) := by
  unfold Rule.apply
  dsimp only
  constructor
  · intro h
    rcases failsWith_bind.1 h with h | ⟨_, w₀, hcount, h⟩
    · exact absurd h (not_failsWith_checkCount hφ 1)
    obtain ⟨hlen, rfl⟩ := checkCount_eq_ok hcount
    obtain ⟨a, rfl⟩ := List.length_eq_one_iff.1 hlen
    refine ⟨a, rfl, ?_⟩
    rcases failsWith_bind.1 h with h | ⟨b, w₁, hat, h⟩
    · exact absurd h (not_failsWith_argumentAt hφ 0)
    obtain ⟨hb, rfl⟩ := argumentAt_eq_ok (k := 0) hat
    cases hb
    rcases failsWith_bind.1 h with h | ⟨z, w', hz, h⟩
    · exact .inl ((failsWith_expectNumber hφ).1 h)
    · exact .inr ⟨z, w', hz, failsWith_map.1 h⟩
  · rintro ⟨a, rfl, h⟩
    have hcount : Rule.checkCount [a] 1 w = (.ok (), w) := checkCount_apply w rfl
    have hat : Rule.argumentAt [a] 0 w = (.ok a, w) := argumentAt_apply (k := 0) rfl
    rw [failsWith_bind_ok hcount, failsWith_bind_ok hat]
    rcases h with h | ⟨z, w', hz, h⟩
    · exact failsWith_bind.2 (.inl ((failsWith_expectNumber hφ).2 h))
    · rw [failsWith_bind_ok hz]
      exact failsWith_map.2 h

theorem not_failsWith_random (hφ : φ.Other) {m : RealFunctions} :
    ¬FailsWith (Rule.apply m .random args) w φ := by
  intro h
  rcases failsWith_bind.1 h with h | ⟨_, _, -, h⟩
  · exact not_failsWith_checkCount hφ 0 h
  · exact not_failsWith_draw _ (failsWith_map.1 h)

end Rules

/-! ## Expressions -/

/-- The rule of an expression, begun in the state `w`, comes to an operation on numbers that breaks. -/
inductive Breaks (s : Settings) : Expr → Workspace → Fault → Prop
  | quotient {l r : Expr} {z d : Number} {w w' : Workspace} :
      Rule.operands (l.eval s) (r.eval s) w = (.ok (z, d), w') → d.HalfNaN →
      Breaks s (.binary .div l r) w .zeroDivision
  | function {f : String} {a : Expr} {g : Elementary} {z : Number} {w w' : Workspace} {x : Fault} :
      w.table.functions.get? f = some (.elementary g) →
      Rule.expectNumber (a.eval s) w = (.ok z, w') → g.Breaks s.math z x →
      Breaks s (.call f [a]) w x

/-- The rule of an expression, begun in the state `w`, comes to a part whose evaluation fails with
`φ`. -/
def FailsInPart (s : Settings) (e : Expr) (w : Workspace) (φ : Failure) : Prop :=
  ∃ loops e' w', Starts s e w loops e' w' ∧ FailsWith (e'.eval s) w' φ

section Expressions
variable {s : Settings} {w : Workspace} {φ : Failure}

theorem failsInPart_assign {x : String} {v : Expr} :
    FailsInPart s (.assign x v) w φ ↔ FailsWith (v.eval s) w φ := by
  constructor
  · rintro ⟨_, _, _, h, hf⟩
    cases h
    exact hf
  · exact fun h => ⟨_, _, _, .assigned, h⟩

theorem failsInPart_unary {op : UnaryOp} {a : Expr} :
    FailsInPart s (.unary op a) w φ ↔ FailsWith (a.eval s) w φ := by
  constructor
  · rintro ⟨_, _, _, h, hf⟩
    cases h
    exact hf
  · exact fun h => ⟨_, _, _, .operand, h⟩

theorem failsInPart_binary (hφ : φ.Other) {op : BinaryOp} {l r : Expr} (hop : op ≠ .mod) :
    FailsInPart s (.binary op l r) w φ ↔ FailsWith (Rule.operands (l.eval s) (r.eval s)) w φ := by
  rw [failsWith_operands hφ]
  constructor
  · rintro ⟨_, _, _, h, hf⟩
    cases h with
    | left => exact .inl hf
    | right _ hz => exact .inr ⟨_, _, hz, hf⟩
    | divisor => exact absurd rfl hop
  · rintro (h | ⟨z, w', hz, h⟩)
    · exact ⟨_, _, _, .left, h⟩
    · exact ⟨_, _, _, .right hop hz, h⟩

theorem failsInPart_mod {l r : Expr} : FailsInPart s (.binary .mod l r) w φ ↔
    FailsWith (l.eval s) w φ ∨
      ∃ n w', Rule.expectInteger (l.eval s) w = (.ok n, w') ∧ FailsWith (r.eval s) w' φ := by
  constructor
  · rintro ⟨_, _, _, h, hf⟩
    cases h with
    | left => exact .inl hf
    | right hop => exact absurd rfl hop
    | divisor hn => exact .inr ⟨_, _, hn, hf⟩
  · rintro (h | ⟨n, w', hn, h⟩)
    · exact ⟨_, _, _, .left, h⟩
    · exact ⟨_, _, _, .divisor hn, h⟩

/-- A call fails in a part if it does in an argument that it counts on for a number, in one of its
bounds, or in the body of a loop. -/
theorem failsInPart_call (hφ : φ.Other) {f : String} {args : List Expr} {c : Callable}
    (hc : w.table.functions.get? f = some c) : FailsInPart s (.call f args) w φ ↔
      c.arity? = some args.length ∧
        FailsWith (Rule.numberArguments (args.map (Expr.argument s))) w φ ∨
      c.takesBounds args.length ∧ FailsAtBound (args.map (Expr.argument s)) w φ ∨
      c = .sum ∧
        ∃ b w', Loops (args.map (Expr.argument s)) w b w' ∧ FailsWith b.value w' φ := by
  have hget : ∀ {k : Nat} {e : Expr}, args[k]? = some e →
      (args.map (Expr.argument s))[k]? = some (e.argument s) := by
    intro k e he
    rw [List.getElem?_map, he]
    rfl
  constructor
  · rintro ⟨_, e, w', h, hf⟩
    cases h with
    | argument hc' hlen he hzs =>
      cases hc.symm.trans hc'
      exact .inl ⟨hlen, (failsWith_numberArguments hφ).2 ⟨_, _, _, _, hget he, hzs, hf⟩⟩
    | firstBound hc' hlen he =>
      cases hc.symm.trans hc'
      exact .inr (.inl ⟨hlen, .inl ((failsWith_integerArgument hφ 0).2 ⟨_, hget he, hf⟩)⟩)
    | secondBound hc' hlen he hlow =>
      cases hc.symm.trans hc'
      exact .inr (.inl ⟨hlen, .inr ⟨_, _, hlow,
        (failsWith_integerArgument hφ 1).2 ⟨_, hget he, hf⟩⟩⟩)
    | body hc' hlow hhigh hle hcopy hd hit =>
      cases hc.symm.trans hc'
      exact .inr (.inr ⟨rfl, _, w', .intro rfl rfl rfl rfl hlow hhigh hle hcopy hd hit, hf⟩)
  · rintro (⟨hlen, h⟩ | ⟨hlen, h⟩ | ⟨rfl, b, w', h, hf⟩)
    · obtain ⟨k, a, zs, w', ha, hzs, hf⟩ := (failsWith_numberArguments hφ).1 h
      obtain ⟨e, he, rfl⟩ := Expr.of_getElem?_arguments ha
      exact ⟨_, _, _, .argument hc hlen he hzs, hf⟩
    · rcases h with h | ⟨low, w', hlow, h⟩
      · obtain ⟨a, ha, hf⟩ := (failsWith_integerArgument hφ 0).1 h
        obtain ⟨e, he, rfl⟩ := Expr.of_getElem?_arguments ha
        exact ⟨_, _, _, .firstBound hc hlen he, hf⟩
      · obtain ⟨a, ha, hf⟩ := (failsWith_integerArgument hφ 1).1 h
        obtain ⟨e, he, rfl⟩ := Expr.of_getElem?_arguments ha
        exact ⟨_, _, _, .secondBound hc hlen he hlow, hf⟩
    · cases h with
      | intro hlen hv hx hb hlow hhigh hle hcopy hd hit =>
      obtain ⟨n, hn, rfl⟩ := Expr.of_getElem?_arguments hv
      obtain ⟨body, hbody, rfl⟩ := Expr.of_getElem?_arguments hb
      rw [List.length_map] at hlen
      obtain ⟨l, r, rfl⟩ := exists_eq_of_sum hlen hn hx hbody
      exact ⟨_, _, _, .body hc hlow hhigh hle hcopy hd hit, hf⟩

theorem not_breaks_call {f : String} {args : List Expr} {c : Callable} {x : Fault}
    (hc : w.table.functions.get? f = some c) (hne : ∀ g, c ≠ .elementary g) :
    ¬Breaks s (.call f args) w x := by
  intro h
  cases h with
  | function hc' => exact hne _ (Option.some.inj (hc.symm.trans hc'))

theorem argument_name_ne (hφ : φ.Other) (e : Expr) : (e.argument s).name ≠ .error φ := by
  unfold Expr.argument
  dsimp only
  split
  · exact fun h => by cases h
  · exact noValue_ne hφ _

theorem failsWith_elementary_call (hφ : φ.Other) {f : String} {args : List Expr} {g : Elementary}
    (hc : w.table.functions.get? f = some (.elementary g)) :
    FailsWith (Rule.apply s.math (.elementary g) (args.map (Expr.argument s))) w φ ↔
      FailsInPart s (.call f args) w φ ∨ ∃ x, φ = .fault x ∧ Breaks s (.call f args) w x := by
  rw [failsInPart_call hφ hc, failsWith_elementary hφ]
  simp only [Callable.arity?, Callable.takesBounds, false_and, or_false, reduceCtorEq]
  constructor
  · rintro ⟨a, ha, h⟩
    obtain ⟨e, rfl, rfl⟩ := List.map_eq_singleton_iff.1 ha
    rcases h with h | ⟨z, w', hz, h⟩
    · exact .inl ⟨rfl, (failsWith_numberArguments_singleton hφ).2 h⟩
    · obtain ⟨x, rfl, hg⟩ := (Elementary.apply_eq_error hφ).1 h
      exact .inr ⟨x, rfl, .function hc hz hg⟩
  · rintro (⟨hone, h⟩ | ⟨x, rfl, h⟩)
    · obtain ⟨e, rfl⟩ := List.length_eq_one_iff.1 (Option.some.inj hone).symm
      exact ⟨_, rfl, .inl ((failsWith_numberArguments_singleton hφ).1 h)⟩
    · cases h with
      | function hc' hz hg =>
        cases hc.symm.trans hc'
        exact ⟨_, rfl, .inr ⟨_, _, hz, (Elementary.apply_eq_error hφ).2 ⟨x, rfl, hg⟩⟩⟩

theorem failsWith_rule_call (hφ : φ.Other) {f : String} {args : List Expr}
    (hown : ∀ c, w.table.functions.get? f = some c → c.IsOwn) :
    FailsWith (Rule.call s.math f (args.map (Expr.argument s))) w φ ↔
      FailsInPart s (.call f args) w φ ∨ ∃ x, φ = .fault x ∧ Breaks s (.call f args) w x := by
  have hname : ∀ a ∈ args.map (Expr.argument s), a.name ≠ .error φ := by
    intro a ha
    obtain ⟨e, -, rfl⟩ := List.mem_map.1 ha
    exact argument_name_ne hφ e
  have hlen : (args.map (Expr.argument s)).length = args.length := List.length_map _
  unfold Rule.call
  rw [failsWith_bind_ok (EvalM.findFunction?_apply _ _)]
  rcases hc : w.table.functions.get? f with - | c
  · refine ⟨fun h => absurd h (not_failsWith_refuse hφ _), ?_⟩
    rintro (⟨_, _, _, h, -⟩ | ⟨_, -, h⟩) <;> cases h <;> simp_all
  · dsimp only
    cases c with
    | elementary g => exact failsWith_elementary_call hφ hc
    | polar =>
      rw [failsInPart_call hφ hc, failsWith_polar hφ, hlen]
      simp [Callable.arity?, Callable.takesBounds, not_breaks_call hc, eq_comm]
    | random =>
      rw [failsInPart_call hφ hc]
      refine ⟨fun h => absurd h (not_failsWith_random hφ), ?_⟩
      rintro ((⟨hnone, h⟩ | ⟨h, -⟩ | ⟨h, -⟩) | ⟨x, -, h⟩)
      · cases List.length_eq_zero_iff.1 (Option.some.inj hnone).symm
        exact absurd h (not_failsWith_pure _)
      · exact h.elim
      · cases h
      · exact absurd h (not_breaks_call hc (by simp))
    | randomInteger =>
      refine (failsWith_randomInteger hφ).trans ?_
      rw [failsInPart_call hφ hc, hlen]
      simp [Callable.arity?, Callable.takesBounds, not_breaks_call hc]
    | sum =>
      refine (failsWith_sum hφ hname).trans ?_
      rw [failsInPart_call hφ hc, hlen]
      simp [Callable.arity?, Callable.takesBounds, not_breaks_call hc]
    | native _ _ _ | unary _ _ => exact absurd (hown _ hc) id

theorem not_failsWith_modulus (hφ : φ.Other) (b n : Int) :
    ¬FailsWith (EvalM.lift (Rule.modulus b n)) w φ := by
  unfold Rule.modulus
  split
  · exact not_failsWith_refuse hφ _
  · exact not_failsWith_pure _

theorem failsWith_rule_binary (hφ : φ.Other) {op : BinaryOp} {l r : Expr} :
    FailsWith (Rule.binary s.math op (l.eval s) (r.eval s)) w φ ↔
      FailsInPart s (.binary op l r) w φ ∨ ∃ x, φ = .fault x ∧ Breaks s (.binary op l r) w x := by
  have hbreaks : op ≠ .div → ∀ x, ¬Breaks s (.binary op l r) w x := by
    intro hop x h
    cases h
    exact hop rfl
  cases op with
  | add | sub | mul | pow =>
    rw [failsInPart_binary hφ (by decide)]
    simp only [hbreaks (by decide), and_false, exists_false, or_false]
    exact failsWith_map
  | div =>
    rw [failsInPart_binary hφ (by decide)]
    refine failsWith_bind.trans (or_congr .rfl ⟨?_, ?_⟩)
    · rintro ⟨⟨z, d⟩, w', hops, h⟩
      obtain ⟨hd, rfl⟩ := (Number.div_eq_error hφ).1 (failsWith_map.1 h)
      exact ⟨_, rfl, .quotient hops hd⟩
    · rintro ⟨x, rfl, h⟩
      cases h with
      | quotient hops hd =>
        exact ⟨_, _, hops, failsWith_map.2 ((Number.div_eq_error hφ).2 ⟨hd, rfl⟩)⟩
  | mod =>
    simp only [hbreaks (by decide), and_false, exists_false, or_false, failsInPart_mod]
    refine failsWith_bind.trans (or_congr (failsWith_expectInteger hφ) ?_)
    refine exists_congr fun n => exists_congr fun w' => and_congr_right fun _ => ?_
    refine (failsWith_bind_left fun d w₂ => ?_).trans (failsWith_expectInteger hφ)
    rw [failsWith_map]
    exact not_failsWith_modulus hφ n d

/-- A rule fails unforeseen exactly if a part does, or an operation on numbers breaks. -/
theorem failsWith_rule (hφ : φ.Other) (e : Expr)
    (hown : ∀ f args c, e = .call f args → w.table.functions.get? f = some c → c.IsOwn) :
    FailsWith (e.rule s) w φ ↔
      FailsInPart s e w φ ∨ ∃ x, φ = .fault x ∧ Breaks s e w x := by
  cases e with
  | num z =>
    refine ⟨fun h => absurd h (not_failsWith_pure _), ?_⟩
    rintro (⟨_, _, _, h, -⟩ | ⟨_, -, h⟩) <;> cases h
  | name x =>
    refine ⟨fun h => ?_, ?_⟩
    · unfold Expr.rule Rule.name at h
      rw [failsWith_bind_ok (EvalM.find?_apply _ _)] at h
      split at h
      · exact absurd h (not_failsWith_pure _)
      · exact absurd h (not_failsWith_refuse hφ _)
    · rintro (⟨_, _, _, h, -⟩ | ⟨_, -, h⟩) <;> cases h
  | assign x v =>
    have hbreaks : ∀ y, ¬Breaks s (.assign x v) w y := by
      intro y h
      cases h
    simp only [hbreaks, and_false, exists_false, or_false, failsInPart_assign]
    exact failsWith_bind_left fun a _ h => not_failsWith_assign hφ x a (failsWith_map.1 h)
  | unary op a =>
    have hbreaks : ∀ y, ¬Breaks s (.unary op a) w y := by
      intro y h
      cases h
    simp only [hbreaks, and_false, exists_false, or_false, failsInPart_unary]
    cases op with
    | neg | abs => exact failsWith_map.trans (failsWith_expectNumber hφ)
    | fact =>
      refine (failsWith_bind_left fun n w' => ?_).trans (failsWith_expectInteger hφ)
      split
      · exact not_failsWith_refuse hφ _
      · exact not_failsWith_pure _
  | binary op l r => exact failsWith_rule_binary hφ
  | call f args => exact failsWith_rule_call hφ fun c hc => hown f args c rfl hc

end Expressions

end ComplexCalc
