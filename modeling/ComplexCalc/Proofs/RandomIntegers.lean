import ComplexCalc.Proofs.Escapes
import ComplexCalc.Proofs.Modulus
/-!
# Random integers

A random integer is drawn within the bounds that a call passes, and then rounded to the nearest double.
The bounds are doubles themselves, so rounding does not pass them; but it may reach the one that the
range excludes, which is always the last argument of the call. It leaves the integer alone wherever that
is a double, as all integers up to `2 ^ 53` are. Nothing is drawn for arguments that make no range.
-/
namespace ComplexCalc

open Double

/-! ## The range of a call -/

/-- The values of arguments, evaluated from left to right. -/
def Rule.values : List Argument → EvalM (List Value)
  | [] => pure []
  | a :: rest => do
    let v ← a.value
    return v :: (← values rest)

/-- A call with these values may give the integer: with one bound, an integer from zero up to the bound
or, if that is negative, from the bound up to zero, without the bound; with two bounds, an integer from
the first up to the second, without the second. -/
def Permits : List Value → ℤ → Prop
  | [v], k => ∃ n, v.integer? = some n ∧ n ≠ 0 ∧ IsResidue n k
  | [u, v], k => ∃ a b, u.integer? = some a ∧ v.integer? = some b ∧ a ≤ k ∧ k < b
  | _, _ => False

/-- The integer that the range of a call ends before. -/
def limit? (vs : List Value) : Option ℤ := vs.getLast?.bind Value.integer?

section Ranges
variable {u v : Value} {a b n k : ℤ}

theorem permits_one (hv : v.integer? = some n) : Permits [v] k ↔ n ≠ 0 ∧ IsResidue n k := by
  refine ⟨fun ⟨n', hn', h⟩ => ?_, fun h => ⟨n, hv, h⟩⟩
  cases hv.symm.trans hn'
  exact h

theorem permits_two (hu : u.integer? = some a) (hv : v.integer? = some b) :
    Permits [u, v] k ↔ a ≤ k ∧ k < b := by
  refine ⟨fun ⟨a', b', ha', hb', h⟩ => ?_, fun h => ⟨a, b, hu, hv, h⟩⟩
  cases hu.symm.trans ha'
  cases hv.symm.trans hb'
  exact h

/-- The calls that have a range at all. -/
theorem exists_permits_iff (vs : List Value) : (∃ k, Permits vs k) ↔
    (∃ v n, vs = [v] ∧ v.integer? = some n ∧ n ≠ 0) ∨
      ∃ u v a b, vs = [u, v] ∧ u.integer? = some a ∧ v.integer? = some b ∧ a < b := by
  constructor
  · rintro ⟨k, hk⟩
    match vs, hk with
    | [v], ⟨n, hn, hzero, _⟩ => exact .inl ⟨v, n, rfl, hn, hzero⟩
    | [u, v], ⟨a, b, ha, hb, hlow, hhigh⟩ => exact .inr ⟨u, v, a, b, rfl, ha, hb, hlow.trans_lt hhigh⟩
  · rintro (⟨v, n, rfl, hn, hzero⟩ | ⟨u, v, a, b, rfl, ha, hb, hlt⟩)
    · exact ⟨0, (permits_one hn).2 ⟨hzero, fun h => ⟨le_rfl, h⟩, fun h => ⟨h, le_rfl⟩⟩⟩
    · exact ⟨a, (permits_two ha hb).2 ⟨le_rfl, hlt⟩⟩

theorem Permits.length_le {vs : List Value} (h : Permits vs k) : vs.length ≤ 2 := by
  match vs, h with
  | [_], _ => exact Nat.le_succ 1
  | [_, _], _ => exact le_rfl

/-- The range of a call ends before its limit. -/
theorem not_permits_limit {vs : List Value} (h : limit? vs = some k) : ¬Permits vs k := by
  intro hk
  match vs, hk, h with
  | [v], ⟨n, hn, hzero, hresidue⟩, h =>
    cases hn.symm.trans h
    rcases hzero.lt_or_gt with hneg | hpos
    · exact absurd (hresidue.2 hneg).1 (lt_irrefl _)
    · exact absurd (hresidue.1 hpos).2 (lt_irrefl _)
  | [u, v], ⟨a, b, ha, hb, hlow, hhigh⟩, h =>
    cases hb.symm.trans h
    exact absurd hhigh (lt_irrefl _)

/-- The range lies between two doubles, and ends before one of them if not at both. -/
theorem permits_between {vs : List Value} {d : ℤ} (h : Permits vs d) :
    ∃ low high : ℤ, IsDouble (low : ℚ) ∧ IsDouble (high : ℚ) ∧ |low| ≤ 2 ^ 63 ∧ |high| ≤ 2 ^ 63 ∧
      low ≤ d ∧ d ≤ high ∧ ∀ k, low ≤ k → k ≤ high → limit? vs ≠ some k → Permits vs k := by
  have hzero : IsDouble ((0 : ℤ) : ℚ) := isDouble_intCast (by norm_num)
  match vs, h with
  | [v], ⟨n, hn, hne, hresidue⟩ =>
    obtain ⟨hdouble, hsize⟩ := Value.isDouble_of_integer? hn
    have hlimit : ∀ k, limit? [v] ≠ some k → k ≠ n := fun k hk heq => hk (heq ▸ hn)
    rcases hne.lt_or_gt with hneg | hpos
    · obtain ⟨hlow, hhigh⟩ := hresidue.2 hneg
      refine ⟨n, 0, hdouble, hzero, hsize, by norm_num, hlow.le, hhigh, fun k hk hk' hne' => ?_⟩
      exact (permits_one hn).2 ⟨hne, fun _ => by omega, fun _ => ⟨hk.lt_of_ne (hlimit k hne').symm, hk'⟩⟩
    · obtain ⟨hlow, hhigh⟩ := hresidue.1 hpos
      refine ⟨0, n, hzero, hdouble, by norm_num, hsize, hlow, hhigh.le, fun k hk hk' hne' => ?_⟩
      exact (permits_one hn).2 ⟨hne, fun _ => ⟨hk, hk'.lt_of_ne (hlimit k hne')⟩, fun _ => by omega⟩
  | [u, v], ⟨a, b, ha, hb, hlow, hhigh⟩ =>
    obtain ⟨hdouble, hsize⟩ := Value.isDouble_of_integer? ha
    obtain ⟨hdouble', hsize'⟩ := Value.isDouble_of_integer? hb
    refine ⟨a, b, hdouble, hdouble', hsize, hsize', hlow, hhigh.le, fun k hk hk' hne => ?_⟩
    exact (permits_two ha hb).2 ⟨hk, hk'.lt_of_ne fun heq => hne (heq ▸ hb)⟩

end Ranges

/-! ## Rounding within the range -/

/-- The number is the real integer `k`, nearest of all doubles to the integer `d` of the range. It is in
the range itself unless it is the limit of the range, which it is only if `d` is no double. -/
structure RoundedDraw (vs : List Value) (z : Number) (d k : ℤ) : Prop where
  drawn : Permits vs d
  real : z.isReal = true
  integer : Double.integer? z.re = some k
  nearest : IsNearest z.re k d
  within : Permits vs k ↔ limit? vs ≠ some k
  exact : IsDouble (d : ℚ) → k = d

theorem roundedDraw_ofInt {vs : List Value} {d : ℤ} (h : Permits vs d) :
    ∃ k, RoundedDraw vs (.ofInt d) d k := by
  obtain ⟨low, high, hlow, hhigh, hlowSize, hhighSize, hld, hdh, hrange⟩ := permits_between h
  have hsize : |d| < 2 ^ 1023 := by
    have hbig : (2 : ℤ) ^ 63 < 2 ^ 1023 := pow_lt_pow_right₀ (by norm_num) (by norm_num)
    exact (abs_le.2 ⟨(abs_le.1 hlowSize).1.trans hld, hdh.trans (abs_le.1 hhighSize).2⟩).trans_lt hbig
  obtain ⟨k, hk⟩ := IsNearest.ofInt hsize
  have hlk : low ≤ k := by exact_mod_cast hk.ge_of_isDouble hlow (by exact_mod_cast hld)
  have hkh : k ≤ high := by exact_mod_cast hk.le_of_isDouble hhigh (by exact_mod_cast hdh)
  have hreal : (Number.ofInt d).isReal = true := (beq_zero_iff 0.0).2 ⟨.positive, unpack_zero⟩
  exact ⟨k, h, hreal, integer?_eq_some_iff.2 hk.1, hk,
    ⟨fun hpermits hlimit => not_permits_limit hlimit hpermits, hrange k hlk hkh⟩,
    fun hdouble => by exact_mod_cast hk.eq_of_isDouble hdouble⟩

/-! ## Running a call -/

section Run
variable {args : List Argument} {w w₁ : Workspace} {v : Value} {k : Nat} {a : Argument}

theorem integerArgument_apply (ha : args[k]? = some a) (hv : a.value w = (.ok v, w₁)) :
    Rule.integerArgument args k w = (match v.integer? with
      | some n => .ok n
      | none => noValue (.argumentNotInteger k v), w₁) := by
  unfold Rule.integerArgument
  rw [Action.bind_ok (argumentAt_apply ha), Action.bind_ok hv]
  cases v with
  | none => rfl
  | number z =>
    dsimp only [Value.integer?]
    rcases z.integer? with - | n <;> rfl

/-- The last steps of a call, once both bounds are known. -/
def Rule.drawBetween (low high : ℤ) : EvalM Value := do
  if high ≤ low then EvalM.refuse (.emptyRange low high)
  let n ← EvalM.draw fun r => r.integer low high
  return .number (.ofInt n)

theorem drawBetween_of_empty {low high : ℤ} (h : high ≤ low) (w : Workspace) :
    Rule.drawBetween low high w = (noValue (.emptyRange low high), w) := by
  unfold Rule.drawBetween
  rw [if_pos h]
  rfl

/-- Whatever the source holds, one number of it gives an integer within the bounds. -/
theorem drawBetween_of_lt {low high : ℤ} (h : low < high) (w : Workspace) : ∃ d, low ≤ d ∧ d < high ∧
    Rule.drawBetween low high w = (.ok (.number (.ofInt d)), (EvalM.draw RandomSource.next w).2) := by
  have hpos : 0 < high - low := by omega
  let drawn : ℤ := w.table.random.stream w.table.random.drawn
  have hlow := Int.emod_nonneg drawn hpos.ne'
  have hhigh := Int.emod_lt_of_pos drawn hpos
  refine ⟨low + drawn % (high - low), by omega, by omega, ?_⟩
  unfold Rule.drawBetween
  rw [if_neg (by omega)]
  rfl

theorem randomInteger_of_many (h : 2 < args.length) :
    Rule.randomInteger args w = (noValue (.tooManyBounds args.length), w) := by
  unfold Rule.randomInteger
  rw [if_pos h]
  rfl

theorem randomInteger_of_nil : Rule.randomInteger [] w = (noValue (.missingArgument 1), w) := rfl

/-- A call of one argument, by the value of that. -/
theorem randomInteger_of_one (hv : a.value w = (.ok v, w₁)) : Rule.randomInteger [a] w =
    match v.integer? with
    | none => (noValue (.argumentNotInteger 0 v), w₁)
    | some n =>
      if n < 0 then Rule.drawBetween (n + 1) 1 w₁
      else if n = 0 then (noValue .zeroBound, w₁)
      else Rule.drawBetween 0 n w₁ := by
  have hfirst : Rule.integerArgument [a] 0 w = _ := integerArgument_apply rfl hv
  rcases hn : v.integer? with - | n <;> rw [hn] at hfirst
  · exact Action.bind_error hfirst
  · refine (Action.bind_ok hfirst).trans ?_
    rw [if_neg (by simp)]
    dsimp only
    split
    · rfl
    · split <;> rfl

/-- A call of two arguments, by the values of both. -/
theorem randomInteger_of_two {b : Argument} {u : Value} {w₂ : Workspace}
    (hu : a.value w = (.ok u, w₁)) (hv : b.value w₁ = (.ok v, w₂)) : Rule.randomInteger [a, b] w =
    match u.integer?, v.integer? with
    | none, _ => (noValue (.argumentNotInteger 0 u), w₁)
    | some _, none => (noValue (.argumentNotInteger 1 v), w₂)
    | some low, some high => Rule.drawBetween low high w₂ := by
  have hfirst : Rule.integerArgument [a, b] 0 w = _ := integerArgument_apply rfl hu
  have hsecond : Rule.integerArgument [a, b] 1 w₁ = _ := integerArgument_apply rfl hv
  rcases hlow : u.integer? with - | low <;> rw [hlow] at hfirst
  · exact Action.bind_error hfirst
  rcases hhigh : v.integer? with - | high <;> rw [hhigh] at hsecond <;>
    refine (Action.bind_ok hfirst).trans ?_ <;> rw [if_pos (by simp)]
  · exact Action.bind_error hsecond
  · exact Action.bind_ok hsecond

/-- What a call gives for a range: one draw, rounded. -/
def DrawsWithin (args : List Argument) (w : Workspace) (vs : List Value) (w' : Workspace) : Prop :=
  ∃ z d k, RoundedDraw vs z d k ∧
    Rule.randomInteger args w = (.ok (.number z), (EvalM.draw RandomSource.next w').2)

/-- An error in the arguments, with nothing done but to evaluate some of them. -/
def RefusesArguments (args : List Argument) (w : Workspace) : Prop :=
  ∃ j e, Rule.randomInteger args w = (noValue e, (Rule.values (args.take j) w).2) ∧ e.kind = .argument

theorem drawsWithin_of_lt {vs : List Value} {low high : ℤ} (h : low < high)
    (hrun : Rule.randomInteger args w = Rule.drawBetween low high w₁)
    (hrange : ∀ d, low ≤ d → d < high → Permits vs d) : DrawsWithin args w vs w₁ := by
  obtain ⟨d, hlow, hhigh, hdraw⟩ := drawBetween_of_lt h w₁
  obtain ⟨k, hk⟩ := roundedDraw_ofInt (hrange d hlow hhigh)
  exact ⟨.ofInt d, d, k, hk, hrun.trans hdraw⟩

theorem values_cons {rest : List Argument} {vs : List Value} {w₂ : Workspace}
    (hv : a.value w = (.ok v, w₁)) (hrest : Rule.values rest w₁ = (.ok vs, w₂)) :
    Rule.values (a :: rest) w = (.ok (v :: vs), w₂) :=
  (Action.bind_ok hv).trans (Action.bind_ok hrest)

theorem values_one (hv : a.value w = (.ok v, w₁)) : Rule.values [a] w = (.ok [v], w₁) :=
  values_cons hv rfl

theorem values_eq_cons {rest : List Argument} {vs : List Value} {w₂ : Workspace}
    (h : Rule.values (a :: rest) w = (.ok vs, w₂)) : ∃ v vs' w', vs = v :: vs' ∧
      a.value w = (.ok v, w') ∧ Rule.values rest w' = (.ok vs', w₂) := by
  obtain ⟨v, w', hv, h⟩ := Action.bind_eq_ok h
  obtain ⟨vs', w'', hrest, h⟩ := Action.bind_eq_ok h
  cases h
  exact ⟨v, vs', _, rfl, hv, hrest⟩

theorem length_values {vs : List Value} (h : Rule.values args w = (.ok vs, w₁)) :
    vs.length = args.length := by
  induction args generalizing w vs with
  | nil =>
    cases h
    rfl
  | cons a rest ih =>
    obtain ⟨v, vs', w', rfl, -, hrest⟩ := values_eq_cons h
    exact congrArg (· + 1) (ih hrest)

theorem random_integer_of_one (hv : a.value w = (.ok v, w₁)) :
    ((∃ k, Permits [v] k) → DrawsWithin [a] w [v] w₁) ∧
      ((¬∃ k, Permits [v] k) → RefusesArguments [a] w) := by
  have hrun := randomInteger_of_one hv
  have hstate : w₁ = (Rule.values ([a].take 1) w).2 := (congrArg Prod.snd (values_one hv)).symm
  rcases hn : v.integer? with - | n <;> simp only [hn] at hrun
  · refine ⟨fun ⟨k, n, hn', _⟩ => ?_, fun _ => ⟨1, _, hstate ▸ hrun, rfl⟩⟩
    cases hn.symm.trans hn'
  rcases lt_trichotomy n 0 with hneg | rfl | hpos
  · rw [if_pos hneg] at hrun
    refine ⟨fun _ => drawsWithin_of_lt (by omega) hrun fun d hlow hhigh => ?_, fun h => ?_⟩
    · exact (permits_one hn).2 ⟨hneg.ne, fun _ => by omega, fun _ => by omega⟩
    · exact absurd ((exists_permits_iff _).2 (.inl ⟨v, n, rfl, hn, hneg.ne⟩)) h
  · refine ⟨fun ⟨k, hk⟩ => ?_, fun _ => ⟨1, _, hstate ▸ hrun, rfl⟩⟩
    exact absurd rfl ((permits_one hn).1 hk).1
  · rw [if_neg hpos.not_gt, if_neg hpos.ne'] at hrun
    refine ⟨fun _ => drawsWithin_of_lt hpos hrun fun d hlow hhigh => ?_, fun h => ?_⟩
    · exact (permits_one hn).2 ⟨hpos.ne', fun _ => ⟨hlow, hhigh⟩, fun _ => by omega⟩
    · exact absurd ((exists_permits_iff _).2 (.inl ⟨v, n, rfl, hn, hpos.ne'⟩)) h

theorem random_integer_of_two {b : Argument} {u : Value} {w₂ : Workspace}
    (hu : a.value w = (.ok u, w₁)) (hv : b.value w₁ = (.ok v, w₂)) :
    ((∃ k, Permits [u, v] k) → DrawsWithin [a, b] w [u, v] w₂) ∧
      ((¬∃ k, Permits [u, v] k) → RefusesArguments [a, b] w) := by
  have hrun := randomInteger_of_two hu hv
  have hstate₁ : w₁ = (Rule.values ([a, b].take 1) w).2 := (congrArg Prod.snd (values_one hu)).symm
  have hstate₂ : w₂ = (Rule.values ([a, b].take 2) w).2 :=
    (congrArg Prod.snd (values_cons hu (values_one hv))).symm
  have hboth : (∃ k, Permits [u, v] k) → ∃ low high, u.integer? = some low ∧ v.integer? = some high ∧
      low < high := fun ⟨k, low, high, hlow, hhigh, h⟩ => ⟨low, high, hlow, hhigh, h.1.trans_lt h.2⟩
  rcases hlow : u.integer? with - | low <;> simp only [hlow] at hrun hboth
  · refine ⟨fun h => ?_, fun _ => ⟨1, _, hstate₁ ▸ hrun, rfl⟩⟩
    obtain ⟨_, _, ⟨⟩, -⟩ := hboth h
  rcases hhigh : v.integer? with - | high <;> simp only [hhigh] at hrun hboth
  · refine ⟨fun h => ?_, fun _ => ⟨2, _, hstate₂ ▸ hrun, rfl⟩⟩
    obtain ⟨_, _, -, ⟨⟩, -⟩ := hboth h
  rcases lt_or_ge low high with hlt | hle
  · refine ⟨fun _ => drawsWithin_of_lt hlt hrun fun d hd hd' => ?_, fun h => ?_⟩
    · exact (permits_two hlow hhigh).2 ⟨hd, hd'⟩
    · exact absurd ⟨low, (permits_two hlow hhigh).2 ⟨le_rfl, hlt⟩⟩ h
  · rw [drawBetween_of_empty hle] at hrun
    refine ⟨fun h => ?_, fun _ => ⟨2, _, hstate₂ ▸ hrun, rfl⟩⟩
    obtain ⟨_, _, ⟨⟩, ⟨⟩, hlt⟩ := hboth h
    exact absurd hlt hle.not_gt

/-- A call whose values make a range draws one integer of the range from the source, whatever that holds,
and gives the nearest double. This is an integer of the range or its limit; it is the drawn integer where
the range lies within `2 ^ 53`. Every other list of values is an error in the arguments, with nothing
drawn. -/
theorem random_integer_is_rounded_draw {vs : List Value} (hargs : Rule.values args w = (.ok vs, w₁)) :
    ((∃ k, Permits vs k) → ∃ z d k, RoundedDraw vs z d k ∧
      Rule.randomInteger args w = (.ok (.number z), (EvalM.draw RandomSource.next w₁).2) ∧
      ((∀ j, Permits vs j → |j| ≤ 2 ^ 53) → k = d)) ∧
    ((¬∃ k, Permits vs k) → ∃ j e,
      Rule.randomInteger args w = (noValue e, (Rule.values (args.take j) w).2) ∧ e.kind = .argument) := by
  have hdraws : DrawsWithin args w vs w₁ → ∃ z d k, RoundedDraw vs z d k ∧
      Rule.randomInteger args w = (.ok (.number z), (EvalM.draw RandomSource.next w₁).2) ∧
      ((∀ j, Permits vs j → |j| ≤ 2 ^ 53) → k = d) := fun ⟨z, d, k, hk, hrun⟩ =>
    ⟨z, d, k, hk, hrun, fun hsmall => hk.exact (isDouble_intCast (hsmall d hk.drawn))⟩
  have hlength := length_values hargs
  rcases args with - | ⟨a, - | ⟨b, - | ⟨c, rest⟩⟩⟩
  · cases hargs
    exact ⟨fun ⟨_, h⟩ => h.elim, fun _ => ⟨0, _, randomInteger_of_nil, rfl⟩⟩
  · obtain ⟨v, _, w', rfl, hv, hargs⟩ := values_eq_cons hargs
    cases hargs
    obtain ⟨hrange, hrefuses⟩ := random_integer_of_one hv
    exact ⟨fun h => hdraws (hrange h), hrefuses⟩
  · obtain ⟨u, _, w', rfl, hu, hargs⟩ := values_eq_cons hargs
    obtain ⟨v, _, w'', rfl, hv, hargs⟩ := values_eq_cons hargs
    cases hargs
    obtain ⟨hrange, hrefuses⟩ := random_integer_of_two hu hv
    exact ⟨fun h => hdraws (hrange h), hrefuses⟩
  · refine ⟨fun ⟨k, hk⟩ => ?_, fun _ => ⟨0, _, randomInteger_of_many (by simp), rfl⟩⟩
    have hpair := hk.length_le
    rw [hlength] at hpair
    exact absurd hpair (by simp)

theorem random_integer_is_rounded_draw_of_minus_three :
    let v : Value := .number (.ofReal (-3.0))
    let args : List Argument := [⟨pure v, Argument.unnamed⟩]
    let w : Workspace := .fresh default true (.fresh false)
    Rule.values args w = (.ok [v], w) ∧ ∃ z d k, RoundedDraw [v] z d k ∧
      Rule.randomInteger args w = (.ok (.number z), (EvalM.draw RandomSource.next w).2) ∧ k = d := by
  intro v args w
  have hvalues : Rule.values args w = (.ok [v], w) := rfl
  have hv : v.integer? = some (-3) := rfl
  have hzero : Permits [v] 0 := (permits_one hv).2 ⟨by norm_num, by norm_num, by norm_num⟩
  obtain ⟨z, d, k, hk, hrun, hexact⟩ := (random_integer_is_rounded_draw hvalues).1 ⟨0, hzero⟩
  refine ⟨hvalues, z, d, k, hk, hrun, hexact fun j hj => ?_⟩
  obtain ⟨hlow, hhigh⟩ := ((permits_one hv).1 hj).2.2 (by norm_num)
  exact abs_le.2 ⟨by omega, by omega⟩

/-- The integers of this range are no doubles but the first, so that a draw in its upper half is rounded to
the bound that the range excludes. -/
theorem random_integer_reaches_bound :
    (∃ z, (EvalM.evalText .standard "rand_int(2**62, 2**62 + 1024)"
          (.fresh ⟨fun _ _ => 1023, 0, 0⟩ true (.fresh false))).1 =
        .ok (.number z) ∧ Double.integer? z.re = some (2 ^ 62 + 1024)) ∧
      ¬Permits [.number (.ofInt (2 ^ 62)), .number (.ofInt (2 ^ 62 + 1024))] (2 ^ 62 + 1024) := by
  have hresult : ((numberOf (EvalM.evalText .standard "rand_int(2**62, 2**62 + 1024)"
      (.fresh ⟨fun _ _ => 1023, 0, 0⟩ true (.fresh false))).1).bind fun z => Double.integer? z.re) =
        some (2 ^ 62 + 1024) := by
    decide +kernel
  obtain ⟨z, hz, hvalue⟩ := Option.bind_eq_some_iff.1 hresult
  exact ⟨⟨z, numberOf_eq_some.1 hz, hvalue⟩, not_permits_limit rfl⟩

end Run
end ComplexCalc
