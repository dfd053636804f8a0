import ComplexCalc.Proofs.Composition
/-!
# What a step may change

A `Frame` bounds the difference of two workspaces: no name loses its variable, no constant and no
function changes, and only certain names are newly bound or have their variables changed. Steps one
after the other have the frames of their parts, and the frame of a sum is that of its body but for the
loop variable, which is a variable of its own.
-/
namespace ComplexCalc

/-- Every bound name has a variable of this name. -/
def Workspace.Sound (w : Workspace) : Prop :=
  ∀ x id, w.table.scope.get? x = some id → ∃ v, w.memory[id]? = some v ∧ v.name = x

/-- From `w` to `w'` only `fresh` names are newly bound, and only the variables of `changed` names
change. -/
structure Frame (fresh changed : String → Prop) (w w' : Workspace) : Prop where
  functions : w'.table.functions = w.table.functions
  kept : ∀ x id, w.table.scope.get? x = some id → w'.table.scope.get? x = some id
  memory : ∀ (id : Nat) v, w.memory[id]? = some v → ∃ v', w'.memory[id]? = some v' ∧
    v'.name = v.name ∧ v'.constant = v.constant ∧
    (v' = v ∨ v.constant = false ∧ w.table.scope.get? v.name = some id ∧ changed v.name)
  new : ∀ x id, w'.table.scope.get? x = some id → w.table.scope.get? x = some id ∨
    w.table.scope.get? x = none ∧ w.memory[id]? = none ∧ fresh x ∧
      ∃ v, w'.memory[id]? = some v ∧ v.name = x ∧ v.constant = false

namespace Frame

variable {fresh changed fresh' changed' : String → Prop} {w w' w'' : Workspace}

theorem of_eq (hm : w'.memory = w.memory) (hs : w'.table.scope = w.table.scope)
    (hf : w'.table.functions = w.table.functions) : Frame fresh changed w w' where
  functions := hf
  kept x id h := by rw [hs, h]
  memory id v h := ⟨v, by rw [hm, h], rfl, rfl, .inl rfl⟩
  new x id h := .inl (by rw [← hs, h])

theorem refl : Frame fresh changed w w := of_eq rfl rfl rfl

theorem mono (h : Frame fresh changed w w') (hf : ∀ x, fresh x → fresh' x)
    (hc : ∀ x, changed x → changed' x) : Frame fresh' changed' w w' where
  functions := h.functions
  kept := h.kept
  memory id v hv := by
    obtain ⟨v', hv', hn, hk, hch⟩ := h.memory id v hv
    exact ⟨v', hv', hn, hk, hch.imp_right fun ⟨h₁, h₂, h₃⟩ => ⟨h₁, h₂, hc _ h₃⟩⟩
  new x id hx := (h.new x id hx).imp_right fun ⟨h₁, h₂, h₃, h₄⟩ => ⟨h₁, h₂, hf _ h₃, h₄⟩

/-- A variable that a frame leaves to a name was the variable of the name before, if it existed. -/
theorem bound_before (h : Frame fresh changed w w') {x : String} {id : Nat} {v : Variable}
    (hx : w'.table.scope.get? x = some id) (hv : w.memory[id]? = some v) :
    w.table.scope.get? x = some id := by
  rcases h.new x id hx with hx | ⟨-, hnone, -⟩
  · exact hx
  · rw [hv] at hnone
    cases hnone

theorem trans (h : Frame fresh changed w w') (h' : Frame fresh changed w' w'') :
    Frame fresh changed w w'' where
  functions := h'.functions.trans h.functions
  kept x id hx := h'.kept x id (h.kept x id hx)
  memory id v hv := by
    obtain ⟨v', hv', hn, hk, hch⟩ := h.memory id v hv
    obtain ⟨v'', hv'', hn', hk', hch'⟩ := h'.memory id v' hv'
    refine ⟨v'', hv'', hn'.trans hn, hk'.trans hk, ?_⟩
    rcases hch' with rfl | ⟨hconst, hbound, hch'⟩
    · exact hch
    · rw [hn] at hbound hch'
      exact .inr ⟨hk ▸ hconst, h.bound_before hbound hv, hch'⟩
  new x id hx := by
    rcases h'.new x id hx with hx' | ⟨hnone, hmem, hf, hv⟩
    · rcases h.new x id hx' with hx | ⟨hnone, hmem, hf, v, hv, hn, hk⟩
      · exact .inl hx
      · obtain ⟨v', hv', hn', hk', -⟩ := h'.memory id v hv
        exact .inr ⟨hnone, hmem, hf, v', hv', hn'.trans hn, hk'.trans hk⟩
    · refine .inr ⟨?_, ?_, hf, hv⟩
      · rcases hb : w.table.scope.get? x with - | j
        · rfl
        · rw [h.kept x j hb] at hnone
          cases hnone
      · rcases hm : w.memory[id]? with - | v
        · rfl
        · obtain ⟨v', hv', -⟩ := h.memory id v hm
          rw [hv'] at hmem
          cases hmem

theorem sound (h : Frame fresh changed w w') (hw : w.Sound) : w'.Sound := by
  intro x id hx
  rcases h.new x id hx with hx | ⟨-, -, -, v, hv, hn, -⟩
  · obtain ⟨v, hv, hn⟩ := hw x id hx
    obtain ⟨v', hv', hn', -⟩ := h.memory id v hv
    exact ⟨v', hv', hn'.trans hn⟩
  · exact ⟨v, hv, hn⟩

end Frame

/-! ## Steps -/

/-- Begun in the state `w`, the step stays within a frame. -/
def Keeps {α : Type} (fresh changed : String → Prop) (m : EvalM α) (w : Workspace) : Prop :=
  w.Sound → Frame fresh changed w (m w).2

namespace Keeps

variable {α β : Type} {fresh changed fresh' changed' : String → Prop} {w : Workspace}

theorem mono {m : EvalM α} (h : Keeps fresh changed m w) (hf : ∀ x, fresh x → fresh' x)
    (hc : ∀ x, changed x → changed' x) : Keeps fresh' changed' m w := fun hw => (h hw).mono hf hc

theorem bind {m : EvalM α} {f : α → EvalM β} (hm : Keeps fresh changed m w)
    (hf : ∀ a w', m w = (.ok a, w') → Keeps fresh changed (f a) w') :
    Keeps fresh changed (m >>= f) w := by
  intro hw
  have h := hm hw
  rcases hr : m w with ⟨e | a, w'⟩ <;> rw [hr] at h
  · rw [Action.bind_error hr]
    exact h
  · rw [Action.bind_ok hr]
    exact h.trans (hf a w' hr (h.sound hw))

theorem frame {m : EvalM α} {w' : Workspace} {r : Except Failure α} (h : Keeps fresh changed m w)
    (hm : m w = (r, w')) (hw : w.Sound) : Frame fresh changed w w' := by
  have hframe := h hw
  rwa [hm] at hframe

theorem composes : EvalM.Composes fun _ m w => Keeps fresh changed m w where
  inert hm _ := .of_eq (hm.memory _) (hm.scope _) (hm.functions _)
  bind := bind

theorem pure (a : α) : Keeps fresh changed (pure a : EvalM α) w := composes.pure a

end Keeps

/-! ## Assignments -/

namespace EvalM

variable {w : Workspace} {x : String} {a : Value}

theorem locate?_of_sound (hw : w.Sound) : w.table.locate? w.memory x = none ∧
      w.table.scope.get? x = none ∨
    ∃ id v, w.table.locate? w.memory x = some (id, v) ∧ w.table.scope.get? x = some id ∧
      w.memory[id]? = some v ∧ v.name = x := by
  unfold Table.locate?
  rcases hx : w.table.scope.get? x with - | id
  · exact .inl ⟨rfl, rfl⟩
  · obtain ⟨v, hv, hn⟩ := hw x id hx
    exact .inr ⟨id, v, by simp [hv], rfl, hv, hn⟩

/-- An assignment is refused for a constant, changes the value of a variable, or defines a new
one. -/
theorem assign_cases (hw : w.Sound) (x : String) (a : Value) :
    (assign x a w = (.error (.noValue (.constantVariable x)), w) ∧
      ∃ id v, w.table.scope.get? x = some id ∧ w.memory[id]? = some v ∧ v.constant = true) ∨
    (∃ id v, w.table.scope.get? x = some id ∧ w.memory[id]? = some v ∧ v.name = x ∧
      v.constant = false ∧ assign x a w =
        (.ok (), { w with memory := w.memory.setIfInBounds id { v with value := a } })) ∨
    (w.table.scope.get? x = none ∧ assign x a w = (.ok (), { w with
      memory := w.memory.push ⟨x, a, false⟩,
      table := { w.table with scope := w.table.scope.bind x w.memory.size } })) := by
  rcases locate?_of_sound (x := x) hw with ⟨hl, hx⟩ | ⟨id, v, hl, hx, hv, hn⟩
  · refine .inr (.inr ⟨hx, ?_⟩)
    simp only [assign, Action.bind_apply, locate?_apply, hl]
    simp [define, bindTo, Action.bind_apply, allocate, Table.locate?, hx, modifyTable]
  · by_cases hk : v.constant = true
    · refine .inl ⟨?_, id, v, hx, hv, hk⟩
      simp [assign, Action.bind_apply, hl, hk, hn]
    · refine .inr (.inl ⟨id, v, hx, hv, hn, by simpa using hk, ?_⟩)
      simp [assign, Action.bind_apply, hl, hk]

end EvalM

theorem Memory.getElem?_push_of_some {memory : Memory} {id : Nat} {v : Variable}
    (h : memory[id]? = some v) (u : Variable) : (memory.push u)[id]? = some v := by
  obtain ⟨hlt, rfl⟩ := Array.getElem?_eq_some_iff.1 h
  exact Array.getElem?_push_lt hlt

namespace Workspace.Sound

variable {w w' : Workspace}

/-- A table with the same names is as sound. -/
theorem inTable (hw : w.Sound) {t : Table} (ht : t.scope = w.table.scope) :
    Sound { w with table := t } := by
  intro x id hx
  exact hw x id (ht ▸ hx)

theorem define (hw : w.Sound) {v : Variable} (h : EvalM.define v w = (.ok (), w')) : w'.Sound := by
  rcases EvalM.define_cases w v with ⟨e, hd⟩ | hd <;> rw [hd] at h <;> cases h
  intro y id hy
  by_cases hyv : y = v.name
  · subst hyv
    simp only [Bindings.get?_bind_self, Option.some.injEq] at hy
    subst hy
    exact ⟨v, by simp, rfl⟩
  · rw [Bindings.get?_bind_of_ne _ _ hyv] at hy
    obtain ⟨u, hu, hn⟩ := hw y id hy
    exact ⟨u, Memory.getElem?_push_of_some hu _, hn⟩

end Workspace.Sound

theorem Keeps.assign {fresh changed : String → Prop} {w : Workspace} {x : String} {a : Value}
    (h : ∀ w', EvalM.assign x a w = (.ok (), w') → fresh x ∧ changed x) :
    Keeps fresh changed (EvalM.assign x a) w := by
  intro hw
  rcases EvalM.assign_cases hw x a with ⟨ha, -⟩ | ⟨id, v, hx, hv, hn, hk, ha⟩ | ⟨hx, ha⟩ <;> rw [ha]
  · exact .refl
  · refine ⟨rfl, fun _ _ h => h, fun j u hu => ?_, fun _ _ h => .inl h⟩
    -- Only the variable of `x` gets another value.
    by_cases hj : id = j
    · subst hj
      rw [hv] at hu
      cases hu
      have hlt : id < w.memory.size := (Array.getElem?_eq_some_iff.1 hv).1
      refine ⟨{ v with value := a }, by simp [hlt], rfl, rfl, .inr ⟨hk, hn ▸ hx, ?_⟩⟩
      rw [hn]
      exact (h _ ha).2
    · exact ⟨u, (Array.getElem?_setIfInBounds_ne hj).trans hu, rfl, rfl, .inl rfl⟩
  · refine ⟨rfl, fun y id hy => ?_, fun j u hu => ?_, fun y id hy => ?_⟩
    · have hne : y ≠ x := by
        rintro rfl
        rw [hx] at hy
        cases hy
      simpa [Bindings.get?_bind_of_ne _ _ hne] using hy
    · exact ⟨u, Memory.getElem?_push_of_some hu _, rfl, rfl, .inl rfl⟩
    · by_cases hyx : y = x
      · subst hyx
        simp only [Bindings.get?_bind_self, Option.some.injEq] at hy
        subst hy
        exact .inr ⟨hx, by simp, (h _ ha).1, ⟨y, a, false⟩, by simp, rfl, rfl⟩
      · exact .inl (by simpa [Bindings.get?_bind_of_ne _ _ hyx] using hy)

/-! ## Sums -/

section Sums
variable {fresh changed : String → Prop} {w w₀ : Workspace}

theorem sumLoop_keeps {x : String} {body : EvalM Value} {count : Nat} {i : Int} {total : Number}
    (h : ∀ w', Iterates x body count i w w' → Keeps fresh changed body w') (hf : fresh x)
    (hc : changed x) : Keeps fresh changed (Rule.sumLoop x body count i total) w :=
  Keeps.composes.sumLoop (fun _ _ => .assign fun _ _ => ⟨hf, hc⟩) h

/-- A loop in a scope of its own has the frame of its body, but for the loop variable: that one is new
in the scope, whatever variable of the same name the table in use has. -/
theorem loopIn_keeps {scope : Table} (hcopy : EvalM.copy w₀ = (.ok scope, w)) {x : String}
    {body : EvalM Value} {count : Nat} {low : Int}
    (h : ∀ w₁ w', EvalM.define ⟨x, .number (.ofInt low), false⟩ { w with table := scope } =
        (.ok (), w₁) → Iterates x body count low w₁ w' →
      Keeps (fun _ => True) (fun y => y = x ∨ changed y) body w') :
    Keeps fresh changed (EvalM.loopIn scope x body count low) w := by
  intro hw
  have hscope : scope.scope = w.table.scope := by
    obtain ⟨random, source, hc⟩ := EvalM.copy_apply w₀
    rw [hc] at hcopy
    cases hcopy
    rfl
  rw [EvalM.loopIn, EvalM.inTable_apply]
  rcases EvalM.define_cases { w with table := scope } ⟨x, .number (.ofInt low), false⟩ with
    ⟨e, hd⟩ | hd
  · rw [Action.bind_error hd]
    exact ⟨rfl, fun _ _ h => h,
      fun id v hv => ⟨v, Memory.getElem?_push_of_some hv _, rfl, rfl, .inl rfl⟩, fun _ _ h => .inl h⟩
  · have hsound := (hw.inTable hscope).define hd
    have hloop : Keeps (fun _ => True) (fun y => y = x ∨ changed y)
        (Rule.sumLoop x body count low .zero >>= fun z => Pure.pure (Value.number z)) _ :=
      Keeps.composes.map (sumLoop_keeps (h _ · hd) trivial (.inl rfl)) _
    have hframe := hloop hsound
    rw [Action.bind_ok hd]
    refine ⟨rfl, fun _ _ h => h, fun id v hv => ?_, fun _ _ h => .inl h⟩
    have hlt : id < w.memory.size := (Array.getElem?_eq_some_iff.1 hv).1
    obtain ⟨v', hv', hn, hk, hch⟩ := hframe.memory id v (Memory.getElem?_push_of_some hv _)
    refine ⟨v', hv', hn, hk, hch.imp_right fun ⟨hconst, hbound, hch⟩ => ?_⟩
    -- The loop variable is newer than every variable of `w`.
    have hne : v.name ≠ x := by
      intro hvx
      rw [hvx] at hbound
      simp only [Bindings.get?_bind_self, Option.some.injEq] at hbound
      omega
    rw [Bindings.get?_bind_of_ne _ _ hne, hscope] at hbound
    exact ⟨hconst, hbound, hch.resolve_left hne⟩

end Sums

/-! ## Evaluations -/

section Evaluations
variable {s : Settings} {e e' : Expr} {w w' : Workspace} {x : String} {loops : List String}

/-- The evaluation of an expression, begun in the state `w`, carries out an assignment to `x` within
the bodies of sums over `loops`. -/
def Performs (s : Settings) (e : Expr) (w : Workspace) (x : String) (loops : List String) : Prop :=
  ∃ v a w₀ w₁ w₂, Visits s e w loops (.assign x v) w₀ ∧
    v.eval s ((Expr.assign x v).enter w₀) = (.ok a, w₁) ∧ EvalM.assign x a w₁ = (.ok (), w₂)

theorem Performs.part {loops' : List String} (h : Starts s e (e.enter w) loops e' w')
    (h' : Performs s e' w' x loops') : Performs s e w x (loops ++ loops') := by
  obtain ⟨v, a, w₀, w₁, w₂, hv, ha⟩ := h'
  exact ⟨v, a, w₀, w₁, w₂, .part h hv, ha⟩

/-- The names that an evaluation assigns to outside of all bodies of sums. -/
def Binds (s : Settings) (e : Expr) (w : Workspace) (x : String) : Prop := Performs s e w x []

/-- The names that an evaluation assigns to, but for loop variables within the bodies of their
sums. -/
def Changes (s : Settings) (e : Expr) (w : Workspace) (x : String) : Prop :=
  ∃ loops, Performs s e w x loops ∧ x ∉ loops

/-- A part that is no body of a sum has a frame within that of the whole. -/
theorem Keeps.part (h : Starts s e (e.enter w) [] e' w')
    (hk : Keeps (Binds s e' w') (Changes s e' w') (e'.eval s) w') :
    Keeps (Binds s e w) (Changes s e w) (e'.eval s) w' :=
  hk.mono (fun _ => Performs.part h) fun _ ⟨loops, hp, hx⟩ => ⟨loops, hp.part h, hx⟩

/-- The body of a sum changes the loop variable, and what the whole changes. -/
theorem Keeps.body (h : Starts s e (e.enter w) [x] e' w')
    (hk : Keeps (Binds s e' w') (Changes s e' w') (e'.eval s) w') :
    Keeps (fun _ => True) (fun y => y = x ∨ Changes s e w y) (e'.eval s) w' := by
  refine hk.mono (fun _ _ => trivial) ?_
  rintro y ⟨loops, hp, hy⟩
  by_cases hyx : y = x
  · exact .inl hyx
  · exact .inr ⟨[x] ++ loops, hp.part h, by simpa using ⟨hyx, hy⟩⟩

theorem Keeps.of_rule {fresh changed : String → Prop}
    (h : Keeps fresh changed (e.rule s) (e.enter w)) : Keeps fresh changed (e.eval s) w := by
  intro hw
  have hframe := h (by simpa [Workspace.Sound] using hw)
  obtain ⟨-, hm, ht⟩ := Expr.eval_apply s e w
  constructor
  · rw [ht, hframe.functions, Expr.table_enter]
  · intro x id hx
    rw [ht]
    exact hframe.kept x id (by rwa [Expr.table_enter])
  · intro id v hv
    rw [hm]
    simpa using hframe.memory id v (by rwa [Expr.memory_enter])
  · intro x id hx
    rw [ht] at hx
    rw [hm]
    simpa using hframe.new x id hx

/-- An evaluation binds no names but those it assigns to outside of all bodies of sums, and changes no
variables but those of names it assigns to, other than loop variables. -/
theorem eval_keeps (e : Expr) (w : Workspace) :
    Keeps (Binds s e w) (Changes s e w) (e.eval s) w := by
  -- The induction is on the expression: a rule begins with smaller parts only.
  refine .of_rule (Keeps.composes.rule (fun e' w' hstart => ?_) (fun x v a w₁ he ha => ?_) ?_)
  · have hlt := hstart.sizeOf_lt
    exact (eval_keeps e' w').part hstart
  · subst he
    refine .assign fun w₂ hw₂ => ?_
    have hp : Performs s (.assign x v) w x [] := ⟨v, a, w, w₁, w₂, .here, ha, hw₂⟩
    exact ⟨hp, [], hp, by simp⟩
  · intro x body count low scope w₂ w₃ hcopy hbody
    refine loopIn_keeps hcopy fun w₄ w' hd hit => ?_
    have hstart := hbody w₄ w' hd hit
    have hlt := hstart.sizeOf_lt
    exact (eval_keeps body w').body hstart
termination_by e

end Evaluations

end ComplexCalc
