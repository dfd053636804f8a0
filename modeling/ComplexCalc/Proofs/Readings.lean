import ComplexCalc.Proofs.Escapes
import ComplexCalc.Proofs.Protection
/-!
# What names read

Evaluation sees of a variable its value and whether it is a constant, and nothing of where it lies in
the memory. The steps on a table are told here by what its names read afterwards.
-/
namespace ComplexCalc

/-- The value that a name has, and whether it is a constant. -/
def Workspace.reading (w : Workspace) (x : String) : Option (Value × Bool) :=
  (w.table.locate? w.memory x).map fun (_, v) => (v.value, v.constant)

/-- From `w` to `w'` the name gets a value, and everything else stays. -/
structure Written (x : String) (a : Value) (w w' : Workspace) : Prop where
  sound : w'.Sound
  functions : w'.table.functions = w.table.functions
  journal : w'.journal = w.journal
  self : w'.reading x = some (a, false)
  others : ∀ y, y ≠ x → w'.reading y = w.reading y

namespace Workspace

variable {w w' : Workspace} {x : String} {id : Nat} {v : Variable}

theorem assignable_iff : w.Assignable x ↔ ∀ a, w.reading x ≠ some (a, true) := by
  constructor
  · intro h a ha
    obtain ⟨⟨id, v⟩, hv, hva⟩ := Option.map_eq_some_iff.1 ha
    have hk : v.constant = true := congrArg Prod.snd hva
    rw [h id v hv] at hk
    cases hk
  · intro h id v hv
    refine Bool.eq_false_iff.2 fun hk => h v.value ?_
    rw [reading, hv]
    simp [hk]

theorem assignable_of_reading {a : Value} (h : w.reading x = some (a, false)) : w.Assignable x := by
  refine assignable_iff.2 fun b hb => ?_
  rw [h] at hb
  cases hb

theorem assignable_of_unbound (h : w.reading x = none) : w.Assignable x :=
  assignable_iff.2 fun _ hb => by rw [h] at hb; cases hb

theorem reading_of_eq (hm : w'.memory = w.memory) (hs : w'.table.scope = w.table.scope) (x : String) :
    w'.reading x = w.reading x := by
  simp only [reading, Table.locate?, hm, hs]

theorem reading_of_bound (hx : w.table.scope.get? x = some id) (hv : w.memory[id]? = some v) :
    w.reading x = some (v.value, v.constant) := by
  rw [reading, Table.locate?_eq_some.2 ⟨hx, hv⟩]
  rfl

theorem reading_of_unbound (hx : w.table.scope.get? x = none) : w.reading x = none := by
  simp [reading, Table.locate?, hx]

/-- A name reads nothing if it is not bound, and otherwise its variable. -/
theorem Sound.reading_cases (hw : w.Sound) (x : String) :
    (w.table.scope.get? x = none ∧ w.reading x = none) ∨
    ∃ id v, w.table.scope.get? x = some id ∧ w.memory[id]? = some v ∧ v.name = x ∧
      w.reading x = some (v.value, v.constant) := by
  rcases hx : w.table.scope.get? x with - | id
  · exact .inl ⟨rfl, reading_of_unbound hx⟩
  · obtain ⟨v, hv, hn⟩ := hw x id hx
    exact .inr ⟨id, v, rfl, hv, hn, reading_of_bound hx hv⟩

/-- A new variable is read by no name. -/
theorem Sound.reading_push (hw : w.Sound) (u : Variable) (x : String) :
    reading { w with memory := w.memory.push u } x = w.reading x := by
  rcases hw.reading_cases x with ⟨hx, h⟩ | ⟨id, v, hx, hv, -, h⟩ <;> rw [h]
  · exact reading_of_unbound hx
  · exact reading_of_bound hx (Memory.getElem?_push_of_some hv u)

end Workspace

section Frames
variable {fresh changed : String → Prop} {w w' : Workspace} {x : String}

/-- A name that a frame leaves alone has the same variable with the same value afterwards. -/
theorem Frame.locate? (h : Frame fresh changed w w') (hw : w.Sound) (hfresh : ¬fresh x)
    (hchanged : ¬changed x) : w'.table.locate? w'.memory x = w.table.locate? w.memory x := by
  rcases EvalM.locate?_of_sound (x := x) hw with ⟨hnone, hx⟩ | ⟨id, v, hsome, hx, hv, hn⟩
  · rw [hnone]
    refine Option.eq_none_iff_forall_ne_some.2 fun ⟨id, v⟩ hid => ?_
    rcases h.new x id (Table.locate?_eq_some.1 hid).1 with hx' | ⟨-, -, hf, -⟩
    · rw [hx] at hx'
      cases hx'
    · exact hfresh hf
  · rw [hsome]
    obtain ⟨v', hv', -, -, rfl | ⟨-, -, hc⟩⟩ := h.memory id v hv
    · exact Table.locate?_eq_some.2 ⟨h.kept x id hx, hv'⟩
    · exact absurd (hn ▸ hc) hchanged

theorem Frame.reading (h : Frame fresh changed w w') (hw : w.Sound) (hfresh : ¬fresh x)
    (hchanged : ¬changed x) : w'.reading x = w.reading x := by
  rw [Workspace.reading, h.locate? hw hfresh hchanged, Workspace.reading]

end Frames

/-! ## Steps -/

section Steps
variable {w : Workspace}

theorem name_apply (x : String) (w : Workspace) : Rule.name x w =
    (match w.reading x with
      | some (a, _) => .ok a
      | none => .error (.noValue (.unboundVariable x)), w) := by
  rw [Rule.name, Action.bind_ok (EvalM.find?_apply w x)]
  unfold Workspace.reading
  rcases w.table.locate? w.memory x with - | ⟨id, v⟩ <;> rfl

/-- A name is assigned a value, unless it is a constant. -/
theorem assign_reading (hw : w.Sound) (x : String) (a : Value) :
    (¬w.Assignable x ∧ EvalM.assign x a w = (.error (.noValue (.constantVariable x)), w)) ∨
    (w.Assignable x ∧ ∃ w', EvalM.assign x a w = (.ok (), w') ∧ Written x a w w') := by
  have hkeeps : Keeps (fun y => y = x) (fun y => y = x) (EvalM.assign x a) w :=
    .assign fun _ _ => ⟨rfl, rfl⟩
  have hframe := hkeeps hw
  have hothers : ∀ y, y ≠ x → (EvalM.assign x a w).2.reading y = w.reading y := fun y hy =>
    hframe.reading hw hy hy
  rcases EvalM.assign_cases hw x a with ⟨h, id, v, hx, hv, hk⟩ | ⟨id, v, hx, hv, hn, hk, h⟩ | ⟨hx, h⟩
  · refine .inl ⟨fun hvar => ?_, h⟩
    rw [hvar id v (Table.locate?_eq_some.2 ⟨hx, hv⟩)] at hk
    cases hk
  · rw [h] at hframe hothers
    have hreading := Workspace.reading_of_bound hx hv
    rw [hk] at hreading
    refine .inr ⟨Workspace.assignable_of_reading hreading, _, h, hframe.sound hw, rfl, rfl, ?_, hothers⟩
    have hlt : id < w.memory.size := (Array.getElem?_eq_some_iff.1 hv).1
    have hset : (w.memory.setIfInBounds id { v with value := a })[id]? =
        some { v with value := a } := by simp [hlt]
    rw [← hk]
    exact Workspace.reading_of_bound
      (w := { w with memory := w.memory.setIfInBounds id { v with value := a } }) hx hset
  · rw [h] at hframe hothers
    have hunbound := Workspace.assignable_of_unbound (Workspace.reading_of_unbound hx)
    refine .inr ⟨hunbound, _, h, hframe.sound hw, rfl, rfl, ?_, hothers⟩
    exact Workspace.reading_of_bound (v := ⟨x, a, false⟩) (Bindings.get?_bind_self _ _ _) (by simp)

/-- A name is bound to a new variable, unless it is a constant. -/
theorem define_reading (hw : w.Sound) (x : String) (a : Value) :
    (¬w.Assignable x ∧ EvalM.define ⟨x, a, false⟩ w =
      (.error (.noValue (.constantVariable x)), { w with memory := w.memory.push ⟨x, a, false⟩ })) ∨
    (w.Assignable x ∧ ∃ w', EvalM.define ⟨x, a, false⟩ w = (.ok (), w') ∧
      w'.memory = w.memory.push ⟨x, a, false⟩ ∧
      w'.table.scope = w.table.scope.bind x w.memory.size ∧ Written x a w w') := by
  have hpush := hw.reading_push ⟨x, a, false⟩
  have hassignable : Workspace.Assignable { w with memory := w.memory.push ⟨x, a, false⟩ } x ↔
      w.Assignable x := by
    rw [Workspace.assignable_iff, Workspace.assignable_iff, hpush]
  rw [EvalM.define_eq]
  rcases EvalM.bindTo_cases { w with memory := w.memory.push ⟨x, a, false⟩ } x w.memory.size with
    ⟨id, v, hv, hk, h⟩ | ⟨hvar, h⟩
  · refine .inl ⟨fun hvar => ?_, h⟩
    rw [hassignable.2 hvar id v hv] at hk
    cases hk
  · refine .inr ⟨hassignable.1 hvar, _, h, rfl, rfl, hw.define h, rfl, rfl, ?_, fun y hy => ?_⟩
    · exact Workspace.reading_of_bound (v := ⟨x, a, false⟩) (Bindings.get?_bind_self _ _ _) (by simp)
    · rw [← hpush y]
      simp only [Workspace.reading, Table.locate?, Bindings.get?_bind_of_ne _ _ hy]

/-- When a scope with a variable of its own is left, that variable is forgotten, and every other name
reads what it read in the scope if it was bound outside. -/
theorem leave_reading {w₁ w₂ : Workspace} {x : String} {a : Value} {t : Table} (hw : w.Sound)
    (hmemory : w₁.memory = w.memory.push ⟨x, a, false⟩)
    (hscope : w₁.table.scope = w.table.scope.bind x w.memory.size)
    (hframe : Frame (fun _ => True) (fun _ => True) w₁ w₂) (ht : t.scope = w.table.scope) :
    Workspace.Sound { w₂ with table := t } ∧
      Workspace.reading { w₂ with table := t } x = w.reading x ∧
      ∀ y, y ≠ x → Workspace.reading { w₂ with table := t } y =
        (w.reading y).bind fun _ => w₂.reading y := by
  have hvariable : ∀ y id, w.table.scope.get? y = some id → ∃ v v', w.memory[id]? = some v ∧
      w₂.memory[id]? = some v' ∧ v'.name = y ∧ (y = x → v' = v) := by
    intro y id hy
    obtain ⟨v, hv, hn⟩ := hw y id hy
    obtain ⟨v', hv', hn', -, hch⟩ := hframe.memory id v
      (by rw [hmemory]; exact Memory.getElem?_push_of_some hv _)
    refine ⟨v, v', hv, hv', hn'.trans hn, fun hyx => hch.resolve_right ?_⟩
    -- In the scope the name has a newer variable than outside.
    rintro ⟨-, hbound, -⟩
    rw [hn, hyx, hscope, Bindings.get?_bind_self] at hbound
    have hlt : id < w.memory.size := (Array.getElem?_eq_some_iff.1 hv).1
    have hsize := Option.some.inj hbound
    omega
  refine ⟨fun y id hy => ?_, ?_, fun y hyx => ?_⟩
  · obtain ⟨v, v', -, hv', hn, -⟩ := hvariable y id (ht ▸ hy)
    exact ⟨v', hv', hn⟩
  · rcases hw.reading_cases x with ⟨hx, h⟩ | ⟨id, v, hx, hv, -, h⟩ <;> rw [h]
    · exact Workspace.reading_of_unbound (ht ▸ hx)
    · obtain ⟨u, v', hu, hv', -, hsame⟩ := hvariable x id hx
      cases hv.symm.trans hu
      cases hsame rfl
      exact Workspace.reading_of_bound (ht ▸ hx) hv'
  · rcases hw.reading_cases y with ⟨hy, h⟩ | ⟨id, v, hy, -, -, h⟩ <;> rw [h]
    · exact Workspace.reading_of_unbound (ht ▸ hy)
    · obtain ⟨_, v', -, hv', -, -⟩ := hvariable y id hy
      have hy₁ : w₁.table.scope.get? y = some id := by
        rw [hscope, Bindings.get?_bind_of_ne _ _ hyx]
        exact hy
      rw [Workspace.reading_of_bound (w := { w₂ with table := t }) (ht ▸ hy) hv', Option.bind_some,
        Workspace.reading_of_bound (hframe.kept y id hy₁) hv']

end Steps

end ComplexCalc
