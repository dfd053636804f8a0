import ComplexCalc.Tables
import ComplexCalc.Proofs.Standard
/-!
# Tables that share a memory

Whatever steps a host program takes, every name of every table has a variable of this name. A step
works on one table and on the memory that all of them share; the others stay sound because no
variable goes away or changes its name.
-/
namespace ComplexCalc

/-- Every variable is still there, under the same name. -/
def Memory.Grows (m m' : Memory) : Prop :=
  ∀ (id : Nat) v, m[id]? = some v → ∃ v', m'[id]? = some v' ∧ v'.name = v.name

namespace Memory.Grows

variable {m m' m'' : Memory}

theorem refl : m.Grows m := fun _ v h => ⟨v, h, rfl⟩

theorem trans (h : m.Grows m') (h' : m'.Grows m'') : m.Grows m'' := by
  intro id v hv
  obtain ⟨v', hv', hn⟩ := h id v hv
  obtain ⟨v'', hv'', hn'⟩ := h' id v' hv'
  exact ⟨v'', hv'', hn'.trans hn⟩

theorem push (u : Variable) : m.Grows (m.push u) := fun _ v h =>
  ⟨v, Memory.getElem?_push_of_some h u, rfl⟩

theorem sound {w w' : Workspace} (h : w.memory.Grows w'.memory)
    (ht : w'.table.scope = w.table.scope) (hw : w.Sound) : w'.Sound := by
  intro x id hx
  rw [ht] at hx
  obtain ⟨v, hv, hn⟩ := hw x id hx
  obtain ⟨v', hv', hn'⟩ := h id v hv
  exact ⟨v', hv', hn'.trans hn⟩

end Memory.Grows

/-- Begun on a sound table, the step leaves it sound, and all variables where they are. -/
def KeepsSound {α : Type} (m : EvalM α) (w : Workspace) : Prop :=
  w.Sound → w.memory.Grows (m w).2.memory ∧ (m w).2.Sound

namespace KeepsSound

variable {α β : Type} {w : Workspace}

theorem of_keeps {fresh changed : String → Prop} {m : EvalM α} (h : Keeps fresh changed m w) :
    KeepsSound m w := by
  refine fun hw => ⟨fun id v hv => ?_, (h hw).sound hw⟩
  obtain ⟨v', hv', hn, -⟩ := (h hw).memory id v hv
  exact ⟨v', hv', hn⟩

theorem bind {m : EvalM α} {f : α → EvalM β} (hm : KeepsSound m w)
    (hf : ∀ a w', m w = (.ok a, w') → KeepsSound (f a) w') : KeepsSound (m >>= f) w := by
  intro hw
  have h := hm hw
  rcases hr : m w with ⟨e | a, w'⟩ <;> rw [hr] at h
  · rw [Action.bind_error hr]
    exact h
  · rw [Action.bind_ok hr]
    have h' := hf a w' hr h.2
    exact ⟨h.1.trans h'.1, h'.2⟩

theorem define (v : Variable) (w : Workspace) : KeepsSound (EvalM.define v) w := by
  intro hw
  rcases hd : EvalM.define v w with ⟨e | _, w'⟩
  · rcases EvalM.define_cases w v with ⟨_, h⟩ | h <;> rw [h] at hd <;> cases hd
    exact ⟨.push v, Memory.Grows.sound (.push v) rfl hw⟩
  · refine ⟨?_, hw.define hd⟩
    rcases EvalM.define_cases w v with ⟨_, h⟩ | h <;> rw [h] at hd <;> cases hd
    exact .push v

theorem of_eq {m : EvalM α} (hm : (m w).2.memory = w.memory)
    (hs : (m w).2.table.scope = w.table.scope) : KeepsSound m w := by
  have hgrows : w.memory.Grows (m w).2.memory := hm ▸ .refl
  exact fun hw => ⟨hgrows, hgrows.sound hs hw⟩

theorem assign (x : String) (a : Value) (w : Workspace) : KeepsSound (EvalM.assign x a) w := by
  have hassign : Keeps (fun _ => True) (fun _ => True) (EvalM.assign x a) w :=
    .assign fun _ _ => ⟨trivial, trivial⟩
  exact .of_keeps hassign

theorem forM {l : List β} {f : β → EvalM Unit} (h : ∀ b w, KeepsSound (f b) w) (w : Workspace) :
    KeepsSound (l.forM f) w := by
  induction l generalizing w with
  | nil => exact .of_eq rfl rfl
  | cons b l ih => exact (h b w).bind fun _ w' _ => ih w'

theorem bindFunction (x : String) (f : Callable) (w : Workspace) :
    KeepsSound (EvalM.bindFunction x f) w := by
  refine KeepsSound.bind (.of_eq rfl rfl) fun old w' _ => ?_
  cases old with
  | none => exact .of_eq rfl rfl
  | some old =>
    dsimp only
    split <;> exact .of_eq rfl rfl

/-- A name may be bound to a variable of this name. -/
theorem bindTo {x : String} {id : Nat} {v : Variable} (hv : w.memory[id]? = some v)
    (hn : v.name = x) : KeepsSound (EvalM.bindTo x id) w := by
  have hbind : KeepsSound
      (EvalM.modifyTable fun t => { t with scope := t.scope.bind x id }) w := by
    refine fun hw => ⟨.refl, fun y j hy => ?_⟩
    by_cases hyx : y = x
    · subst hyx
      cases (Bindings.get?_bind_self _ _ _).symm.trans hy
      exact ⟨v, hv, hn⟩
    · exact hw y j ((Bindings.get?_bind_of_ne _ _ hyx).symm.trans hy)
  refine KeepsSound.bind (.of_eq rfl rfl) fun old w' h => ?_
  cases h
  split
  · split
    · exact .of_eq rfl rfl
    · exact hbind
  · exact hbind

theorem register (w : Workspace) : KeepsSound EvalM.register w :=
  (forM (fun _ w => define _ w) w).bind fun _ w' _ => forM (fun _ w => bindFunction _ _ w) w'

theorem clear (w : Workspace) : KeepsSound EvalM.clear w := by
  refine KeepsSound.bind (.of_eq rfl rfl) fun _ w₁ _ => ?_
  refine KeepsSound.bind (fun _ => ⟨.refl, fun x id hx => ?_⟩) fun _ w₂ _ => register w₂
  cases hx

end KeepsSound

/-! ## Steps of a host program -/

namespace Tables

/-- Every table is sound on the shared memory. -/
def Sound (ts : Tables) : Prop := ∀ t ∈ ts.tables, Workspace.Sound ⟨ts.memory, t, ts.journal⟩

variable {ts : Tables}

theorem on_sound {α : Type} {index : Nat} {step : EvalM α} (hts : ts.Sound)
    (h : ∀ t ∈ ts.tables, KeepsSound step ⟨ts.memory, t, ts.journal⟩) :
    (ts.on index step).2.Sound := by
  unfold on
  split
  · exact hts
  · rename_i t ht
    obtain ⟨hgrows, hsound⟩ := h t (List.mem_of_getElem? ht) (hts t (List.mem_of_getElem? ht))
    intro u hu
    rcases List.mem_or_eq_of_mem_set hu with hu | rfl
    -- The other tables find their variables in the memory that the step leaves.
    · exact Memory.Grows.sound (w := ⟨ts.memory, u, ts.journal⟩) hgrows rfl (hts u hu)
    · exact hsound

/-- A copy has the names of a table, and leaves the memory alone. -/
theorem copy_sound {index : Nat} {t : Table} {ts' : Tables} (hts : ts.Sound)
    (h : ts.on index EvalM.copy = (.ok t, ts')) : Workspace.Sound ⟨ts'.memory, t, ts'.journal⟩ := by
  unfold on at h
  split at h
  · cases h
  · rename_i t₀ ht₀
    obtain ⟨random, source, hcopy⟩ := EvalM.copy_apply ⟨ts.memory, t₀, ts.journal⟩
    rw [hcopy] at h
    cases h
    exact hts t₀ (List.mem_of_getElem? ht₀)

theorem memory_of_locate? {index id : Nat} {x : String} {v : Variable}
    (h : ts.locate? index x = some (id, v)) : ts.memory[id]? = some v := by
  obtain ⟨t, -, h⟩ := Option.bind_eq_some_iff.1 h
  exact (Table.locate?_eq_some.1 h).2

theorem step_sound (s : Settings) (index : Nat) (change : TableStep) (hts : ts.Sound) :
    (ts.step s index change).2.Sound := by
  have hdone : ∀ {m : EvalM Unit} {w : Workspace}, KeepsSound m w →
      KeepsSound (do m; return TableAnswer.done) w := fun h => h.bind fun _ _ _ => .of_eq rfl rfl
  cases change with
  | eval text =>
    refine on_sound hts fun t _ => (KeepsSound.of_keeps (evalText_keeps_all s text _)).bind ?_
    exact fun _ _ _ => .of_eq rfl rfl
  | copy =>
    have hcopy : ∀ w, KeepsSound EvalM.copy w := fun w => .of_eq rfl rfl
    have hon : (ts.on index EvalM.copy).2.Sound := on_sound hts fun t _ => hcopy _
    unfold step
    dsimp only
    split
    · rename_i t ts' ht
      rw [ht] at hon
      intro u hu
      rcases List.mem_append.1 hu with hu | hu
      · exact hon u hu
      · cases List.mem_singleton.1 hu
        have hcopied := copy_sound hts ht
        exact hcopied
    · rename_i ht
      rwa [ht] at hon
  | clear =>
    have hclear : ∀ w, KeepsSound (do EvalM.clear; return TableAnswer.done) w := fun w =>
      hdone (KeepsSound.clear w)
    rw [step]
    refine on_sound hts ?_
    intro t _
    exact hclear _
  | assign name value =>
    exact on_sound hts fun t _ => hdone (.assign name value _)
  | define v => exact on_sound hts fun t _ => hdone (.define v _)
  | share name other =>
    unfold step
    dsimp only
    split
    · rename_i id v hl
      exact on_sound hts fun t _ => hdone (.bindTo (memory_of_locate? hl) rfl)
    · exact hts
  | bindFunction name f => exact on_sound hts fun t _ => hdone (.bindFunction name f _)

theorem fresh_sound (random : RandomSource) (withBuiltins : Bool) (journal : Journal) :
    (fresh random withBuiltins journal).Sound := by
  have hw : (Workspace.fresh random withBuiltins journal).Sound := by
    cases withBuiltins with
    | false => exact fun x id h => by cases h
    | true => exact (Workspace.fresh_standard random journal).1.sound
  unfold fresh
  generalize Workspace.fresh random withBuiltins journal = w at hw
  intro t ht
  cases List.mem_singleton.1 ht
  exact hw

/-- After any steps on any tables, whether they succeed or not, every table is sound. -/
theorem run_sound (s : Settings) (steps : List (Nat × TableStep)) (hts : ts.Sound) :
    (ts.run s steps).Sound := by
  induction steps generalizing ts with
  | nil => exact hts
  | cons change steps ih =>
    obtain ⟨index, change⟩ := change
    exact ih (step_sound s index change hts)

/-- Steps of a host program lead to these tables from a new one. -/
def Reachable (ts : Tables) : Prop :=
  ∃ random withBuiltins journal s steps, ts = (fresh random withBuiltins journal).run s steps

theorem Reachable.sound (h : ts.Reachable) : ts.Sound := by
  obtain ⟨random, withBuiltins, journal, s, steps, rfl⟩ := h
  exact run_sound s steps (fresh_sound random withBuiltins journal)

end Tables

end ComplexCalc
