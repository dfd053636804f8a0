import ComplexCalc.Proofs.SharedTables
/-!
# What is protected

Constants and builtin functions stay as they are, whatever step is taken. `Guarded` says so of two
workspaces, and also which names a step may have bound anew. Only the clearing of a table is outside
of it; that one adds variables to the memory and changes none.
-/
namespace ComplexCalc

namespace Memory

/-- Every variable is as it was. -/
def Extends (m m' : Memory) : Prop := ∀ (id : Nat) v, m[id]? = some v → m'[id]? = some v

/-- Every constant is as it was. -/
def SameConstants (m m' : Memory) : Prop :=
  ∀ (id : Nat) v, m[id]? = some v → v.constant = true → m'[id]? = some v

variable {m m' m'' : Memory}

theorem Extends.refl : m.Extends m := fun _ _ h => h

theorem Extends.trans (h : m.Extends m') (h' : m'.Extends m'') : m.Extends m'' := fun id v hv =>
  h' id v (h id v hv)

theorem Extends.push (v : Variable) : m.Extends (m.push v) := fun _ _ h =>
  getElem?_push_of_some h v

theorem Extends.sameConstants (h : m.Extends m') : m.SameConstants m' := fun id v hv _ => h id v hv

theorem SameConstants.refl : m.SameConstants m := Extends.refl.sameConstants

end Memory

/-! ## Bindings -/

namespace EvalM

variable {w : Workspace}

/-- A name is bound, unless it is bound to a constant. -/
theorem bindTo_cases (w : Workspace) (x : String) (id : Nat) :
    (∃ j v, w.table.locate? w.memory x = some (j, v) ∧ v.constant = true ∧
      bindTo x id w = (.error (.noValue (.constantVariable x)), w)) ∨
    (w.Assignable x ∧
      bindTo x id w =
        (.ok (), { w with table := { w.table with scope := w.table.scope.bind x id } })) := by
  simp only [bindTo, Action.bind_apply, find?_apply]
  rcases hl : w.table.locate? w.memory x with - | ⟨j, v⟩
  · refine .inr ⟨fun _ _ h => ?_, rfl⟩
    rw [hl] at h
    cases h
  · by_cases hv : v.constant = true
    · exact .inl ⟨j, v, rfl, hv, by simp [hv]⟩
    · refine .inr ⟨fun j' v' h => ?_, by simp [hv]; rfl⟩
      cases hl.symm.trans h
      simpa using hv

theorem define_eq (v : Variable) (w : Workspace) :
    define v w = bindTo v.name w.memory.size { w with memory := w.memory.push v } := rfl

/-- A name is bound to a function, unless it is bound to a builtin one. -/
theorem bindFunction_cases (w : Workspace) (x : String) (f : Callable) :
    (∃ c, w.table.functions.get? x = some c ∧ c.isBuiltin = true ∧
      bindFunction x f w = (.error (.noValue (.builtinFunction x)), w)) ∨
    ((∀ c, w.table.functions.get? x = some c → c.isBuiltin = false) ∧ bindFunction x f w =
      (.ok (), { w with table := { w.table with functions := w.table.functions.bind x f } })) := by
  simp only [bindFunction, Action.bind_apply, findFunction?_apply]
  rcases hf : w.table.functions.get? x with - | c
  · exact .inr ⟨fun _ h => by simp at h, rfl⟩
  · by_cases hc : c.isBuiltin = true
    · exact .inl ⟨c, rfl, hc, by simp [hc]⟩
    · refine .inr ⟨fun c' h => ?_, by simp [hc]; rfl⟩
      cases h
      simpa using hc

end EvalM

/-! ## Guarded steps -/

/-- From `w` to `w'` no constant changes, no name of a constant or of a builtin function is bound anew,
and of the names of other variables only those in `rebound` are. -/
structure Guarded (rebound : String → Prop) (w w' : Workspace) : Prop where
  constants : w.memory.SameConstants w'.memory
  bindings : ∀ x id, w.table.scope.get? x = some id → w'.table.scope.get? x = some id ∨
    rebound x ∧ ∀ v, w.memory[id]? = some v → v.constant = false
  functions : ∀ f c, w.table.functions.get? f = some c → c.isBuiltin = true →
    w'.table.functions.get? f = some c

namespace Guarded

variable {rebound rebound' : String → Prop} {w w' w'' : Workspace} {x : String}

theorem of_table (hm : w.memory.SameConstants w'.memory) (ht : w'.table = w.table) :
    Guarded rebound w w' where
  constants := hm
  bindings _ _ h := .inl (ht ▸ h)
  functions _ _ h _ := ht ▸ h

theorem refl : Guarded rebound w w := of_table .refl rfl

theorem mono (h : Guarded rebound w w') (hr : ∀ x, rebound x → rebound' x) :
    Guarded rebound' w w' :=
  ⟨h.constants, fun x id hx => (h.bindings x id hx).imp_right fun ⟨h₁, h₂⟩ => ⟨hr x h₁, h₂⟩,
    h.functions⟩

theorem trans (h : Guarded rebound w w') (h' : Guarded rebound w' w'') :
    Guarded rebound w w'' where
  constants id v hv hk := h'.constants id v (h.constants id v hv hk) hk
  bindings x id hx := by
    rcases h.bindings x id hx with hx' | hr
    · refine (h'.bindings x id hx').imp_right fun ⟨hr, hvar⟩ => ⟨hr, fun v hv => ?_⟩
      -- A constant would still be there, and its name could not be bound anew.
      refine Bool.eq_false_iff.2 fun hk => ?_
      rw [hvar v (h.constants id v hv hk)] at hk
      cases hk
    · exact .inr hr
  functions f c hc hb := h'.functions f c (h.functions f c hc hb) hb

theorem of_frame {fresh changed : String → Prop} (h : Frame fresh changed w w') :
    Guarded rebound w w' where
  constants id v hv hk := by
    obtain ⟨v', hv', -, -, rfl | ⟨hk', -⟩⟩ := h.memory id v hv
    · exact hv'
    · rw [hk] at hk'
      cases hk'
  bindings x id hx := .inl (h.kept x id hx)
  functions f c hc _ := by rwa [h.functions]

/-- A constant is found again as it was. -/
theorem locate? (h : Guarded rebound w w') {id : Nat} {v : Variable}
    (hv : w.table.locate? w.memory x = some (id, v)) (hk : v.constant = true) :
    w'.table.locate? w'.memory x = some (id, v) := by
  obtain ⟨hx, hid⟩ := Table.locate?_eq_some.1 hv
  refine Table.locate?_eq_some.2 ⟨?_, h.constants id v hid hk⟩
  rcases h.bindings x id hx with hx | ⟨-, hvar⟩
  · exact hx
  · rw [hvar v hid] at hk
    cases hk

theorem bind {α β : Type} {m : EvalM α} {f : α → EvalM β} (hm : Guarded rebound w (m w).2)
    (hf : ∀ a w', Guarded rebound w' (f a w').2) : Guarded rebound w ((m >>= f) w).2 := by
  rcases hr : m w with ⟨e | a, w'⟩ <;> rw [hr] at hm
  · rw [Action.bind_error hr]
    exact hm
  · rw [Action.bind_ok hr]
    exact hm.trans (hf a w')

theorem forM {α : Type} {l : List α} {f : α → EvalM Unit}
    (h : ∀ b w, Guarded rebound w (f b w).2) (w : Workspace) :
    Guarded rebound w (l.forM f w).2 := by
  induction l generalizing w with
  | nil => exact refl
  | cons b l ih => exact (h b w).bind fun _ w' => ih w'

/-! ### Steps on one table -/

theorem of_eq (hm : w.memory.SameConstants w'.memory) (hs : w'.table.scope = w.table.scope)
    (hf : w'.table.functions = w.table.functions) : Guarded rebound w w' where
  constants := hm
  bindings _ _ h := .inl (hs ▸ h)
  functions _ _ h _ := hf ▸ h

theorem bindTo (x : String) (id : Nat) (w : Workspace) :
    Guarded (fun y => y = x ∧ (EvalM.bindTo x id w).1 = .ok ()) w (EvalM.bindTo x id w).2 := by
  rcases EvalM.bindTo_cases w x id with ⟨j, v, -, -, h⟩ | ⟨hvar, h⟩ <;> rw [h]
  · exact .refl
  · refine ⟨.refl, fun y j hy => ?_, fun _ _ hf _ => hf⟩
    by_cases hyx : y = x
    · subst hyx
      exact .inr ⟨⟨rfl, rfl⟩, fun v hv => hvar j v (Table.locate?_eq_some.2 ⟨hy, hv⟩)⟩
    · exact .inl ((Bindings.get?_bind_of_ne _ _ hyx).trans hy)

theorem define (v : Variable) (w : Workspace) :
    Guarded (fun y => y = v.name ∧ (EvalM.define v w).1 = .ok ()) w (EvalM.define v w).2 := by
  rw [EvalM.define_eq]
  have hpush : Guarded (fun _ => False) w { w with memory := w.memory.push v } :=
    of_eq (Memory.Extends.push v).sameConstants rfl rfl
  exact (hpush.mono fun _ h => h.elim).trans (bindTo v.name w.memory.size _)

theorem bindFunction (x : String) (f : Callable) (w : Workspace) :
    Guarded (fun _ => False) w (EvalM.bindFunction x f w).2 := by
  rcases EvalM.bindFunction_cases w x f with ⟨c, -, -, h⟩ | ⟨hold, h⟩ <;> rw [h]
  · exact .refl
  · refine ⟨.refl, fun _ _ hx => .inl hx, fun y c hy hc => ?_⟩
    have hyx : y ≠ x := by
      rintro rfl
      rw [hold c hy] at hc
      cases hc
    exact (Bindings.get?_bind_of_ne _ _ hyx).trans hy

theorem assign (x : String) (a : Value) (hw : w.Sound) :
    Guarded (fun _ => False) w (EvalM.assign x a w).2 := by
  have hassign : Keeps (fun _ => True) (fun _ => True) (EvalM.assign x a) w :=
    .assign fun _ _ => ⟨trivial, trivial⟩
  exact of_frame (hassign hw)

theorem evalText (s : Settings) (text : String) (hw : w.Sound) :
    Guarded (fun _ => False) w (EvalM.evalText s text w).2 := of_frame (evalText_keeps_all s text w hw)

end Guarded

/-! ## Clearing -/

/-- The step changes no variable. -/
def Appends {α : Type} (m : EvalM α) : Prop :=
  ∀ w : Workspace, w.memory.Extends (m w).2.memory

namespace Appends

variable {α β : Type}

theorem of_eq {m : EvalM α} (h : ∀ w, (m w).2.memory = w.memory) : Appends m := fun w =>
  (h w).symm ▸ .refl

theorem bind {m : EvalM α} {f : α → EvalM β} (hm : Appends m) (hf : ∀ a, Appends (f a)) :
    Appends (m >>= f) := by
  intro w
  have h := hm w
  rcases hr : m w with ⟨e | a, w'⟩ <;> rw [hr] at h
  · rw [Action.bind_error hr]
    exact h
  · rw [Action.bind_ok hr]
    exact h.trans (hf a w')

theorem forM {l : List β} {f : β → EvalM Unit} (h : ∀ b, Appends (f b)) : Appends (l.forM f) := by
  induction l with
  | nil => exact of_eq fun _ => rfl
  | cons b l ih => exact (h b).bind fun _ => ih

theorem define (v : Variable) : Appends (EvalM.define v) := by
  intro w
  rcases EvalM.define_cases w v with ⟨_, h⟩ | h <;> rw [h] <;> exact .push v

theorem bindFunction (x : String) (f : Callable) : Appends (EvalM.bindFunction x f) := by
  refine of_eq fun w => ?_
  rcases EvalM.bindFunction_cases w x f with ⟨_, -, -, h⟩ | ⟨-, h⟩ <;> rw [h]

/-- What a table was bound to stays in the memory when the table is cleared. -/
theorem clear : Appends EvalM.clear := by
  refine bind (of_eq fun _ => rfl) fun _ => bind (of_eq fun _ => rfl) fun _ => ?_
  exact (forM fun _ => define _).bind fun _ => forM fun _ => bindFunction _ _

end Appends

/-! ## Steps of a host program -/

/-- The table that a step at an index works on. -/
def TableStep.target : TableStep → Nat → Nat
  | share _ other, _ => other
  | _, index => index

namespace Tables

variable {ts : Tables} {i k : Nat} {t : Table} {change : TableStep} {s : Settings}

/-- The workspace of one of the tables. -/
abbrev workspace (ts : Tables) (t : Table) : Workspace := ⟨ts.memory, t, ts.journal⟩

/-- The step binds a name of the table anew, to a new variable or to that of another table. -/
def Rebinds (ts : Tables) (s : Settings) (i : Nat) (change : TableStep) (k : Nat) (x : String) :
    Prop :=
  (ts.step s i change).1 = .ok .done ∧
    ((i = k ∧ ∃ v, change = .define v ∧ v.name = x) ∨ change = .share x k)

section On
variable {α : Type} {step : EvalM α}

theorem on_eq (ht : ts.tables[k]? = some t) : ts.on k step =
    ((step (ts.workspace t)).1, ⟨(step (ts.workspace t)).2.memory,
      (step (ts.workspace t)).2.journal, ts.tables.set k (step (ts.workspace t)).2.table⟩) := by
  simp only [on, ht]
  rfl

theorem on_ne (h : i ≠ k) : (ts.on i step).2.tables[k]? = ts.tables[k]? := by
  unfold on
  split
  · rfl
  · exact List.getElem?_set_ne h

theorem on_length (ts : Tables) (i : Nat) (step : EvalM α) :
    (ts.on i step).2.tables.length = ts.tables.length := by
  unfold on
  split
  · rfl
  · exact List.length_set

theorem on_memory {R : Memory → Memory → Prop} (hrefl : R ts.memory ts.memory)
    (h : ∀ t ∈ ts.tables, R ts.memory (step (ts.workspace t)).2.memory) :
    R ts.memory (ts.on i step).2.memory := by
  unfold on
  split
  · exact hrefl
  · rename_i t ht
    exact h t (List.mem_of_getElem? ht)

theorem on_guarded {rebound : String → Prop} (ht : ts.tables[k]? = some t)
    (h : Guarded rebound (ts.workspace t) (step (ts.workspace t)).2) :
    ∃ t', (ts.on k step).2.tables[k]? = some t' ∧
      Guarded rebound (ts.workspace t) ((ts.on k step).2.workspace t') := by
  have hlt : k < ts.tables.length := (List.getElem?_eq_some_iff.1 ht).1
  rw [on_eq ht]
  refine ⟨_, List.getElem?_set_self hlt, ?_⟩
  exact h

/-- A step that answers what its action gives fails as the action does and leaves what that leaves. -/
theorem answer_apply (m : EvalM α) (f : α → TableAnswer) (w : Workspace) :
    (do let a ← m; return f a : EvalM TableAnswer) w = ((m w).1.map f, (m w).2) := by
  rw [Action.bind_apply]
  rcases m w with ⟨_ | _, _⟩ <;> rfl

theorem on_answer_extends {m : EvalM α} {f : α → TableAnswer} (h : Appends m) :
    ts.memory.Extends (ts.on i (do let a ← m; return f a : EvalM TableAnswer)).2.memory := by
  refine on_memory .refl fun t _ => ?_
  rw [answer_apply]
  exact h (ts.workspace t)

end On

/-- A step leaves all tables but the one it works on as they are. -/
theorem step_ne (h : change.target i ≠ k) (hk : k < ts.tables.length) :
    (ts.step s i change).2.tables[k]? = ts.tables[k]? := by
  cases change with
  | copy =>
    have hon : (ts.on i EvalM.copy).2.tables[k]? = ts.tables[k]? := on_ne h
    have hlen := on_length ts i EvalM.copy
    unfold step
    dsimp only
    split <;> rename_i hcopy <;> rw [hcopy] at hon hlen
    -- The new table comes after all others.
    · exact (List.getElem?_append_left (hlen.symm ▸ hk)).trans hon
    · exact hon
  | share name other =>
    unfold step
    dsimp only
    split
    · exact on_ne h
    · rfl
  | _ =>
    unfold step
    exact on_ne h

/-- No step changes a constant. -/
theorem step_constants (hts : ts.Sound) (s : Settings) (i : Nat) (change : TableStep) :
    ts.memory.SameConstants (ts.step s i change).2.memory := by
  have hon : ∀ {α : Type} {k : Nat} (m : EvalM α) (f : α → TableAnswer),
      (∀ t ∈ ts.tables, ts.memory.SameConstants (m (ts.workspace t)).2.memory) →
      ts.memory.SameConstants
        (ts.on k (do let a ← m; return f a : EvalM TableAnswer)).2.memory := by
    refine fun m f h => on_memory .refl fun t ht => ?_
    rw [answer_apply]
    exact h t ht
  unfold step
  cases change with
  | eval text => exact hon _ _ fun t ht => (Guarded.evalText s text (hts t ht)).constants
  | clear => exact (on_answer_extends .clear).sameConstants
  | assign x a => exact hon _ _ fun t ht => (Guarded.assign x a (hts t ht)).constants
  | define v => exact hon _ _ fun t _ => (Guarded.define v (ts.workspace t)).constants
  | bindFunction x f => exact hon _ _ fun t _ => (Guarded.bindFunction x f (ts.workspace t)).constants
  | copy =>
    have hcopy : ts.memory.SameConstants (ts.on i EvalM.copy).2.memory :=
      on_memory .refl fun t _ => .refl
    dsimp only
    split <;> rename_i h <;> rw [h] at hcopy <;> exact hcopy
  | share x other =>
    dsimp only
    split
    · exact hon _ _ fun t _ => (Guarded.bindTo _ _ (ts.workspace t)).constants
    · exact .refl

theorem name_of_locate? {id : Nat} {x : String} {v : Variable} (hts : ts.Sound)
    (h : ts.locate? k x = some (id, v)) : v.name = x := by
  obtain ⟨t, ht, h⟩ := Option.bind_eq_some_iff.1 h
  obtain ⟨hx, hv⟩ := Table.locate?_eq_some.1 h
  obtain ⟨u, hu, hn⟩ := hts t (List.mem_of_getElem? ht) x id hx
  cases hv.symm.trans hu
  exact hn

/-- A copy comes after the other tables and binds the names of the table it is of. -/
theorem step_copy (s : Settings) (ht : ts.tables[i]? = some t) : ∃ random source,
    ts.step s i .copy = (.ok (.table ts.tables.length), { ts with
      tables := ts.tables.set i { t with random := random } ++ [{ t with random := source }] }) := by
  obtain ⟨random, source, hcopy⟩ := EvalM.copy_apply (ts.workspace t)
  refine ⟨random, source, ?_⟩
  simp [step, on_eq ht, hcopy]

theorem on_answer_guarded {α : Type} {m : EvalM α} {f : α → TableAnswer} {rebound : String → Prop}
    (ht : ts.tables[k]? = some t)
    (h : Guarded rebound (ts.workspace t) (m (ts.workspace t)).2) :
    ∃ t', (ts.on k (do let a ← m; return f a : EvalM TableAnswer)).2.tables[k]? = some t' ∧
      Guarded rebound (ts.workspace t)
        ((ts.on k (do let a ← m; return f a : EvalM TableAnswer)).2.workspace t') := by
  refine on_guarded ht ?_
  rwa [answer_apply]

theorem on_answer_result {α : Type} {m : EvalM α} {f : α → TableAnswer} {a : α}
    (ht : ts.tables[k]? = some t) (h : (m (ts.workspace t)).1 = .ok a) :
    (ts.on k (do let a ← m; return f a : EvalM TableAnswer)).1 = .ok (f a) := by
  rw [on_eq ht, answer_apply, h]
  rfl

/-- No step but its clearing takes from a table a constant or a builtin function, or binds anew any
name but the one that the step says. -/
theorem step_guarded (hts : ts.Sound) (ht : ts.tables[k]? = some t)
    (hclear : (i, change) ≠ (k, .clear)) : ∃ t', (ts.step s i change).2.tables[k]? = some t' ∧
      Guarded (ts.Rebinds s i change k) (ts.workspace t)
        ((ts.step s i change).2.workspace t') := by
  have hlt : k < ts.tables.length := (List.getElem?_eq_some_iff.1 ht).1
  have hw : (ts.workspace t).Sound := hts t (List.mem_of_getElem? ht)
  by_cases htarget : change.target i = k
  · cases change with
    | eval text =>
      obtain rfl : i = k := htarget
      exact on_answer_guarded ht ((Guarded.evalText s text hw).mono fun _ h => h.elim)
    | clear =>
      obtain rfl : i = k := htarget
      exact absurd rfl hclear
    | assign x a =>
      obtain rfl : i = k := htarget
      exact on_answer_guarded ht ((Guarded.assign x a hw).mono fun _ h => h.elim)
    | bindFunction x f =>
      obtain rfl : i = k := htarget
      exact on_answer_guarded ht ((Guarded.bindFunction x f _).mono fun _ h => h.elim)
    | define v =>
      obtain rfl : i = k := htarget
      refine on_answer_guarded ht ((Guarded.define v _).mono ?_)
      rintro _ ⟨rfl, h⟩
      exact ⟨on_answer_result ht h, .inl ⟨rfl, v, rfl, rfl⟩⟩
    | copy =>
      obtain rfl : i = k := htarget
      obtain ⟨random, source, hcopy⟩ := step_copy s ht
      rw [hcopy]
      refine ⟨{ t with random := random }, ?_, .of_eq .refl rfl rfl⟩
      rw [List.getElem?_append_left (by simpa using hlt)]
      exact List.getElem?_set_self hlt
    | share x other =>
      obtain rfl : other = k := htarget
      rcases hl : ts.locate? i x with - | ⟨id, v⟩
      · simp only [step, hl]
        exact ⟨t, ht, .refl⟩
      · have hshare : ts.step s i (.share x other) =
            ts.on other (do EvalM.bindTo v.name id; return .done) := by simp only [step, hl]
        have hname := name_of_locate? hts hl
        unfold Rebinds
        rw [hshare]
        refine on_answer_guarded ht ((Guarded.bindTo v.name id _).mono ?_)
        rintro _ ⟨rfl, h⟩
        exact ⟨on_answer_result ht h, .inr (by rw [hname])⟩
  · refine ⟨t, (step_ne htarget hlt).trans ht, .of_table ?_ rfl⟩
    exact step_constants hts s i change

end Tables
end ComplexCalc
