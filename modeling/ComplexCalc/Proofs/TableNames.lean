import Mathlib.Data.List.Basic
import Mathlib.Data.List.TakeWhile
import ComplexCalc.Proofs.BindingOrder
import ComplexCalc.Proofs.Protection
/-!
# The names of a table stand in the order of their first bindings

A log of a table has the names that were bound in it since its creation or its last clearing, one after
the other, as the steps say it. A copy takes over the log of the table that it is of. The names of every
table are the first occurrences in its log, so a name that is bound anew or assigned to keeps its place,
and the variables of the user are listed in this order.
-/
namespace ComplexCalc

theorem Bindings.get?_of_mem {α : Type} {bs : Bindings α} (hbs : bs.names.Nodup) {x : String} {a : α}
    (h : (x, a) ∈ bs) : bs.get? x = some a := by
  obtain ⟨l, r, rfl⟩ := List.append_of_mem h
  rw [names_append, names_cons, List.nodup_append] at hbs
  refine List.lookup_eq_some_iff.2 ⟨l, r, rfl, fun p hp => ?_⟩
  have hne : p.1 ≠ x := hbs.2.2 p.1 (List.mem_map_of_mem hp) x List.mem_cons_self
  simpa using hne.symm

/-! ## Variables of the user -/

namespace Table

variable {t t' : Table} {memory memory' : Memory} {names log : List String} {x : String} {succeeds : Bool}

/-- The variable of a name, unless it is a constant. -/
def user? (t : Table) (memory : Memory) (x : String) : Option Variable :=
  ((t.locate? memory x).map (·.2)).filter fun v => !v.constant

/-- The variables of the user are listed as their names are. -/
theorem userVariables_eq (h : t.scope.names.Nodup) (memory : Memory) :
    t.userVariables memory = t.scope.names.filterMap (t.user? memory) := by
  rw [userVariables, List.filter_filterMap, Bindings.names, List.filterMap_map]
  refine List.filterMap_congr fun b hb => ?_
  obtain ⟨x, id⟩ := b
  simp only [Function.comp, user?, locate?, Bindings.get?_of_mem h hb, Option.map_map]
  congr 1
  cases memory[id]? <;> rfl

/-- When a name is bound to a constant its former variable leaves the list, and the others stay where
they are. -/
theorem userVariables_bind {journal : Journal} (ht : Workspace.Sound ⟨memory, t, journal⟩)
    (hlog : t.Records log) {id : Nat} {v : Variable} (hv : memory'[id]? = some v)
    (hconst : v.constant = true) (hmem : memory.Extends memory') :
    userVariables { t with scope := t.scope.bind x id } memory' =
      (t.userVariables memory).filter (·.name ≠ x) := by
  -- The constant is not listed, and every other name has the variable that it had.
  have huser : ∀ y, user? { t with scope := t.scope.bind x id } memory' y =
      (t.user? memory y).filter (·.name ≠ x) := by
    intro y
    unfold user? locate?
    dsimp only
    by_cases hyx : y = x
    · subst hyx
      rw [Bindings.get?_bind_self]
      rcases hy : t.scope.get? y with - | j
      · simp [hv, hconst]
      · obtain ⟨u, hu : memory[j]? = some u, hn⟩ := ht y j hy
        cases hc : u.constant <;> simp [hv, hconst, hu, hn, hc, Option.filter]
    · rw [Bindings.get?_bind_of_ne _ _ hyx]
      rcases hy : t.scope.get? y with - | j
      · rfl
      · obtain ⟨u, hu : memory[j]? = some u, hn⟩ := ht y j hy
        cases hc : u.constant <;> simp [hmem j u hu, hu, hn, hc, hyx, Option.filter]
  rw [userVariables_eq (hlog.bind x id).nodup, userVariables_eq hlog.nodup, List.filter_filterMap,
    funext huser, Bindings.names_bind]
  split
  · rfl
  · rename_i hx
    have hnone : t.user? memory x = none := by
      simp [user?, locate?, Bindings.get?_eq_none.2 hx]
    simp [List.filterMap_append, hnone]

/-! ## Logs -/

namespace Gains

/-- No name that was there before moves. -/
theorem names_prefix (h : t.Gains names succeeds t') (hlog : t.Records log) :
    t.scope.names <+: t'.scope.names := by
  obtain ⟨bound, -, -, hrecords⟩ := h log hlog
  rw [hlog.names_eq, hrecords.names_eq, List.eraseDups_append]
  exact List.prefix_append _ _

/-- The names that have been bound are the first ones, as long as they are in the table afterwards. -/
theorem records (h : t.Gains names succeeds t') (hlog : t.Records log) :
    t'.Records (log ++ names.takeWhile (· ∈ t'.scope.names)) ∧
      (succeeds = true → names.takeWhile (· ∈ t'.scope.names) = names) := by
  obtain ⟨bound, ⟨rest, rfl⟩, hall, hrecords⟩ := h log hlog
  have hmem : ∀ y, y ∈ t'.scope.names ↔ y ∈ log ++ bound := fun y => by
    rw [hrecords.names_eq, List.mem_eraseDups]
  have hbound : ∀ y ∈ bound, decide (y ∈ t'.scope.names) = true := fun y hy =>
    decide_eq_true ((hmem y).2 (List.mem_append_right _ hy))
  rw [List.takeWhile_append_of_pos hbound]
  constructor
  -- What follows in the list has been bound before.
  · rw [Records, ← List.append_assoc, eraseDups_append_of_subset fun y hy => ?_]
    · exact hrecords
    · exact (hmem y).1 (by simpa using List.mem_takeWhile_imp hy)
  · intro hok
    obtain rfl : rest = [] := by simpa using hall hok
    rfl

end Gains
end Table

/-! ## Steps on one table -/

namespace EvalM

variable {w : Workspace}

theorem bindTo_gains (x : String) (id : Nat) :
    w.table.Gains [x] (bindTo x id w).1.isOk (bindTo x id w).2.table := by
  rcases bindTo_cases w x id with ⟨_, _, -, -, h⟩ | ⟨-, h⟩ <;> rw [h]
  · exact .of_scope rfl nofun
  · exact .bind x id

theorem define_gains (v : Variable) :
    w.table.Gains [v.name] (define v w).1.isOk (define v w).2.table := by
  rw [define_eq]
  exact bindTo_gains (w := { w with memory := w.memory.push v }) v.name w.memory.size

theorem bindFunction_gains (x : String) (f : Callable) :
    w.table.Gains [] (bindFunction x f w).1.isOk (bindFunction x f w).2.table := by
  rcases bindFunction_cases w x f with ⟨_, -, -, h⟩ | ⟨-, h⟩ <;> rw [h] <;>
    exact .of_scope rfl fun _ => rfl

theorem register_names (hs : w.table.scope = []) (hf : w.table.functions = []) :
    (register w).2.table.scope.names = constants.names := by
  obtain ⟨w₁, -, -, hnames, hregister⟩ := register_of_empty hs hf
  rw [hregister]
  exact hnames

/-- A cleared table has the names of the constants. -/
theorem clear_names (w : Workspace) : (clear w).2.table.scope.names = constants.names := by
  unfold clear modifyTable
  rw [Action.bind_ok (Action.modify_apply _ _), Action.bind_ok (Action.modify_apply _ _)]
  exact register_names rfl rfl

end EvalM

/-! ## Steps of a host program -/

/-- The names that a step binds in the table that it works on, one after the other, if it succeeds. -/
def TableStep.binds (w : Workspace) : TableStep → List String
  | eval text => EvalM.textTargets text w
  | assign x _ | share x _ => [x]
  | define v => [v.name]
  | copy | clear | bindFunction _ _ => []

namespace Tables

variable {ts : Tables} {s : Settings} {i k : Nat} {t t' : Table} {change : TableStep} {x : String}
  {logs : Nat → List String}

/-- The names that a step has bound in the table that it works on: the first ones of those that it binds,
as long as they are in the table afterwards. -/
def bound (ts : Tables) (s : Settings) (i : Nat) (change : TableStep) : List String :=
  match ts.tables[change.target i]?, (ts.step s i change).2.tables[change.target i]? with
  | some t, some t' => (change.binds (ts.workspace t)).takeWhile (· ∈ t'.scope.names)
  | _, _ => []

/-- The logs of the tables after a step, where `logs` are those before it. A copy takes over the log of
its source, and a cleared table begins with the constants. -/
def logged (ts : Tables) (s : Settings) (i : Nat) (change : TableStep) (logs : Nat → List String)
    (k : Nat) : List String :=
  match change with
  | .copy => if k = ts.tables.length then logs i else logs k
  | .clear => if k = i then EvalM.constants.names else logs k
  | change => if k = change.target i then logs k ++ ts.bound s i change else logs k

/-- The logs of the tables after a list of steps. -/
def history (s : Settings) : List (Nat × TableStep) → Tables → (Nat → List String) → Nat → List String
  | [], _, logs => logs
  | (i, change) :: steps, ts, logs => history s steps (ts.step s i change).2 (ts.logged s i change logs)

/-- The log of a new table. -/
def newLog (withBuiltins : Bool) : List String := if withBuiltins then EvalM.constants.names else []

section On
variable {α : Type} {m : EvalM α} {f : α → TableAnswer}

theorem on_answer_table (ht : ts.tables[k]? = some t) :
    (ts.on k (do let a ← m; return f a : EvalM TableAnswer)).1.isOk = (m (ts.workspace t)).1.isOk ∧
    (ts.on k (do let a ← m; return f a : EvalM TableAnswer)).2.tables[k]? =
      some (m (ts.workspace t)).2.table := by
  have hlt : k < ts.tables.length := (List.getElem?_eq_some_iff.1 ht).1
  rw [on_eq ht, answer_apply]
  refine ⟨?_, List.getElem?_set_self hlt⟩
  cases (m (ts.workspace t)).1 <;> rfl

theorem on_answer_gains {names : List String} (ht : ts.tables[k]? = some t)
    (h : t.Gains names (m (ts.workspace t)).1.isOk (m (ts.workspace t)).2.table) :
    ∃ t', (ts.on k (do let a ← m; return f a : EvalM TableAnswer)).2.tables[k]? = some t' ∧
      t.Gains names (ts.on k (do let a ← m; return f a : EvalM TableAnswer)).1.isOk t' := by
  obtain ⟨hok, htable⟩ := on_answer_table (m := m) (f := f) ht
  exact ⟨_, htable, hok ▸ h⟩

end On

theorem step_share (hts : ts.Sound) {id : Nat} {v : Variable} (hl : ts.locate? i x = some (id, v)) :
    ts.step s i (.share x k) = ts.on k (do EvalM.bindTo x id; return .done) := by
  simp only [step, hl, name_of_locate? hts hl]

/-- A step that does not clear the table that it works on binds there the names that it says, or the
first ones of them if it fails. -/
theorem step_gains (hts : ts.Sound) (ht : ts.tables[change.target i]? = some t)
    (hclear : change ≠ .clear) : ∃ t', (ts.step s i change).2.tables[change.target i]? = some t' ∧
      t.Gains (change.binds (ts.workspace t)) (ts.step s i change).1.isOk t' := by
  have hw : (ts.workspace t).Sound := hts t (List.mem_of_getElem? ht)
  cases change with
  | eval text => exact on_answer_gains ht (EvalM.Enrolls.evalText s text _ hw).2
  | assign x a => exact on_answer_gains ht (EvalM.Enrolls.assign x a hw).2
  | define v => exact on_answer_gains ht (EvalM.define_gains v)
  | bindFunction x f => exact on_answer_gains ht (EvalM.bindFunction_gains x f)
  | clear => exact absurd rfl hclear
  | copy =>
    have hi : ts.tables[i]? = some t := ht
    have hlt : i < ts.tables.length := (List.getElem?_eq_some_iff.1 hi).1
    obtain ⟨random, source, hcopy⟩ := step_copy s hi
    rw [hcopy]
    refine ⟨{ t with random := random }, ?_, .of_scope rfl fun _ => rfl⟩
    rw [List.getElem?_append_left (by simpa [TableStep.target] using hlt)]
    exact List.getElem?_set_self hlt
  | share x other =>
    rcases hl : ts.locate? i x with - | ⟨id, v⟩
    · simp only [step, hl]
      exact ⟨t, ht, .of_scope rfl fun hok => by cases hok⟩
    · rw [step_share hts hl]
      exact on_answer_gains ht (EvalM.bindTo_gains x id)

theorem step_length (h : change ≠ .copy) :
    (ts.step s i change).2.tables.length = ts.tables.length := by
  cases change with
  | copy => exact absurd rfl h
  | share x other =>
    rcases hl : ts.locate? i x with - | ⟨id, v⟩ <;> simp only [step, hl]
    exact on_length ts other _
  | _ =>
    unfold step
    exact on_length ts i _

/-- What a step has bound are the first ones of the names that it binds, and all of them if it
succeeds. -/
theorem step_bound (hts : ts.Sound) (ht : ts.tables[change.target i]? = some t)
    (hclear : change ≠ .clear) {log : List String} (hlog : t.Records log) :
    ∃ t', (ts.step s i change).2.tables[change.target i]? = some t' ∧
      t.scope.names <+: t'.scope.names ∧ t'.Records (log ++ ts.bound s i change) ∧
      ts.bound s i change <+: change.binds (ts.workspace t) ∧
      ((ts.step s i change).1.isOk = true → ts.bound s i change = change.binds (ts.workspace t)) := by
  obtain ⟨t', ht', hgains⟩ := step_gains (s := s) hts ht hclear
  have hbound : ts.bound s i change =
      (change.binds (ts.workspace t)).takeWhile (· ∈ t'.scope.names) := by
    simp only [bound, ht, ht']
  obtain ⟨hrecords, hall⟩ := hgains.records hlog
  rw [hbound]
  exact ⟨t', ht', hgains.names_prefix hlog, hrecords, List.takeWhile_prefix _, hall⟩

theorem step_clear_names (ht : ts.tables[k]? = some t) :
    ∃ t', (ts.step s k .clear).2.tables[k]? = some t' ∧ t'.scope.names = EvalM.constants.names := by
  have hstep : ts.step s k .clear = ts.on k (do EvalM.clear; return TableAnswer.done) := by rw [step]
  rw [hstep]
  obtain ⟨-, htable⟩ := on_answer_table (m := EvalM.clear) (f := fun _ => .done) ht
  exact ⟨_, htable, EvalM.clear_names _⟩

theorem step_copy_records (h : ∀ k (t : Table), ts.tables[k]? = some t → t.Records (logs k))
    (s : Settings) (i : Nat) {k : Nat} {t' : Table}
    (ht' : (ts.step s i .copy).2.tables[k]? = some t') : t'.Records (ts.logged s i .copy logs k) := by
  rcases hi : ts.tables[i]? with - | t
  · have hstep : (ts.step s i .copy).2 = ts := by
      simp only [step, on, hi]
      rfl
    rw [hstep] at ht'
    have hlt : k < ts.tables.length := (List.getElem?_eq_some_iff.1 ht').1
    rw [logged, if_neg (by omega)]
    exact h k t' ht'
  · obtain ⟨random, source, hstep⟩ := step_copy s hi
    rw [hstep] at ht'
    by_cases hk : k = ts.tables.length
    -- The copy has the names of the table that it is of.
    · subst hk
      obtain rfl : { t with random := source } = t' := by simpa using ht'
      rw [logged, if_pos rfl]
      exact h i t hi
    · have hlt : k < ts.tables.length := by
        have hlt := (List.getElem?_eq_some_iff.1 ht').1
        simp only [List.length_append, List.length_set, List.length_singleton] at hlt
        omega
      rw [logged, if_neg hk]
      rw [List.getElem?_append_left (by simpa using hlt)] at ht'
      by_cases hik : i = k
      · subst hik
        rw [List.getElem?_set_self hlt] at ht'
        cases ht'
        exact h i t hi
      · rw [List.getElem?_set_ne hik] at ht'
        exact h k t' ht'

/-- If the names of all tables are recorded, so they are after a step. -/
theorem step_records (hts : ts.Sound) (h : ∀ k (t : Table), ts.tables[k]? = some t → t.Records (logs k))
    (s : Settings) (i : Nat) (change : TableStep) (k : Nat) (t' : Table)
    (ht' : (ts.step s i change).2.tables[k]? = some t') :
    t'.Records (ts.logged s i change logs k) := by
  by_cases hcopy : change = .copy
  · subst hcopy
    exact step_copy_records h s i ht'
  have hlt : k < ts.tables.length := by
    rw [← step_length (s := s) (i := i) hcopy]
    exact (List.getElem?_eq_some_iff.1 ht').1
  have ht := List.getElem?_eq_getElem hlt
  by_cases htarget : change.target i = k
  · subst htarget
    by_cases hclear : change = .clear
    · subst hclear
      obtain ⟨t, hcleared, hnames⟩ := step_clear_names (s := s) ht
      cases hcleared.symm.trans ht'
      rw [logged, if_pos (show TableStep.clear.target i = i from rfl), Table.Records, hnames]
      decide
    · obtain ⟨t, hstep, -, hrecords, -⟩ := step_bound (s := s) hts ht hclear (h _ _ ht)
      cases hstep.symm.trans ht'
      have hlogged : ts.logged s i change logs (change.target i) =
          logs (change.target i) ++ ts.bound s i change := by
        cases change with
        | copy => exact absurd rfl hcopy
        | clear => exact absurd rfl hclear
        | _ => exact if_pos rfl
      rwa [hlogged]
  · rw [step_ne htarget hlt] at ht'
    have hlogged : ts.logged s i change logs k = logs k := by
      cases change with
      | copy => exact absurd rfl hcopy
      | _ => exact if_neg (Ne.symm htarget)
    rw [hlogged]
    exact h k t' ht'

theorem run_records (hts : ts.Sound) (h : ∀ k (t : Table), ts.tables[k]? = some t → t.Records (logs k))
    (s : Settings) (steps : List (Nat × TableStep)) :
    ∀ k (t : Table), (ts.run s steps).tables[k]? = some t → t.Records (history s steps ts logs k) := by
  induction steps generalizing ts logs with
  | nil => exact h
  | cons step steps ih =>
    obtain ⟨i, change⟩ := step
    exact ih (step_sound s i change hts) (step_records hts h s i change)

theorem fresh_records (random : RandomSource) (withBuiltins : Bool) (journal : Journal) (k : Nat) (t : Table)
    (ht : (fresh random withBuiltins journal).tables[k]? = some t) : t.Records (newLog withBuiltins) := by
  obtain rfl : (Workspace.fresh random withBuiltins journal).table = t :=
    List.mem_singleton.1 (List.mem_of_getElem? ht) |>.symm
  cases withBuiltins with
  | false => rfl
  | true =>
    rw [Table.Records, (Workspace.fresh_standard random journal).2]
    decide

/-- A definition that succeeds adds a variable to the memory and binds its name in the table. -/
theorem step_define_eq (ht : ts.tables[k]? = some t) {v : Variable}
    (h : (ts.step s k (.define v)).1.isOk = true) : ts.step s k (.define v) =
      (.ok .done, ⟨ts.memory.push v, ts.journal,
        ts.tables.set k { t with scope := t.scope.bind v.name ts.memory.size }⟩) := by
  have hstep : ts.step s k (.define v) = ts.on k (do EvalM.define v; return .done) := rfl
  rw [hstep, on_eq ht, answer_apply] at h ⊢
  rcases EvalM.define_cases (ts.workspace t) v with ⟨_, hd⟩ | hd <;> rw [hd] at h ⊢
  · cases h
  · rfl

/-- When a name is bound anew in a table all variables stay as they are, and so do its other names. -/
theorem step_rebinds (hts : ts.Sound) (ht : ts.tables[k]? = some t) (h : ts.Rebinds s i change k x) :
    ts.memory.Extends (ts.step s i change).2.memory ∧
    ∃ id, (ts.step s i change).2.tables[k]? = some { t with scope := t.scope.bind x id } := by
  have hlt : k < ts.tables.length := (List.getElem?_eq_some_iff.1 ht).1
  obtain ⟨hdone, ⟨rfl, v, rfl, rfl⟩ | rfl⟩ := h
  · rw [step_define_eq ht (by rw [hdone]; rfl)]
    exact ⟨.push v, _, List.getElem?_set_self hlt⟩
  · rcases hl : ts.locate? i x with - | ⟨id, v⟩
    · simp only [step, hl] at hdone
      cases hdone
    · rw [step_share hts hl, on_eq ht, answer_apply] at hdone ⊢
      rcases EvalM.bindTo_cases (ts.workspace t) x id with ⟨_, _, -, -, hb⟩ | ⟨-, hb⟩ <;>
        rw [hb] at hdone ⊢
      · cases hdone
      · exact ⟨.refl, id, List.getElem?_set_self hlt⟩

theorem Rebinds.target (h : ts.Rebinds s i change k x) : change.target i = k := by
  obtain ⟨-, ⟨rfl, v, rfl, -⟩ | rfl⟩ := h <;> rfl

/-- Whatever steps have been taken on whatever tables, whether they succeeded or not: a name is bound at
most once in a table, and to a variable of this name; the names stand in the order of their first
bindings; and the variables of the user are listed in this order. No step but the clearing of the table
moves or removes a name, and one that binds a name anew to a constant takes the variable of this name
from the list and leaves the others. -/
theorem names_in_order_of_first_binding (random : RandomSource) (withBuiltins : Bool) (journal : Journal)
    (s : Settings) (steps : List (Nat × TableStep)) (ts : Tables)
    (hts : ts = (fresh random withBuiltins journal).run s steps) (k : Nat) (t : Table)
    (ht : ts.tables[k]? = some t) :
    t.scope.names.Nodup ∧
    (∀ x id, (x, id) ∈ t.scope → ∃ v, ts.memory[id]? = some v ∧ v.name = x) ∧
    t.scope.names = (history s steps (fresh random withBuiltins journal)
      (fun _ => newLog withBuiltins) k).eraseDups ∧
    t.userVariables ts.memory = t.scope.names.filterMap (t.user? ts.memory) ∧
    ∀ i change, (i, change) ≠ (k, .clear) → ∃ t', (ts.step s i change).2.tables[k]? = some t' ∧
      t.scope.names <+: t'.scope.names ∧
      (change.target i = k → ts.bound s i change <+: change.binds (ts.workspace t) ∧
        ((ts.step s i change).1.isOk = true → ts.bound s i change = change.binds (ts.workspace t))) ∧
      ∀ x id v, ts.Rebinds s i change k x →
        (ts.step s i change).2.locate? k x = some (id, v) → v.constant = true →
        t'.userVariables (ts.step s i change).2.memory =
          (t.userVariables ts.memory).filter (·.name ≠ x) := by
  have hfresh := fresh_sound random withBuiltins journal
  have hrecords : t.Records (history s steps (fresh random withBuiltins journal)
      (fun _ => newLog withBuiltins) k) :=
    run_records hfresh (fresh_records random withBuiltins journal) s steps k t (hts ▸ ht)
  have hsound : ts.Sound := hts ▸ run_sound s steps hfresh
  have hw : (ts.workspace t).Sound := hsound t (List.mem_of_getElem? ht)
  refine ⟨hrecords.nodup, fun x id hx => hw x id (Bindings.get?_of_mem hrecords.nodup hx), hrecords,
    Table.userVariables_eq hrecords.nodup _, fun i change hclear => ?_⟩
  by_cases htarget : change.target i = k
  · subst htarget
    have hne : change ≠ .clear := by
      rintro rfl
      exact hclear rfl
    obtain ⟨t', ht', hnames, -, hbound⟩ := step_bound (s := s) hsound ht hne hrecords
    refine ⟨t', ht', hnames, fun _ => hbound, fun x id v hrebinds hlocate hconst => ?_⟩
    obtain ⟨hmem, j, hj⟩ := step_rebinds hsound ht hrebinds
    cases hj.symm.trans ht'
    obtain ⟨u, hu, hlocate⟩ := Option.bind_eq_some_iff.1 hlocate
    cases hj.symm.trans hu
    obtain ⟨hid, hv⟩ := Table.locate?_eq_some.1 hlocate
    cases (Bindings.get?_bind_self _ _ _).symm.trans hid
    exact Table.userVariables_bind hw hrecords hv hconst hmem
  · have hlt : k < ts.tables.length := (List.getElem?_eq_some_iff.1 ht).1
    exact ⟨t, (step_ne htarget hlt).trans ht, List.prefix_refl _, fun h => absurd h htarget,
      fun _ _ _ hrebinds => absurd hrebinds.target htarget⟩

/-- The copy of a table on which `y = (x = 1) + 2` was evaluated has `x` before `y`. When `x` is bound to a
constant in the copy, only that name leaves the list of its variables. -/
theorem copy_lists_names_as_first_bound : ∃ (ts : Tables) (t t' : Table),
    ts = (fresh default true (.fresh false)).run .standard [(0, .eval "y = (x = 1) + 2"), (0, .copy)] ∧
    ts.tables[1]? = some t ∧ t.scope.names = ["i", "pi", "e", "None", "x", "y", "Ans"] ∧
    (ts.step .standard 1 (.define ⟨"x", .none, true⟩)).2.tables[1]? = some t' ∧
    t'.userVariables (ts.step .standard 1 (.define ⟨"x", .none, true⟩)).2.memory =
      (t.userVariables ts.memory).filter (·.name ≠ "x") := by
  obtain ⟨ts, hts⟩ : ∃ ts, ts = (fresh default true (.fresh false)).run .standard
    [(0, .eval "y = (x = 1) + 2"), (0, .copy)] := ⟨_, rfl⟩
  have htables : ts.tables[1]?.isSome = true := by
    rw [hts]
    decide +kernel
  obtain ⟨t, ht⟩ := Option.isSome_iff_exists.1 htables
  have hlt : 1 < ts.tables.length := (List.getElem?_eq_some_iff.1 ht).1
  obtain ⟨-, -, hnames, -, hstep⟩ :=
    names_in_order_of_first_binding default true (.fresh false) .standard _ ts hts 1 t ht
  have hlog : history .standard [(0, .eval "y = (x = 1) + 2"), (0, .copy)] (fresh default true (.fresh false))
      (fun _ => newLog true) 1 = ["i", "pi", "e", "None", "x", "y", "Ans"] := by decide +kernel
  rw [hlog] at hnames
  obtain ⟨t', ht', -, -, hlist⟩ := hstep 1 (.define ⟨"x", .none, true⟩) (by simp)
  refine ⟨ts, t, t', hts, ht, hnames.trans (by decide), ht', ?_⟩
  have hdefine := step_define_eq (s := .standard) ht (v := ⟨"x", .none, true⟩) (by
    rw [hts]
    decide +kernel)
  refine hlist "x" ts.memory.size ⟨"x", .none, true⟩ ⟨by rw [hdefine], .inl ⟨rfl, _, rfl, rfl⟩⟩ ?_ rfl
  rw [hdefine]
  refine Option.bind_eq_some_iff.2 ⟨_, List.getElem?_set_self hlt, Table.locate?_eq_some.2 ?_⟩
  exact ⟨Bindings.get?_bind_self _ _ _, by simp⟩

end Tables
end ComplexCalc
