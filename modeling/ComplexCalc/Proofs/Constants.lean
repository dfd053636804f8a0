import ComplexCalc.Proofs.Refusals
import ComplexCalc.Proofs.Sessions
/-!
# Constants and builtin functions last

A table that has a constant or a builtin function has it until it is cleared, whatever is done to this
table and to others, and what would change it is refused. Clearing registers the builtins anew, so the
table of a session has all of them with their first values, whatever its lines are.
-/
namespace ComplexCalc

/-! ## Registered builtins -/

namespace EvalM

variable {w w' : Workspace}

theorem define_locate? {v : Variable} (h : define v w = (.ok (), w')) :
    w'.table.locate? w'.memory v.name = some (w.memory.size, v) := by
  rcases define_cases w v with ⟨_, hd⟩ | hd <;> rw [hd] at h <;> cases h
  exact Table.locate?_eq_some.2 ⟨Bindings.get?_bind_self _ _ _, by simp⟩

/-- Constants that are defined one after the other are there at the end. -/
theorem forM_define_locate? {cs : Bindings Value}
    (h : (cs.forM fun (x, a) => define ⟨x, a, true⟩) w = (.ok (), w')) {x : String} {a : Value}
    (hx : (x, a) ∈ cs) : ∃ id, w'.table.locate? w'.memory x = some (id, ⟨x, a, true⟩) := by
  induction cs generalizing w with
  | nil => cases hx
  | cons c cs ih =>
    obtain ⟨⟨⟩, w₁, hd, hrest⟩ := Action.bind_eq_ok h
    rcases List.mem_cons.1 hx with rfl | hx
    -- The definitions that follow leave a constant as it is.
    · have hguarded : Guarded (fun _ => True) w₁
          ((cs.forM fun (x, a) => define ⟨x, a, true⟩ : EvalM Unit) w₁).2 :=
        .forM (fun c w => (Guarded.define _ w).mono fun _ _ => trivial) w₁
      rw [hrest] at hguarded
      exact ⟨_, hguarded.locate? (define_locate? hd) rfl⟩
    · exact ih hrest hx

end EvalM

/-- The table in use has the builtin functions, and the constants with their values. -/
structure Workspace.Pristine (w : Workspace) : Prop where
  standard : w.Standard
  constants : ∀ x a, (x, a) ∈ EvalM.constants →
    ∃ id, w.table.locate? w.memory x = some (id, ⟨x, a, true⟩)

namespace Workspace.Pristine

variable {w : Workspace}

theorem register (hs : w.table.scope = []) (hf : w.table.functions = []) :
    (EvalM.register w).2.Pristine := by
  obtain ⟨w₁, hdefined, hsound, -, hregister⟩ := EvalM.register_of_empty hs hf
  rw [hregister]
  refine ⟨⟨hsound.inTable rfl, rfl⟩, fun x a hx => ?_⟩
  obtain ⟨id, hid⟩ := EvalM.forM_define_locate? hdefined hx
  exact ⟨id, hid⟩

theorem fresh (random : RandomSource) (journal : Journal) : (fresh random true journal).Pristine :=
  register rfl rfl

theorem clear (w : Workspace) : (EvalM.clear w).2.Pristine := by
  unfold EvalM.clear EvalM.modifyTable
  rw [Action.bind_ok (Action.modify_apply _ _), Action.bind_ok (Action.modify_apply _ _)]
  exact register rfl rfl

theorem evalText (hw : w.Pristine) (s : Settings) (text : String) :
    (EvalM.evalText s text w).2.Pristine := by
  have hkeeps := evalText_keeps_all s text w
  refine ⟨hkeeps.lasting Standard.lasting rfl hw.standard, fun x a hx => ?_⟩
  obtain ⟨id, hid⟩ := hw.constants x a hx
  exact ⟨id, (Guarded.evalText s text hw.standard.sound).locate? hid rfl⟩

theorem invariant (s : Settings) : Session.Invariant s Pristine where
  journal _ hw := ⟨⟨hw.standard.sound, hw.standard.functions⟩, hw.constants⟩
  evalText text hw := hw.evalText s text
  clear _ := clear _

/-- A session on a pristine table ends with one, whatever its lines are. -/
theorem run (hw : w.Pristine) (s : Settings) (m : Mode) (input : List String) :
    (Session.run s m input (.start w)).2.work.Pristine :=
  Session.run_keeps (invariant s) input (.start w) hw

end Workspace.Pristine

/-! ## Steps of a host program -/

namespace Tables

variable {ts : Tables} {s : Settings} {i k id : Nat} {x f : String} {v : Variable} {c : Callable}
  {change : TableStep}

/-- The function that a name is bound to in a table. -/
def function? (ts : Tables) (k : Nat) (f : String) : Option Callable :=
  ts.tables[k]?.bind fun t => t.functions.get? f

/-- The constants of the table at an index and its builtin functions are those that it had before. -/
structure Protects (ts ts' : Tables) (k : Nat) : Prop where
  constants : ∀ x id v, ts.locate? k x = some (id, v) → v.constant = true →
    ts'.locate? k x = some (id, v)
  functions : ∀ f c, ts.function? k f = some c → c.isBuiltin = true → ts'.function? k f = some c

/-- The step comes to a change of what the name is bound to in the table, or of the value that it
has. -/
inductive Attempts (ts : Tables) (s : Settings) (k : Nat) (x : String) : Nat → TableStep → Prop
  | eval {t : Table} {text : String} : ts.tables[k]? = some t →
      ComplexCalc.Attempts s text (ts.workspace t) x → Attempts ts s k x k (.eval text)
  | assign (a : Value) : Attempts ts s k x k (.assign x a)
  | define {v : Variable} : v.name = x → Attempts ts s k x k (.define v)
  | share {i id : Nat} {v : Variable} : ts.locate? i x = some (id, v) →
      Attempts ts s k x i (.share x k)

theorem Protects.refl (ts : Tables) (k : Nat) : ts.Protects ts k := ⟨fun _ _ _ h _ => h, fun _ _ h _ => h⟩

theorem Protects.trans {ts' ts'' : Tables} (h : ts.Protects ts' k) (h' : ts'.Protects ts'' k) :
    ts.Protects ts'' k where
  constants x id v hv hk := h'.constants x id v (h.constants x id v hv hk) hk
  functions f c hc hb := h'.functions f c (h.functions f c hc hb) hb

theorem step_protects (hts : ts.Sound) (hclear : (i, change) ≠ (k, .clear)) :
    ts.Protects (ts.step s i change).2 k := by
  constructor
  · intro x id v hv hk
    obtain ⟨t, ht, hv⟩ := Option.bind_eq_some_iff.1 hv
    obtain ⟨t', ht', hguarded⟩ := step_guarded (s := s) hts ht hclear
    exact Option.bind_eq_some_iff.2 ⟨t', ht', hguarded.locate? hv hk⟩
  · intro f c hc hb
    obtain ⟨t, ht, hc⟩ := Option.bind_eq_some_iff.1 hc
    obtain ⟨t', ht', hguarded⟩ := step_guarded (s := s) hts ht hclear
    exact Option.bind_eq_some_iff.2 ⟨t', ht', hguarded.functions f c hc hb⟩

theorem run_protects (hts : ts.Sound) {steps : List (Nat × TableStep)}
    (hsteps : (k, .clear) ∉ steps) : ts.Protects (ts.run s steps) k := by
  induction steps generalizing ts with
  | nil => exact .refl ts k
  | cons step steps ih =>
    obtain ⟨i, change⟩ := step
    rw [List.mem_cons, not_or] at hsteps
    exact (step_protects hts (Ne.symm hsteps.1)).trans (ih (step_sound s i change hts) hsteps.2)

theorem on_answer_error {α : Type} {m : EvalM α} {g : α → TableAnswer} {t : Table} {φ : Failure}
    (ht : ts.tables[k]? = some t) (h : FailsWith m (ts.workspace t) φ) :
    (ts.on k (do let a ← m; return g a : EvalM TableAnswer)).1 = .error φ := by
  have h : (m (ts.workspace t)).1 = .error φ := h
  rw [on_eq ht, answer_apply, h]
  rfl

/-- What would change a constant of a table is refused. -/
theorem step_refused (hts : ts.Sound) (hx : ts.locate? k x = some (id, v)) (hv : v.constant = true)
    (h : ts.Attempts s k x i change) :
    (ts.step s i change).1 = .error (.noValue (.constantVariable x)) := by
  obtain ⟨t, ht, hx⟩ := Option.bind_eq_some_iff.1 hx
  have hfixes : (ts.workspace t).Fixes x id v := ⟨hts t (List.mem_of_getElem? ht), hx, hv⟩
  cases h with
  | eval hu hattempt =>
    cases ht.symm.trans hu
    exact on_answer_error ht (evalText_refused hattempt hfixes)
  | assign a => exact on_answer_error ht (congrArg Prod.fst (hfixes.assign a))
  | define hn => exact on_answer_error ht (hfixes.define hn)
  | @share _ j u hl =>
    have hstep : ts.step s i (.share x k) = ts.on k (do EvalM.bindTo u.name j; return .done) := by
      simp only [step, hl]
    rw [hstep, name_of_locate? hts hl]
    exact on_answer_error ht (congrArg Prod.fst (Workspace.Fixes.bindTo hx hv j))

/-- What would replace a builtin function of a table is refused. -/
theorem step_bindFunction_refused (hf : ts.function? k f = some c) (hc : c.isBuiltin = true)
    (g : Callable) :
    (ts.step s k (.bindFunction f g)).1 = .error (.noValue (.builtinFunction f)) := by
  obtain ⟨t, ht, hf⟩ := Option.bind_eq_some_iff.1 hf
  refine on_answer_error ht ?_
  rcases EvalM.bindFunction_cases (ts.workspace t) f g with ⟨_, -, -, h⟩ | ⟨hold, -⟩
  · exact congrArg Prod.fst h
  · rw [hold c hf] at hc
    cases hc

/-- However many tables there are: a table keeps its constants and its builtin functions through all
steps but its own clearing, whether they succeed or not; a step that comes to a change of one of them
is refused with a state error and leaves it as it is; and a session with a new table ends with all
constants and builtin functions as they were at its beginning. -/
theorem constants_and_builtins_last (hts : ts.Sound) (s : Settings) :
    (∀ k steps, (k, .clear) ∉ steps → ts.Protects (ts.run s steps) k) ∧
    (∀ k x id v, ts.locate? k x = some (id, v) → v.constant = true →
      ∀ i change, ts.Attempts s k x i change →
        (ts.step s i change).1 = .error (.noValue (.constantVariable x)) ∧
        (ts.step s i change).2.locate? k x = some (id, v)) ∧
    (∀ k f c, ts.function? k f = some c → c.isBuiltin = true → ∀ g,
      (ts.step s k (.bindFunction f g)).1 = .error (.noValue (.builtinFunction f)) ∧
      (ts.step s k (.bindFunction f g)).2.function? k f = some c) ∧
    (∀ random journal m input,
      (Session.run s m input (.start (.fresh random true journal))).2.work.Pristine) := by
  refine ⟨fun k steps hsteps => run_protects hts hsteps, ?_, ?_,
    fun random journal => (Workspace.Pristine.fresh random journal).run s⟩
  · intro k x id v hx hv i change h
    refine ⟨step_refused hts hx hv h, (step_protects hts ?_).constants x id v hx hv⟩
    rintro ⟨rfl, rfl⟩
    cases h
  · intro k f c hf hc g
    exact ⟨step_bindFunction_refused hf hc g, (step_protects hts (by simp)).functions f c hf hc⟩

/-- Neither a line nor what is done to a copy takes a constant from a new table, which refuses to have it
assigned or bound to the variable of another table. -/
theorem new_table_protects_constants :
    (Tables.fresh default true (.fresh false)).Sound ∧
    (Tables.fresh default true (.fresh false)).Protects
      ((Tables.fresh default true (.fresh false)).run .standard
        [(0, .eval "e = sum(0, 3, i, x)"), (0, .copy), (1, .clear), (1, .share "pi" 0)]) 0 ∧
    ((Tables.fresh default true (.fresh false)).step .standard 0 (.assign "i" .none)).1 =
      .error (.noValue (.constantVariable "i")) ∧
    ((Tables.fresh default true (.fresh false)).step .standard 0 (.bindFunction "sum" .polar)).1 =
      .error (.noValue (.builtinFunction "sum")) := by
  have hsound := fresh_sound default true (.fresh false)
  obtain ⟨hprotects, hconstants, hfunctions, -⟩ := constants_and_builtins_last hsound .standard
  have hpristine : Workspace.Pristine (.fresh default true (.fresh false)) := .fresh default _
  obtain ⟨id, hi⟩ := hpristine.constants "i" (.number .i) (by simp [EvalM.constants])
  have hsum : (Tables.fresh default true (.fresh false)).function? 0 "sum" = some .sum := by
    change (Workspace.fresh default true (.fresh false)).table.functions.get? "sum" = some .sum
    rw [hpristine.standard.functions]
    rfl
  exact ⟨hsound, hprotects 0 _ (by simp), (hconstants 0 "i" id _ hi rfl 0 _ (.assign .none)).1,
    (hfunctions 0 "sum" .sum hsum rfl .polar).1⟩

end Tables

end ComplexCalc
