import ComplexCalc.Proofs.Frame
/-!
# Tables with the builtin functions

A table is standard if its names have variables and its functions are the builtin ones. A new table
is, and an evaluation leaves a standard table standard, so every line of a session begins and ends
with one.
-/
namespace ComplexCalc

/-- The table in use has the builtin functions, and a variable for every name. -/
structure Workspace.Standard (w : Workspace) : Prop where
  sound : w.Sound
  functions : w.table.functions = EvalM.builtins

/-! ## New tables -/

namespace Bindings

variable {α : Type} {bs : Bindings α} {x : String}

@[simp] theorem names_cons (a : α) : names ((x, a) :: bs) = x :: bs.names := rfl

@[simp] theorem names_append (cs : Bindings α) : names (bs ++ cs) = bs.names ++ cs.names :=
  List.map_append

theorem get?_eq_none : bs.get? x = none ↔ x ∉ bs.names := by
  induction bs with
  | nil => simp [get?, names]
  | cons b rest ih =>
    obtain ⟨n, a⟩ := b
    simp only [get?, names] at ih
    by_cases hx : x = n
    · simp [get?, names, hx]
    · have hb : (x == n) = false := by simpa using hx
      simp [get?, names, List.lookup_cons, hb, ih, hx]

theorem mem_of_get? {a : α} (h : bs.get? x = some a) : (x, a) ∈ bs := by
  obtain ⟨l, r, rfl, -⟩ := List.lookup_eq_some_iff.1 h
  simp

theorem bind_of_not_mem (h : x ∉ bs.names) (a : α) : bs.bind x a = bs ++ [(x, a)] := by
  induction bs with
  | nil => rfl
  | cons b rest ih =>
    obtain ⟨n, b⟩ := b
    simp only [names, List.map_cons, List.mem_cons, not_or] at h
    rw [bind, if_neg (Ne.symm h.1), ih h.2]
    rfl

end Bindings

namespace EvalM

variable {w : Workspace}

/-- The definition of a new name succeeds, and the name comes last. -/
theorem define_of_not_mem {v : Variable} (h : v.name ∉ w.table.scope.names) : ∃ w',
    define v w = (.ok (), w') ∧ w'.table.functions = w.table.functions ∧
      w'.table.scope.names = w.table.scope.names ++ [v.name] := by
  have hx := Bindings.get?_eq_none.2 h
  refine ⟨{ w with
    memory := w.memory.push v,
    table := { w.table with scope := w.table.scope.bind v.name w.memory.size } }, ?_, rfl, ?_⟩
  · simp [define, bindTo, Action.bind_apply, allocate, Table.locate?, hx, modifyTable]
  · rw [Bindings.names_bind, if_neg h]

/-- Distinct new names are defined one after the other, and the table has no other name then. -/
theorem define_all (cs : Bindings Value) (hcs : cs.names.Nodup)
    (hnew : ∀ x ∈ cs.names, x ∉ w.table.scope.names) : ∃ w',
      (cs.forM fun (x, a) => define ⟨x, a, true⟩) w = (.ok (), w') ∧ (w.Sound → w'.Sound) ∧
      w'.table.functions = w.table.functions ∧
      w'.table.scope.names = w.table.scope.names ++ cs.names := by
  induction cs generalizing w with
  | nil => exact ⟨w, rfl, id, rfl, by simp [Bindings.names]⟩
  | cons c cs ih =>
    obtain ⟨x, a⟩ := c
    simp only [Bindings.names_cons, List.nodup_cons, List.mem_cons, forall_eq_or_imp] at hcs hnew
    obtain ⟨w₁, hd, hfun₁, hnames₁⟩ := define_of_not_mem (v := ⟨x, a, true⟩) hnew.1
    have hrest : ∀ y ∈ Bindings.names cs, y ∉ w₁.table.scope.names := by
      intro y hy
      rw [hnames₁, List.mem_append, List.mem_singleton, not_or]
      refine ⟨hnew.2 y hy, fun h => hcs.1 ?_⟩
      have hyx : y = x := h
      rwa [← hyx]
    obtain ⟨w', hall, hsound, hfun, hnames⟩ := ih hcs.2 hrest
    refine ⟨w', (Action.bind_ok hd).trans hall, fun hw => hsound (hw.define hd),
      hfun.trans hfun₁, ?_⟩
    rw [hnames, hnames₁]
    simp

/-- What the builtin functions are. -/
theorem builtins_cases {f : String} {c : Callable} (h : builtins.get? f = some c) :
    (∃ g, f = Elementary.name g ∧ c = .elementary g) ∨ (f = "polar" ∧ c = .polar) ∨
      (f = "random" ∧ c = .random) ∨ (f = "rand_int" ∧ c = .randomInteger) ∨
      (f = "sum" ∧ c = .sum) := by
  have hmem := Bindings.mem_of_get? h
  simp only [builtins, List.mem_append, List.mem_map, List.mem_cons, Prod.mk.injEq,
    List.not_mem_nil, or_false] at hmem
  refine hmem.imp_left ?_
  rintro ⟨g, -, rfl, rfl⟩
  exact ⟨g, rfl, rfl⟩

/-- The only function of the name `sum` is the sum. -/
theorem builtins_sum {f : String} {c : Callable} (h : builtins.get? f = some c) :
    f = "sum" ↔ c = .sum := by
  have hname : ∀ g : Elementary, g.name ≠ "sum" := by
    intro g
    cases g <;> decide
  rcases builtins_cases h with ⟨g, rfl, rfl⟩ | ⟨rfl, rfl⟩ | ⟨rfl, rfl⟩ | ⟨rfl, rfl⟩ | ⟨rfl, rfl⟩
  · simp [hname]
  all_goals simp

/-- Distinct new names are bound to functions in the order given. -/
theorem bindFunction_all (fs : Bindings Callable) (hfs : fs.names.Nodup)
    (hnew : ∀ x ∈ fs.names, x ∉ w.table.functions.names) :
    (fs.forM fun (x, f) => bindFunction x f) w =
      (.ok (), { w with table := { w.table with functions := w.table.functions ++ fs } }) := by
  induction fs generalizing w with
  | nil => simp
  | cons c fs ih =>
    obtain ⟨x, f⟩ := c
    simp only [Bindings.names_cons, List.nodup_cons, List.mem_cons, forall_eq_or_imp] at hfs hnew
    have hx := Bindings.get?_eq_none.2 hnew.1
    have hbind : bindFunction x f w = (.ok (), { w with
        table := { w.table with functions := w.table.functions ++ [(x, f)] } }) := by
      rw [← Bindings.bind_of_not_mem hnew.1 f]
      simp [bindFunction, Action.bind_apply, hx, modifyTable]
    refine (Action.bind_ok hbind).trans ((ih hfs.2 fun y hy => ?_).trans (by simp))
    rw [Bindings.names_append, List.mem_append, not_or]
    refine ⟨hnew.2 y hy, fun h => hfs.1 ?_⟩
    have hyx : y = x := List.mem_singleton.1 h
    rwa [← hyx]

/-- On a table that binds nothing the builtins are registered, the constants first. -/
theorem register_of_empty (hs : w.table.scope = []) (hf : w.table.functions = []) : ∃ w₁,
    (constants.forM fun (x, a) => define ⟨x, a, true⟩) w = (.ok (), w₁) ∧ w₁.Sound ∧
      w₁.table.scope.names = constants.names ∧
      register w = (.ok (), { w₁ with table := { w₁.table with functions := builtins } }) := by
  have hempty : w.Sound := fun x id h => by rw [hs] at h; cases h
  obtain ⟨w₁, hw, hsound, hfun, hnames⟩ := define_all (w := w) constants (by decide +kernel)
    fun _ _ h => by rw [hs] at h; cases h
  rw [hs] at hnames
  rw [hf] at hfun
  refine ⟨w₁, hw, hsound hempty, hnames, ?_⟩
  unfold register
  rw [Action.bind_ok hw, bindFunction_all _ (by decide +kernel) (by simp [hfun, Bindings.names]), hfun]
  rfl

end EvalM

/-- A new table has the builtins, and no names but those of the constants. -/
theorem Workspace.fresh_standard (random : RandomSource) (journal : Journal) :
    (fresh random true journal).Standard ∧
      (fresh random true journal).table.scope.names = EvalM.constants.names := by
  obtain ⟨w, -, hsound, hnames, hregister⟩ :=
    EvalM.register_of_empty (w := ⟨#[], .empty random, journal⟩) rfl rfl
  have hfresh : fresh random true journal = _ := congrArg Prod.snd hregister
  rw [hfresh]
  exact ⟨⟨fun x id h => hsound x id h, rfl⟩, hnames⟩

/-! ## Evaluations -/

/-- A property of the table in use that lasts while expressions are evaluated, also in the scopes of
sums. -/
structure Workspace.Lasting (P : Workspace → Prop) : Prop where
  sound : ∀ {w}, P w → w.Sound
  frame : ∀ {w w'}, P w → Frame (fun _ => True) (fun _ => True) w w' → P w'
  inTable : ∀ {w t}, P w → t.scope = w.table.scope → t.functions = w.table.functions →
    P { w with table := t }
  define : ∀ {w w' v}, P w → EvalM.define v w = (.ok (), w') → P w'

theorem Workspace.Standard.define {w w' : Workspace} {v : Variable} (hw : w.Standard)
    (h : EvalM.define v w = (.ok (), w')) : w'.Standard := by
  refine ⟨hw.sound.define h, ?_⟩
  rcases EvalM.define_cases w v with ⟨_, hd⟩ | hd <;> rw [hd] at h <;> cases h
  exact hw.functions

theorem Workspace.Standard.lasting : Workspace.Lasting Workspace.Standard where
  sound h := h.sound
  frame h hframe := ⟨hframe.sound h.sound, hframe.functions.trans h.functions⟩
  inTable h hs hf := ⟨h.sound.inTable hs, hf.trans h.functions⟩
  define h := h.define

section Evaluations
variable {s : Settings} {e e' : Expr} {w w' : Workspace} {loops : List String} {P : Workspace → Prop}

theorem Keeps.lasting {α : Type} {m : EvalM α} {r : Except Failure α}
    (h : Keeps (fun _ => True) (fun _ => True) m w) (hP : Workspace.Lasting P) (hm : m w = (r, w'))
    (hw : P w) : P w' := hP.frame hw (h.frame hm (hP.sound hw))

/-- An evaluation stays within the widest frame. -/
theorem eval_keeps_all (e : Expr) (w : Workspace) :
    Keeps (fun _ => True) (fun _ => True) (e.eval s) w :=
  (eval_keeps e w).mono (fun _ _ => trivial) fun _ _ => trivial

theorem argument_keeps_all {es : List Expr} {k : Nat} {a : Argument}
    (h : (es.map (Expr.argument s))[k]? = some a) (w : Workspace) :
    Keeps (fun _ => True) (fun _ => True) a.value w := by
  obtain ⟨e, -, rfl⟩ := Expr.of_getElem?_arguments h
  exact eval_keeps_all e w

theorem integerArgument_keeps_all (es : List Expr) (k : Nat) (w : Workspace) :
    Keeps (fun _ => True) (fun _ => True)
      (Rule.integerArgument (es.map (Expr.argument s)) k) w :=
  Keeps.composes.integerArgument fun _ ha => argument_keeps_all ha w

theorem numberArguments_keeps_all (es : List Expr) (w : Workspace) :
    Keeps (fun _ => True) (fun _ => True) (Rule.numberArguments (es.map (Expr.argument s))) w :=
  Keeps.composes.numberArguments fun _ _ _ w' ha _ => argument_keeps_all ha w'

theorem Workspace.Lasting.copy (hP : Workspace.Lasting P) {scope : Table}
    (h : EvalM.copy w = (.ok scope, w')) (hw : P w) : P { w' with table := scope } := by
  obtain ⟨random, source, hc⟩ := EvalM.copy_apply w
  rw [hc] at h
  cases h
  exact hP.inTable (w := w) hw rfl rfl

theorem Workspace.Lasting.enter (hP : Workspace.Lasting P) (hw : P w) : P (e.enter w) :=
  hP.frame hw (.of_eq (by simp) (by simp) (by simp))

theorem Iterates.lasting {x : String} {count : Nat} {i : Int}
    (h : Iterates x (e.eval s) count i w w') (hP : Workspace.Lasting P) (hw : P w) : P w' := by
  have hassign : ∀ (i : Int) (w : Workspace), Keeps (fun _ => True) (fun _ => True)
      (EvalM.assign x (.number (.ofInt i))) w := fun _ _ => .assign fun _ _ => ⟨trivial, trivial⟩
  induction h with
  | here ha => exact (hassign _ _).lasting hP ha hw
  | later ha hz _ ih =>
    exact ih ((Keeps.composes.expectNumber (eval_keeps_all e _)).lasting hP hz
      ((hassign _ _).lasting hP ha hw))

/-- What lasts and holds where a rule begins holds where it evaluates a part. -/
theorem Starts.lasting (h : Starts s e w loops e' w') (hP : Workspace.Lasting P) (hw : P w) :
    P w' := by
  cases h with
  | assigned | operand | left | firstBound => exact hw
  | right _ hz => exact (Keeps.composes.expectNumber (eval_keeps_all _ w)).lasting hP hz hw
  | divisor hn => exact (Keeps.composes.expectInteger (eval_keeps_all _ w)).lasting hP hn hw
  | argument _ _ _ hzs =>
    rw [← List.map_take] at hzs
    exact (numberArguments_keeps_all _ w).lasting hP hzs hw
  | secondBound _ _ _ hlow => exact (integerArgument_keeps_all _ 0 w).lasting hP hlow hw
  | body _ hlow hhigh _ hcopy hd hit =>
    have hw₁ := (integerArgument_keeps_all _ 0 w).lasting hP hlow hw
    have hw₂ := (integerArgument_keeps_all _ 1 _).lasting hP hhigh hw₁
    exact hit.lasting hP (hP.define (hP.copy hcopy hw₂) hd)

theorem Visits.lasting (h : Visits s e w loops e' w') (hP : Workspace.Lasting P) (hw : P w) :
    P w' := by
  induction h with
  | here => exact hw
  | part hstart _ ih => exact ih (hstart.lasting hP (hP.enter hw))

/-- The parts of an expression are evaluated on standard tables if the whole is. -/
theorem Visits.standard (h : Visits s e w loops e' w') (hw : w.Standard) : w'.Standard :=
  h.lasting Workspace.Standard.lasting hw

end Evaluations

/-! ## Lines -/

/-- Parsing writes to the journal and touches nothing else. -/
theorem EvalM.parse_touches (text : String) (w : Workspace) :
    (parse text w).2.memory = w.memory ∧ (parse text w).2.table = w.table := by
  have hprefix : (parsePrefix text w).2.memory = w.memory ∧
      (parsePrefix text w).2.table = w.table := by
    unfold parsePrefix
    split <;> exact ⟨rfl, rfl⟩
  unfold parse
  rcases hp : parsePrefix text w with ⟨f | ⟨e, rest⟩, w₁⟩ <;> rw [hp] at hprefix
  · rw [Action.bind_error hp]
    exact hprefix
  · rw [Action.bind_ok hp]
    dsimp only
    split <;> exact hprefix

theorem EvalM.parse_keeps {fresh changed : String → Prop} (text : String) (w : Workspace) :
    Keeps fresh changed (parse text) w := by
  obtain ⟨hm, ht⟩ := parse_touches text w
  exact fun _ => .of_eq hm (by rw [ht]) (by rw [ht])

theorem EvalM.parse_standard {text : String} {w w' : Workspace} {r : Except Failure Expr}
    (h : parse text w = (r, w')) (hw : w.Standard) : w'.Standard := by
  have hk : Keeps (fun _ => True) (fun _ => True) (parse text) w := parse_keeps text w
  exact hk.lasting Workspace.Standard.lasting h hw

theorem evalText_keeps_all (s : Settings) (text : String) (w : Workspace) :
    Keeps (fun _ => True) (fun _ => True) (EvalM.evalText s text) w := by
  refine (EvalM.parse_keeps text w).bind fun e w₁ _ => ?_
  refine (eval_keeps_all e w₁).bind fun v w₂ _ => ?_
  exact (Keeps.assign fun _ _ => ⟨trivial, trivial⟩).bind fun _ _ _ => .pure _

/-- The workspaces that lines lead to from a new table. -/
inductive Reached (s : Settings) : Workspace → Prop
  | fresh (random : RandomSource) (journal : Journal) : Reached s (.fresh random true journal)
  | line {w : Workspace} (text : String) : Reached s w → Reached s (EvalM.evalText s text w).2

theorem Reached.standard {s : Settings} {w : Workspace} (h : Reached s w) : w.Standard := by
  induction h with
  | fresh random journal => exact (Workspace.fresh_standard random journal).1
  | line text _ ih => exact (evalText_keeps_all s text _).lasting Workspace.Standard.lasting rfl ih

end ComplexCalc
