import Mathlib.Data.List.Induction
import ComplexCalc.Proofs.Standard
/-!
# The order in which an evaluation binds names

An evaluation assigns to names in the order in which they stand in the expression, the value of an
assignment before its name. If it fails it has assigned to the first ones of them. The body of a sum does
not count: it is evaluated in a scope of its own. So it can be told from the expression alone in which
order the new names of the table stand after it.
-/
namespace ComplexCalc

/-! ## First occurrences -/

/-- A further element comes last in the list of first occurrences, unless it is there already. -/
theorem eraseDups_concat (xs : List String) (x : String) :
    (xs ++ [x]).eraseDups = if x ∈ xs then xs.eraseDups else xs.eraseDups ++ [x] := by
  rw [List.eraseDups_append]
  by_cases hx : x ∈ xs <;> simp [List.removeAll, hx, List.eraseDups_cons]

theorem nodup_eraseDups (xs : List String) : xs.eraseDups.Nodup := by
  induction xs using List.reverseRecOn with
  | nil => simp
  | append_singleton xs x ih =>
    rw [eraseDups_concat]
    split
    · exact ih
    · rename_i hx
      refine List.nodup_append.2 ⟨ih, by simp, fun a ha b hb hab => hx ?_⟩
      rw [← List.mem_singleton.1 hb, ← hab]
      exact List.mem_eraseDups.1 ha

/-- What has occurred before does not occur for the first time. -/
theorem eraseDups_append_of_subset {xs ys : List String} (h : ∀ y ∈ ys, y ∈ xs) :
    (xs ++ ys).eraseDups = xs.eraseDups := by
  have hnone : ys.removeAll xs = [] := by simpa [List.removeAll] using h
  rw [List.eraseDups_append, hnone, List.eraseDups_nil, List.append_nil]

/-! ## Names of a table -/

namespace Table

/-- The names of the table are those of the log, in the order of their first occurrences. -/
def Records (t : Table) (log : List String) : Prop := t.scope.names = log.eraseDups

/-- From `t` to `t'` the names are bound one after the other, or only the first ones of them if this
fails. -/
def Gains (names : List String) (succeeds : Bool) (t t' : Table) : Prop :=
  ∀ log, t.Records log →
    ∃ bound, bound <+: names ∧ (succeeds = true → bound = names) ∧ t'.Records (log ++ bound)

variable {t t' t'' : Table} {names xs ys log : List String} {succeeds : Bool}

theorem Records.names_eq (h : t.Records log) : t.scope.names = log.eraseDups := h

theorem Records.nodup (h : t.Records log) : t.scope.names.Nodup := by
  rw [h.names_eq]
  exact nodup_eraseDups log

/-- A name that is bound is recorded: a new one comes last, and another one keeps its place. -/
theorem Records.bind (h : t.Records log) (x : String) (id : Nat) :
    Records { t with scope := t.scope.bind x id } (log ++ [x]) := by
  rw [Records, Bindings.names_bind, eraseDups_concat, h.names_eq]
  simp only [List.mem_eraseDups]

namespace Gains

/-- A table that has the same names has gained none. -/
theorem of_scope (hs : t'.scope = t.scope) (h : succeeds = true → names = []) :
    t.Gains names succeeds t' := by
  refine fun log hlog => ⟨[], List.nil_prefix, fun hok => (h hok).symm, ?_⟩
  rw [List.append_nil]
  exact (congrArg Bindings.names hs).trans hlog

theorem bind (x : String) (id : Nat) :
    t.Gains [x] succeeds { t with scope := t.scope.bind x id } :=
  fun _ hlog => ⟨[x], List.prefix_refl _, fun _ => rfl, hlog.bind x id⟩

theorem trans (h : t.Gains xs true t') (h' : t'.Gains ys succeeds t'') :
    t.Gains (xs ++ ys) succeeds t'' := by
  intro log hlog
  obtain ⟨bound, -, hall, hrecords⟩ := h log hlog
  obtain rfl := hall rfl
  obtain ⟨bound', hbound', hall', hrecords'⟩ := h' _ hrecords
  refine ⟨bound ++ bound', (List.prefix_append_right_inj bound).2 hbound',
    fun hok => by rw [hall' hok], ?_⟩
  rwa [← List.append_assoc]

theorem append (h : t.Gains xs false t') (ys : List String) : t.Gains (xs ++ ys) false t' := by
  intro log hlog
  obtain ⟨bound, hbound, -, hrecords⟩ := h log hlog
  exact ⟨bound, hbound.trans (List.prefix_append xs ys), nofun, hrecords⟩

end Gains
end Table

/-! ## Names that an expression binds -/

/-- How many of its arguments a function evaluates in the table in use. -/
def Callable.inUse : Callable → Nat → Nat
  | .sum, _ => 2
  | _, count => count

namespace Expr

mutual

/-- The names that an evaluation with these functions assigns to in the table in use, one after the
other. -/
def targets (fs : Bindings Callable) : Expr → List String
  | num _ | name _ => []
  | assign x v => v.targets fs ++ [x]
  | unary _ a => a.targets fs
  | binary _ l r => l.targets fs ++ r.targets fs
  | call f args =>
    ((targetsOf fs args).take ((fs.get? f).elim 0 (·.inUse args.length))).flatten

/-- The names that the evaluations of some expressions assign to, one list for each expression. -/
def targetsOf (fs : Bindings Callable) : List Expr → List (List String)
  | [] => []
  | e :: es => e.targets fs :: targetsOf fs es

end

theorem targetsOf_eq_map (fs : Bindings Callable) (es : List Expr) :
    targetsOf fs es = es.map (targets fs) := by
  induction es with
  | nil => rfl
  | cons e es ih => rw [targetsOf, ih, List.map_cons]

/-- An evaluated call assigns to what its arguments assign to. -/
theorem targets_call {fs : Bindings Callable} {f : String} {c : Callable} (hf : fs.get? f = some c)
    (args : List Expr) : (call f args).targets fs =
      ((args.map (targets fs)).take (c.inUse args.length)).flatten := by
  rw [targets, targetsOf_eq_map, hf]
  rfl

end Expr

/-! ## Steps -/

namespace EvalM

/-- Begun in the state `w`, the step binds the names one after the other, or only the first ones of them
if it fails. It takes no name away and changes no function. -/
def Enrolls {α : Type} (names : List String) (m : EvalM α) (w : Workspace) : Prop :=
  w.Sound → Frame (fun _ => True) (fun _ => True) w (m w).2 ∧
    w.table.Gains names (m w).1.isOk (m w).2.table

namespace Enrolls

variable {α β : Type} {w : Workspace} {xs ys : List String}

/-- A step that binds no name, or fails before it has bound one. -/
theorem of_scope {m : EvalM α} (hframe : Keeps (fun _ => True) (fun _ => True) m w)
    (hs : (m w).2.table.scope = w.table.scope) (h : (m w).1.isOk = true → xs = []) :
    Enrolls xs m w := fun hw => ⟨hframe hw, .of_scope hs h⟩

theorem inert {m : EvalM α} (hm : Inert m) : Enrolls [] m w :=
  of_scope (Keeps.composes.inert hm) (hm.scope w) fun _ => rfl

theorem lift (r : Except Failure α) : Enrolls [] (EvalM.lift r) w := inert (.lift r)

theorem pure (a : α) : Enrolls [] (Pure.pure a : EvalM α) w := lift (.ok a)

theorem refuse (e : EvalError) : Enrolls xs (EvalM.refuse e : EvalM α) w :=
  of_scope (Keeps.composes.lift _) rfl nofun

theorem bind {m : EvalM α} {f : α → EvalM β} (hm : Enrolls xs m w)
    (hf : ∀ a w', m w = (.ok a, w') → w'.table.functions = w.table.functions →
      Enrolls ys (f a) w') : Enrolls (xs ++ ys) (m >>= f) w := by
  intro hw
  have h := hm hw
  rcases hr : m w with ⟨e | a, w₁⟩ <;> rw [hr] at h <;> obtain ⟨hframe, hnames⟩ := h
  · rw [Action.bind_error hr]
    exact ⟨hframe, hnames.append ys⟩
  · rw [Action.bind_ok hr]
    obtain ⟨hframe', hnames'⟩ := hf a w₁ hr hframe.functions (hframe.sound hw)
    exact ⟨hframe.trans hframe', hnames.trans hnames'⟩

/-- What comes after a step that binds no name binds all of them. -/
theorem after {m : EvalM α} {f : α → EvalM β} (hm : Enrolls [] m w)
    (hf : ∀ a w', m w = (.ok a, w') → w'.table.functions = w.table.functions →
      Enrolls xs (f a) w') : Enrolls xs (m >>= f) w := hm.bind hf

/-- A step is followed by one that binds no name. -/
theorem before {m : EvalM α} {f : α → EvalM β} (hm : Enrolls xs m w)
    (hf : ∀ a w', Enrolls [] (f a) w') : Enrolls xs (m >>= f) w := by
  have h := hm.bind fun a w' _ _ => hf a w'
  rwa [List.append_nil] at h

theorem map {m : EvalM α} (hm : Enrolls xs m w) (g : α → β) :
    Enrolls xs (m >>= fun a => Pure.pure (g a)) w := hm.before fun _ _ => pure _

/-- What comes after a refusal does not matter. -/
theorem refuse_bind (e : EvalError) (f : α → EvalM β) :
    Enrolls xs ((EvalM.refuse e : EvalM α) >>= f) w :=
  (inert (.lift _)).after fun _ _ h _ => by cases h

theorem assign (x : String) (a : Value) : Enrolls [x] (EvalM.assign x a) w := by
  intro hw
  have hkeeps : Keeps (fun _ => True) (fun _ => True) (EvalM.assign x a) w :=
    .assign fun _ _ => ⟨trivial, trivial⟩
  refine ⟨hkeeps hw, ?_⟩
  rcases assign_cases hw x a with ⟨ha, -⟩ | ⟨id, v, hx, -, -, -, ha⟩ | ⟨-, ha⟩ <;> rw [ha]
  · exact .of_scope rfl nofun
  -- A bound name keeps its place.
  · intro log hlog
    have hmem : x ∈ log.eraseDups := hlog ▸ List.mem_map_of_mem (Bindings.mem_of_get? hx)
    refine ⟨[x], List.prefix_refl _, fun _ => rfl, hlog.trans ?_⟩
    rw [eraseDups_concat, if_pos (List.mem_eraseDups.1 hmem)]
  · exact .bind x _

/-! ## Rules -/

section Rules
variable {part : EvalM Value} {args : List Argument}

theorem expectNumber (h : Enrolls xs part w) : Enrolls xs (Rule.expectNumber part) w :=
  h.before fun _ _ => lift _

theorem expectInteger (h : Enrolls xs part w) : Enrolls xs (Rule.expectInteger part) w :=
  h.before fun _ _ => lift _

/-- After the count of the arguments has been checked it is known. -/
theorem checkCount {n : Nat} {f : Unit → EvalM β} (h : args.length = n → Enrolls xs (f ()) w) :
    Enrolls xs (Rule.checkCount args n >>= f) w := by
  refine (inert (.checkCount args n)).after fun _ w' hcount _ => ?_
  obtain ⟨hlen, rfl⟩ := checkCount_eq_ok hcount
  exact h hlen

theorem argumentAt {k : Nat} {f : Argument → EvalM β}
    (h : ∀ a, args[k]? = some a → Enrolls xs (f a) w) :
    Enrolls xs (Rule.argumentAt args k >>= f) w := by
  refine (inert (.argumentAt args k)).after fun a w' hat _ => ?_
  obtain ⟨ha, rfl⟩ := argumentAt_eq_ok hat
  exact h a ha

theorem integerArgument {k : Nat} (h : ∀ a, args[k]? = some a → Enrolls xs a.value w) :
    Enrolls xs (Rule.integerArgument args k) w := by
  refine argumentAt fun a ha => (h a ha).before fun v w' => ?_
  cases v with
  | none => exact refuse _
  | number z =>
    dsimp only
    split
    · exact pure _
    · exact refuse _

/-- A random integer has one bound or two. -/
theorem randomInteger (h₀ : ∀ a, args[0]? = some a → Enrolls xs a.value w)
    (h₁ : ∀ a w', args.length ≤ 2 → args[1]? = some a → w'.table.functions = w.table.functions →
      Enrolls ys a.value w') (hone : args.length < 2 → ys = []) :
    Enrolls (xs ++ ys) (Rule.randomInteger args) w := by
  have hbetween : ∀ (b : Int × Int) w', Enrolls [] (if b.2 ≤ b.1 then do
        EvalM.refuse (.emptyRange b.1 b.2)
        let n ← EvalM.draw fun r => r.integer b.1 b.2
        return Value.number (.ofInt n)
      else do
        let n ← EvalM.draw fun r => r.integer b.1 b.2
        return Value.number (.ofInt n)) w' := by
    intro b w'
    split
    · exact refuse_bind _ _
    · exact (inert (.draw _)).map _
  unfold Rule.randomInteger
  dsimp only
  split
  · exact refuse_bind _ _
  refine (integerArgument (k := 0) h₀).bind fun first w₁ _ hfun => ?_
  split
  · refine (integerArgument (k := 1) fun a ha => h₁ a w₁ (by omega) ha hfun).before fun high w₂ => ?_
    exact (pure _).after fun b w₃ _ _ => hbetween b w₃
  rw [hone (by omega)]
  split
  · exact (pure _).after fun b w₂ _ _ => hbetween b w₂
  split
  · exact refuse_bind _ _
  · exact (pure _).after fun b w₂ _ _ => hbetween b w₂

/-- A loop in a scope of its own leaves the names of the table in use alone. -/
theorem loopIn {scope : Table} {w₀ : Workspace} (hcopy : EvalM.copy w₀ = (.ok scope, w)) {x : String}
    {body : EvalM Value} {count : Nat} {low : Int}
    (h : ∀ w', Keeps (fun _ => True) (fun _ => True) body w') :
    Enrolls [] (EvalM.loopIn scope x body count low) w := by
  refine of_scope (loopIn_keeps hcopy fun _ w' _ _ => ?_) rfl fun _ => rfl
  exact (h w').mono (fun _ _ => trivial) fun _ _ => .inr trivial

/-- A sum evaluates its bounds in the table in use. -/
theorem sum (h₀ : ∀ a, args[0]? = some a → Enrolls xs a.value w)
    (h₁ : ∀ a w', args[1]? = some a → w'.table.functions = w.table.functions → Enrolls ys a.value w')
    (hbody : ∀ a w', args[3]? = some a → Keeps (fun _ => True) (fun _ => True) a.value w') :
    Enrolls (xs ++ ys) (Rule.sum args) w := by
  unfold Rule.sum
  dsimp only
  refine checkCount fun hlen => (integerArgument (k := 0) h₀).bind fun low w₁ _ hfun => ?_
  refine (integerArgument (k := 1) fun a ha => h₁ a w₁ ha hfun).before fun high w₂ => ?_
  split
  · exact refuse_bind _ _
  refine argumentAt (k := 2) fun v _ => (lift v.name).after fun x w _ _ => ?_
  refine argumentAt (k := 3) fun b hb => (inert .copy).after fun scope w₃ hcopy _ => ?_
  exact loopIn hcopy fun w' => hbody b w' hb

end Rules

/-! ## Evaluations -/

section Evaluations
variable {s : Settings} {fs : Bindings Callable} {es : List Expr}

section Arguments
variable (h : ∀ e ∈ es, ∀ w, w.table.functions = fs → Enrolls (e.targets fs) (e.eval s) w)
include h

theorem numberArguments (hw : w.table.functions = fs) :
    Enrolls (es.map (Expr.targets fs)).flatten (Rule.numberArguments (es.map (Expr.argument s))) w := by
  induction es generalizing w with
  | nil => exact pure _
  | cons e es ih =>
    refine (expectNumber (h e (by simp) w hw)).bind fun z w₁ _ hfun => ?_
    exact (ih (fun e he => h e (List.mem_cons_of_mem _ he)) (hfun.trans hw)).map _

theorem argument {k : Nat} {e : Expr} (he : es[k]? = some e) (hw : w.table.functions = fs) :
    ∀ a, (es.map (Expr.argument s))[k]? = some a → Enrolls (e.targets fs) a.value w := by
  intro a ha
  obtain ⟨e', he', rfl⟩ := Expr.of_getElem?_arguments ha
  cases he.symm.trans he'
  exact h e (List.mem_of_getElem? he) w hw

theorem apply {m : RealFunctions} {c : Callable} (hw : w.table.functions = fs) :
    Enrolls ((es.map (Expr.targets fs)).take (c.inUse es.length)).flatten
      (Rule.apply m c (es.map (Expr.argument s))) w := by
  -- All functions but the sum evaluate every argument.
  have hall : c.inUse es.length = es.length →
      (es.map (Expr.targets fs)).take (c.inUse es.length) = es.map (Expr.targets fs) := fun hc => by
    rw [hc, ← List.length_map (Expr.targets fs), List.take_length]
  cases c with
  | elementary g =>
    rw [hall rfl]
    refine checkCount fun hlen => ?_
    obtain ⟨e, rfl⟩ := List.length_eq_one_iff.1 (by simpa using hlen)
    rw [List.map_singleton, List.flatten_singleton]
    refine argumentAt (k := 0) fun a ha => ?_
    exact (expectNumber (argument h rfl hw a ha)).before fun _ _ => (lift _).map _
  | polar =>
    rw [hall rfl]
    refine checkCount fun _ => (numberArguments h hw).before fun zs w' => ?_
    split
    · exact (lift _).after fun _ _ _ _ => (lift _).map _
    · exact lift _
  | random =>
    rw [hall rfl]
    refine checkCount fun hlen => ?_
    obtain rfl := List.length_eq_zero_iff.1 (by simpa using hlen)
    exact (inert (.draw _)).map _
  | randomInteger =>
    rw [hall rfl]
    cases es with
    | nil =>
      change Enrolls ([] ++ []) _ w
      exact randomInteger nofun nofun fun _ => rfl
    | cons e es =>
      refine randomInteger (argument h rfl hw) (fun a w' hlen ha hfun => ?_) fun hlen => ?_
      · cases es with
        | nil => cases ha
        | cons e' es =>
          obtain rfl : es = [] := by simpa using hlen
          rw [List.map_singleton, List.flatten_singleton]
          exact argument h (k := 1) rfl (hfun.trans hw) a ha
      · have hlt : es.length + 1 < 2 := by simpa using hlen
        obtain rfl : es = [] := List.length_eq_zero_iff.1 (by omega)
        rfl
  | sum =>
    by_cases hlen : es.length = 4
    · match es, hlen with
      | [l, r, x, b], _ =>
        have hbounds : (([l, r, x, b].map (Expr.targets fs)).take
            (Callable.inUse .sum [l, r, x, b].length)).flatten = l.targets fs ++ r.targets fs := by
          simp [Callable.inUse]
        rw [hbounds]
        refine sum (argument h rfl hw) (fun a w' ha hfun => ?_) fun a w' ha => argument_keeps_all ha w'
        exact argument h (k := 1) rfl (hfun.trans hw) a ha
    · unfold Rule.apply Rule.sum
      exact checkCount fun h' => absurd (by simpa using h') hlen
  | native arity f builtin =>
    rw [hall rfl]
    exact checkCount fun _ => (numberArguments h hw).before fun _ _ => lift _
  | unary f builtin =>
    rw [hall rfl]
    refine checkCount fun hlen => ?_
    obtain ⟨e, rfl⟩ := List.length_eq_one_iff.1 (by simpa using hlen)
    rw [List.map_singleton, List.flatten_singleton]
    refine argumentAt (k := 0) fun a ha => (argument h rfl hw a ha).before fun v w' => ?_
    exact (inert .table).after fun _ _ _ _ => lift _

theorem call {f : String} (hw : w.table.functions = fs) :
    Enrolls ((Expr.call f es).targets fs) (Rule.call s.math f (es.map (Expr.argument s))) w := by
  refine (inert (.findFunction? f)).after fun c w' hc _ => ?_
  rw [findFunction?_apply] at hc
  obtain ⟨hfun, rfl⟩ := Prod.mk.inj hc
  cases c with
  | none => exact refuse _
  | some c =>
    have hf := Except.ok.inj hfun
    rw [hw] at hf
    rw [Expr.targets_call hf]
    exact apply h hw

end Arguments

theorem of_rule {e : Expr} (h : Enrolls xs (e.rule s) (e.enter w)) : Enrolls xs (e.eval s) w := by
  intro hw
  obtain ⟨hresult, -, ht⟩ := Expr.eval_apply s e w
  obtain ⟨hframe, hnames⟩ := h (by simpa [Workspace.Sound] using hw)
  refine ⟨Keeps.of_rule (fun _ => hframe) hw, fun log hlog => ?_⟩
  rw [Expr.table_enter] at hnames
  obtain ⟨bound, hbound, hall, hrecords⟩ := hnames log hlog
  refine ⟨bound, hbound, fun hok => hall ?_, by rwa [ht]⟩
  rw [hresult] at hok
  rcases hr : (e.rule s (e.enter w)).1 with φ | v <;> rw [hr] at hok
  · exact hok
  · rfl

theorem operands {l r : Expr}
    (hl : ∀ w, w.table.functions = fs → Enrolls (l.targets fs) (l.eval s) w)
    (hr : ∀ w, w.table.functions = fs → Enrolls (r.targets fs) (r.eval s) w)
    (hw : w.table.functions = fs) :
    Enrolls (l.targets fs ++ r.targets fs) (Rule.operands (l.eval s) (r.eval s)) w :=
  (expectNumber (hl w hw)).bind fun _ w' _ hfun => (expectNumber (hr w' (hfun.trans hw))).map _

/-- An evaluation assigns to the names of the expression from left to right. -/
theorem eval (e : Expr) (hw : w.table.functions = fs) : Enrolls (e.targets fs) (e.eval s) w := by
  induction e using Expr.induct generalizing w with
  | num z => exact of_rule (pure _)
  | name x =>
    refine of_rule ((inert (.find? x)).after fun found _ _ _ => ?_)
    split
    · exact pure _
    · exact refuse _
  | assign x v ih =>
    have hv : Enrolls (v.targets fs) (v.eval s) ((Expr.assign x v).enter w) := ih (by simpa using hw)
    exact of_rule (hv.bind fun a w' _ _ => (assign x a).map _)
  | unary op a ih =>
    have ha : Enrolls (a.targets fs) (a.eval s) ((Expr.unary op a).enter w) := ih (by simpa using hw)
    refine of_rule ?_
    cases op with
    | neg | abs => exact (expectNumber ha).map _
    | fact =>
      refine (expectInteger ha).before fun n _ => ?_
      split
      · exact refuse _
      · exact pure _
  | binary op l r ihl ihr =>
    have hw' : ((Expr.binary op l r).enter w).table.functions = fs := by simpa using hw
    refine of_rule ?_
    cases op with
    | add | sub | mul | pow => exact (operands (fun w => ihl) (fun w => ihr) hw').map _
    | div => exact (operands (fun w => ihl) (fun w => ihr) hw').before fun _ _ => (lift _).map _
    | mod =>
      refine (expectInteger (ihl hw')).bind fun n w₁ _ hfun => ?_
      exact (expectInteger (ihr (hfun.trans hw'))).before fun _ _ => (lift _).map _
  | call f args ih =>
    exact of_rule (call (fun e he w hw => ih e he hw) (by simpa using hw))

end Evaluations
end Enrolls

/-! ## Lines -/

/-- The names that the evaluation of a text assigns to. The last one is that of the answer. -/
def textTargets (text : String) (w : Workspace) : List String :=
  match (parse text w).1 with
  | .ok e => e.targets w.table.functions ++ ["Ans"]
  | .error _ => []

theorem Enrolls.evalText (s : Settings) (text : String) (w : Workspace) :
    Enrolls (textTargets text w) (evalText s text) w := by
  have hparse : Enrolls [] (parse text) w :=
    of_scope (parse_keeps text w) (by rw [(parse_touches text w).2]) fun _ => rfl
  refine hparse.after fun e w₁ he hfun => ?_
  have htargets : textTargets text w = e.targets w.table.functions ++ ["Ans"] := by
    rw [textTargets, he]
  rw [htargets]
  exact (Enrolls.eval e hfun).bind fun v w₂ _ _ => (Enrolls.assign "Ans" v).map _

end EvalM
end ComplexCalc
