import ComplexCalc.Eval
import ComplexCalc.Proofs.Actions
/-!
# The parts that an evaluation evaluates

The evaluation of an expression is its rule, between two entries of the journal while debugging is
on. `Starts` says which parts a rule evaluates, each in the state that the parts before it have left,
and `Visits` the same for the parts of the parts. A part in the body of a sum comes with the loop
variables of the sums around it.
-/
namespace ComplexCalc

namespace Expr

/-- Induction on expressions, where the claim holds of every argument of a call. -/
@[elab_as_elim]
theorem induct {motive : Expr → Prop} (num : ∀ z, motive (.num z)) (name : ∀ x, motive (.name x))
    (assign : ∀ x v, motive v → motive (.assign x v))
    (unary : ∀ op a, motive a → motive (.unary op a))
    (binary : ∀ op l r, motive l → motive r → motive (.binary op l r))
    (call : ∀ f args, (∀ a ∈ args, motive a) → motive (.call f args)) (e : Expr) : motive e :=
  @Expr.rec motive (fun args => ∀ a ∈ args, motive a) num name assign unary binary call (by simp)
    (fun _ _ hd tl => by simpa using ⟨hd, tl⟩) e

variable (s : Settings)

/-- An expression as an argument of a call. -/
def argument (e : Expr) : Argument :=
  ⟨e.eval s, match e.name? with
    | some x => .ok x
    | none => Argument.unnamed⟩

theorem arguments_eq_map (es : List Expr) : arguments s es = es.map (argument s) := by
  induction es with
  | nil => rfl
  | cons e es ih =>
    rw [arguments, ih]
    rfl

variable {s} in
theorem of_getElem?_arguments {es : List Expr} {k : Nat} {a : Argument}
    (h : (es.map (argument s))[k]? = some a) : ∃ e, es[k]? = some e ∧ a = e.argument s := by
  rw [List.getElem?_map] at h
  obtain ⟨e, he, rfl⟩ := Option.map_eq_some_iff.1 h
  exact ⟨e, he, rfl⟩

/-- The evaluation of an expression but for the entries in the journal. -/
def rule : Expr → EvalM Value
  | num z => pure (.number z)
  | name x => Rule.name x
  | assign x v => Rule.assignment x (v.eval s)
  | unary op a => Rule.unary op (a.eval s)
  | binary op l r => Rule.binary s.math op (l.eval s) (r.eval s)
  | call f args => Rule.call s.math f (args.map (argument s))

theorem eval_eq_visit (e : Expr) : e.eval s = Rule.visit s (fun _ => e.debugText) (e.rule s) := by
  cases e <;> simp [eval, rule, arguments_eq_map]

/-- The state in which the rule of an expression begins: the journal has an entry for it. -/
def enter (e : Expr) (w : Workspace) : Workspace :=
  if w.journal.enabled then
    Journaled.update (fun j => (j.record (.call
      ("eval_tree(" ++ e.debugText ++ ", " ++ w.table.debugText ++ ")"))).deeper) w
  else w

@[simp] theorem table_enter (e : Expr) (w : Workspace) : (e.enter w).table = w.table := by
  unfold enter
  split <;> rfl

@[simp] theorem memory_enter (e : Expr) (w : Workspace) : (e.enter w).memory = w.memory := by
  unfold enter
  split <;> rfl

/-- An evaluation gives what the rule gives, unless debugging is on and the value cannot be shown. It
leaves the memory and the table that the rule leaves. -/
theorem eval_apply (e : Expr) (w : Workspace) :
    ((e.eval s w).1 = match (e.rule s (e.enter w)).1 with
      | .ok v => if w.journal.enabled then (Display.value s.math s.precision v).map fun _ => v else .ok v
      | .error f => .error f) ∧
    (e.eval s w).2.memory = (e.rule s (e.enter w)).2.memory ∧
    (e.eval s w).2.table = (e.rule s (e.enter w)).2.table := by
  rw [eval_eq_visit, Rule.visit]
  by_cases h : w.journal.enabled = true
  · have henter : e.enter w = _ := if_pos h
    have htraced : Journaled.journal w = w.journal := rfl
    rcases hr : e.rule s (e.enter w) with ⟨f | v, t⟩ <;> rw [henter] at hr <;>
      simp only [traced, htraced, h, if_true, hr]
    · exact ⟨trivial, rfl, rfl⟩
    · cases Display.value s.math s.precision v <;> exact ⟨rfl, rfl, rfl⟩
  -- While debugging is off, the rule runs on its own.
  · have henter : e.enter w = w := if_neg h
    have hoff : (Journaled.journal w).enabled = false := Bool.eq_false_iff.2 h
    rw [traced_of_disabled hoff, henter]
    cases (e.rule s w).1 <;> simp [h]

end Expr

/-! ## Steps on the table -/

theorem Table.locate?_eq_some {t : Table} {memory : Memory} {x : String} {id : Nat} {v : Variable} :
    t.locate? memory x = some (id, v) ↔ t.scope.get? x = some id ∧ memory[id]? = some v := by
  unfold locate?
  rcases t.scope.get? x with - | j
  · simp
  · constructor
    · intro h
      obtain ⟨u, hu, h⟩ := Option.map_eq_some_iff.1 h
      cases h
      exact ⟨rfl, hu⟩
    · rintro ⟨h, hv⟩
      cases h
      simp [hv]

/-- The name is not bound to a constant. -/
def Workspace.Assignable (w : Workspace) (x : String) : Prop :=
  ∀ id v, w.table.locate? w.memory x = some (id, v) → v.constant = false

namespace EvalM

variable {α : Type} (w : Workspace)

@[simp] theorem lift_apply (r : Except Failure α) : lift r w = (r, w) := rfl

@[simp] theorem refuse_apply (e : EvalError) :
    (refuse e : EvalM α) w = (.error (.noValue e), w) := rfl

@[simp] theorem locate?_apply (x : String) :
    locate? x w = (.ok (w.table.locate? w.memory x), w) := rfl

@[simp] theorem find?_apply (x : String) :
    find? x w = (.ok ((w.table.locate? w.memory x).map (·.2)), w) := rfl

@[simp] theorem findFunction?_apply (x : String) :
    findFunction? x w = (.ok (w.table.functions.get? x), w) := rfl

theorem inTable_apply (t : Table) (step : EvalM α) : inTable t step w =
    ((step { w with table := t }).1, { (step { w with table := t }).2 with table := w.table }) := rfl

/-- Drawing changes the random source and nothing else. -/
theorem draw_apply (f : RandomSource → α × RandomSource) : draw f w =
    (.ok (f w.table.random).1, { w with table := { w.table with random := (f w.table.random).2 } }) :=
  rfl

/-- A copy has the names and the functions of the table in use. -/
theorem copy_apply : ∃ random source, copy w =
    (.ok { w.table with random := source }, { w with table := { w.table with random := random } }) :=
  ⟨_, _, rfl⟩

/-- A definition adds a variable to the memory and binds its name, unless the name is bound to a
constant. -/
theorem define_cases (v : Variable) :
    (∃ e, define v w = (.error (.noValue e), { w with memory := w.memory.push v })) ∨
    define v w = (.ok (), { w with
      memory := w.memory.push v,
      table := { w.table with scope := w.table.scope.bind v.name w.memory.size } }) := by
  simp only [define, bindTo, Action.bind_apply, allocate, find?_apply]
  rcases w.table.locate? (w.memory.push v) v.name with - | ⟨id, old⟩
  · exact .inr rfl
  · simp only [Option.map_some]
    split
    · exact .inl ⟨_, rfl⟩
    · exact .inr rfl

end EvalM

/-! ## Arguments -/

theorem checkCount_eq_ok {args : List Argument} {n : Nat} {w w' : Workspace}
    (h : Rule.checkCount args n w = (.ok (), w')) : args.length = n ∧ w = w' := by
  unfold Rule.checkCount at h
  split at h
  · cases h
  · split at h
    · cases h
    · cases h
      exact ⟨by omega, rfl⟩

/-- The argument at an index within the list. -/
theorem argumentAt_eq_ok {args : List Argument} {k : Nat} {a : Argument} {w w' : Workspace}
    (h : Rule.argumentAt args k w = (.ok a, w')) : args[k]? = some a ∧ w = w' := by
  unfold Rule.argumentAt at h
  split at h
  · cases h
  · rename_i hlt
    rw [if_neg (by omega), if_neg (by omega)] at h
    rw [Int.toNat_natCast] at h
    rcases hb : args[k]? with - | b <;> rw [hb] at h <;> cases h
    exact ⟨rfl, rfl⟩

/-- The arguments of a sum that evaluates its body are two bounds, a name and the body. -/
theorem exists_eq_of_sum {s : Settings} {args : List Expr} {n body : Expr} {x : String}
    (hlen : args.length = 4) (hn : args[2]? = some n) (hx : (n.argument s).name = .ok x)
    (hb : args[3]? = some body) : ∃ l r, args = [l, r, .name x, body] := by
  match args, hlen with
  | [l, r, _, _], _ =>
    cases hn
    cases hb
    cases n <;> simp [Expr.argument, Expr.name?, Argument.unnamed, noValue] at hx
    exact ⟨l, r, by rw [hx]⟩

/-! ## Parts -/

/-- How many arguments a function takes, if it takes each of them for its value. -/
def Callable.arity? : Callable → Option Nat
  | .elementary _ | .unary _ _ => some 1
  | .polar => some 2
  | .random => some 0
  | .native arity _ _ => some arity
  | .randomInteger | .sum => none

/-- Whether a function takes two integers first when it has this many arguments. -/
def Callable.takesBounds : Callable → Nat → Prop
  | .randomInteger, count => count ≤ 2
  | .sum, count => count = 4
  | _, _ => False

/-- The states in which a loop that begins at `i` evaluates its body. -/
inductive Iterates (x : String) (body : EvalM Value) : Nat → Int → Workspace → Workspace → Prop
  | here {count : Nat} {i : Int} {w w' : Workspace} :
      EvalM.assign x (.number (.ofInt i)) w = (.ok (), w') → Iterates x body (count + 1) i w w'
  | later {count : Nat} {i : Int} {z : Number} {w w₁ w₂ w' : Workspace} :
      EvalM.assign x (.number (.ofInt i)) w = (.ok (), w₁) →
      Rule.expectNumber body w₁ = (.ok z, w₂) → Iterates x body count (i + 1) w₂ w' →
      Iterates x body (count + 1) i w w'

/-- The rule of an expression, begun in the state `w`, evaluates a part in the state `w'`. The loop
variable is that of the sum whose body the part is. -/
inductive Starts (s : Settings) : Expr → Workspace → List String → Expr → Workspace → Prop
  | assigned {x : String} {v : Expr} {w : Workspace} : Starts s (.assign x v) w [] v w
  | operand {op : UnaryOp} {a : Expr} {w : Workspace} : Starts s (.unary op a) w [] a w
  | left {op : BinaryOp} {l r : Expr} {w : Workspace} : Starts s (.binary op l r) w [] l w
  | right {op : BinaryOp} {l r : Expr} {z : Number} {w w' : Workspace} : op ≠ .mod →
      Rule.expectNumber (l.eval s) w = (.ok z, w') → Starts s (.binary op l r) w [] r w'
  | divisor {l r : Expr} {n : Int} {w w' : Workspace} :
      Rule.expectInteger (l.eval s) w = (.ok n, w') → Starts s (.binary .mod l r) w [] r w'
  | argument {f : String} {args : List Expr} {c : Callable} {k : Nat} {a : Expr}
      {zs : List Number} {w w' : Workspace} :
      w.table.functions.get? f = some c → c.arity? = some args.length → args[k]? = some a →
      Rule.numberArguments ((args.map (Expr.argument s)).take k) w = (.ok zs, w') →
      Starts s (.call f args) w [] a w'
  | firstBound {f : String} {args : List Expr} {c : Callable} {a : Expr} {w : Workspace} :
      w.table.functions.get? f = some c → c.takesBounds args.length → args[0]? = some a →
      Starts s (.call f args) w [] a w
  | secondBound {f : String} {args : List Expr} {c : Callable} {a : Expr} {low : Int}
      {w w' : Workspace} :
      w.table.functions.get? f = some c → c.takesBounds args.length → args[1]? = some a →
      Rule.integerArgument (args.map (Expr.argument s)) 0 w = (.ok low, w') →
      Starts s (.call f args) w [] a w'
  | body {f : String} {low high body : Expr} {x : String} {i j : Int} {scope : Table}
      {w w₁ w₂ w₃ w₄ w' : Workspace} :
      w.table.functions.get? f = some .sum →
      Rule.integerArgument ([low, high, .name x, body].map (Expr.argument s)) 0 w = (.ok i, w₁) →
      Rule.integerArgument ([low, high, .name x, body].map (Expr.argument s)) 1 w₁ = (.ok j, w₂) →
      i ≤ j → EvalM.copy w₂ = (.ok scope, w₃) →
      EvalM.define ⟨x, .number (.ofInt i), false⟩ { w₃ with table := scope } = (.ok (), w₄) →
      Iterates x (body.eval s) (j - i).toNat i w₄ w' →
      Starts s (.call f [low, high, .name x, body]) w [x] body w'

/-- A part is smaller than the whole. -/
theorem Starts.sizeOf_lt {s : Settings} {e e' : Expr} {w w' : Workspace} {loops : List String}
    (h : Starts s e w loops e' w') : sizeOf e' < sizeOf e := by
  cases h with
  | argument _ _ ha | firstBound _ _ ha | secondBound _ _ ha _ =>
    have := List.sizeOf_lt_of_mem (List.mem_of_getElem? ha)
    simp
    omega
  | _ =>
    simp
    try omega

/-- The evaluation of an expression, begun in the state `w`, evaluates a part of it, or a part of a
part, in the state `w'`, within the bodies of sums over `loops`. -/
inductive Visits (s : Settings) : Expr → Workspace → List String → Expr → Workspace → Prop
  | here {e : Expr} {w : Workspace} : Visits s e w [] e w
  | part {e e' e'' : Expr} {loops loops' : List String} {w w' w'' : Workspace} :
      Starts s e (e.enter w) loops e' w' → Visits s e' w' loops' e'' w'' →
      Visits s e w (loops ++ loops') e'' w''

end ComplexCalc
