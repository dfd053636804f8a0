import ComplexCalc.Bindings
import ComplexCalc.Display
import ComplexCalc.Elementary
import ComplexCalc.Journal
import ComplexCalc.Random
/-!
# Tables

A table binds names to variables and to functions, and draws from a random source of its own. The
variables themselves lie in a memory that all tables share: a copy of a table binds its names to the
same variables, so an assignment through one of them shows in the other, while a name bound in one
of them later does not. A constant is never assigned nor bound anew, and neither is a builtin
function.
-/
namespace ComplexCalc

/-- A named value. -/
structure Variable where
  name : String
  value : Value
  constant : Bool
deriving Repr, Inhabited

/-- The variables of all tables. A table refers to a variable by its index. -/
abbrev Memory := Array Variable

/-- The names of the variables of one table. -/
abbrev Scope := Bindings Nat

/-- A function that a name can be bound to. -/
inductive Callable where
  /-- A builtin function of one number. -/
  | elementary (f : Elementary)
  | polar
  | random
  | randomInteger
  | sum
  /-- A host's function of a fixed number of numbers. -/
  | native (arity : Nat) (apply : List Number → Native) (builtin : Bool)
  /-- A host's function of one value, which also sees the names of the calling table. -/
  | unary (apply : Value → Scope → Native) (builtin : Bool)

/-- Whether the function cannot be replaced. -/
def Callable.isBuiltin : Callable → Bool
  | native _ _ builtin | unary _ builtin => builtin
  | _ => true

/-- The names of one scope of evaluation. -/
structure Table where
  scope : Scope
  functions : Bindings Callable
  random : RandomSource

namespace Table

/-- A table that binds nothing. -/
def empty (random : RandomSource) : Table := ⟨[], [], random⟩

/-- The table by the numbers of its names. -/
def debugText (t : Table) : String :=
  "<SymbolTable: " ++ toString t.scope.length ++ " variables, " ++
    toString t.functions.length ++ " functions>"

/-- The index of the variable of a name, and the variable. -/
def locate? (t : Table) (memory : Memory) (name : String) : Option (Nat × Variable) :=
  match t.scope.get? name with
  | some id => memory[id]?.map fun v => (id, v)
  | none => none

/-- The variables that are not constants, in the order in which their names were first bound. -/
def userVariables (t : Table) (memory : Memory) : List Variable :=
  (t.scope.filterMap fun (_, id) => memory[id]?).filter fun v => !v.constant

end Table

/-- What evaluation works on: the memory, the table in use, and the journal. -/
structure Workspace where
  memory : Memory
  table : Table
  journal : Journal

instance : Journaled Workspace := ⟨Workspace.journal, fun w j => { w with journal := j }⟩

/-- A step of evaluation. -/
abbrev EvalM := Action Workspace Failure

namespace EvalM

/-- The result of a step that touches nothing. -/
def lift {α : Type} (r : Except Failure α) : EvalM α := fun w => (r, w)

/-- Gives up because the expression has no value. -/
def refuse {α : Type} (e : EvalError) : EvalM α := lift (noValue e)

/-- Runs a step with another table in use, and then uses the former one again, however the step
ends. -/
def inTable {α : Type} (t : Table) (step : EvalM α) : EvalM α := fun w =>
  let (r, w') := step { w with table := t }
  (r, { w' with table := w.table })

@[simp] theorem table_inTable {α : Type} (t : Table) (step : EvalM α) (w : Workspace) :
    (inTable t step w).2.table = w.table := rfl

/-- The table in use. -/
def table : EvalM Table := return (← get).table

/-- Changes the table in use. -/
def modifyTable (f : Table → Table) : EvalM Unit := modify fun w => { w with table := f w.table }

/-! ## Variables -/

/-- The index of the variable of a name, and the variable. -/
def locate? (name : String) : EvalM (Option (Nat × Variable)) :=
  return (← get).table.locate? (← get).memory name

/-- The variable of a name. -/
def find? (name : String) : EvalM (Option Variable) :=
  return (← locate? name).map (·.2)

/-- Adds a variable to the memory and gives its index. -/
def allocate (v : Variable) : EvalM Nat := fun w =>
  (.ok w.memory.size, { w with memory := w.memory.push v })

/-- Binds a name to the variable at an index, unless the name is bound to a constant. -/
def bindTo (name : String) (id : Nat) : EvalM Unit := do
  match ← find? name with
  | some old =>
    if old.constant then refuse (.constantVariable name)
    else modifyTable fun t => { t with scope := t.scope.bind name id }
  | none => modifyTable fun t => { t with scope := t.scope.bind name id }

/-- Binds the name of a new variable to it, unless the name is bound to a constant. -/
def define (v : Variable) : EvalM Unit := do
  bindTo v.name (← allocate v)

/-- Assigns a value to the variable of a name, or defines a new variable if there is none. -/
def assign (name : String) (value : Value) : EvalM Unit := do
  match ← locate? name with
  | none => define ⟨name, value, false⟩
  | some (id, v) =>
    if v.constant then refuse (.constantVariable v.name)
    else modify fun w => { w with memory := w.memory.setIfInBounds id { v with value := value } }

/-! ## Functions -/

/-- The function of a name. -/
def findFunction? (name : String) : EvalM (Option Callable) :=
  return (← table).functions.get? name

/-- Binds a name to a function, unless it is bound to a builtin one. -/
def bindFunction (name : String) (f : Callable) : EvalM Unit := do
  match ← findFunction? name with
  | some old =>
    if old.isBuiltin then refuse (.builtinFunction name)
    else modifyTable fun t => { t with functions := t.functions.bind name f }
  | none => modifyTable fun t => { t with functions := t.functions.bind name f }

/-! ## Random numbers -/

/-- Draws from the random source of the table in use. -/
def draw {α : Type} (f : RandomSource → α × RandomSource) : EvalM α := do
  let (a, r) := f (← table).random
  modifyTable fun t => { t with random := r }
  pure a

/-! ## Builtins and copies -/

/-- The constants of every table that has the builtins. -/
def constants : Bindings Value :=
  [("i", .number .i), ("pi", .number (.ofReal Number.pi)), ("e", .number (.ofReal Number.euler)),
    ("None", .none)]

/-- The functions of every table that has the builtins. -/
def builtins : Bindings Callable :=
  Elementary.all.map (fun f => (f.name, .elementary f)) ++
    [("polar", .polar), ("random", .random), ("rand_int", .randomInteger), ("sum", .sum)]

/-- Binds the constants and the builtin functions. -/
def register : EvalM Unit := do
  constants.forM fun (name, value) => define ⟨name, value, true⟩
  builtins.forM fun (name, f) => bindFunction name f

/-- A copy of the table in use, with a random source seeded from its own. -/
def copy : EvalM Table := do
  let seed ← draw fun r => r.integer 0 0x8000000000000000
  let t ← table
  return { t with random := t.random.reseed seed.toNat }

/-- Removes all bindings of the table in use and binds the builtins again. -/
def clear : EvalM Unit := do
  modify fun w => Journaled.update (·.record (.note ("clearing " ++ w.table.debugText))) w
  modifyTable fun t => { t with scope := [], functions := [] }
  register

end EvalM

namespace Workspace

/-- A workspace with one table and no variables but its constants. -/
def fresh (random : RandomSource) (withBuiltins : Bool) (journal : Journal) : Workspace :=
  let w : Workspace := ⟨#[], .empty random, journal⟩
  if withBuiltins then (EvalM.register w).2 else w

/-- The variables of the table in use that are not constants. -/
def userVariables (w : Workspace) : List Variable := w.table.userVariables w.memory

end Workspace

/-- Runs a step apart from the workspace, with a memory and a table of its own, which draws from this
source. Only the journal is the same. -/
def EvalM.apart {α : Type} (random : RandomSource) (step : EvalM α) : EvalM α := fun w =>
  let (r, w') := step (.fresh random true w.journal)
  (r, { w with journal := w'.journal })

@[simp] theorem EvalM.memory_apart {α : Type} (random : RandomSource) (step : EvalM α) (w : Workspace) :
    (apart random step w).2.memory = w.memory := rfl

@[simp] theorem EvalM.table_apart {α : Type} (random : RandomSource) (step : EvalM α) (w : Workspace) :
    (apart random step w).2.table = w.table := rfl

end ComplexCalc
