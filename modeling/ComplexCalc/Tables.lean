import ComplexCalc.Eval
/-!
# Several tables

Tables that share one memory, and the steps by which a host program changes them. A step works on
one table; it may add a table, and it may bind a name of one table to the variable of another.
-/
namespace ComplexCalc

/-- A memory, a journal, and tables on them. -/
structure Tables where
  memory : Memory
  journal : Journal
  tables : List Table

/-- A change of the table at an index. -/
inductive TableStep where
  | eval (text : String)
  /-- Adds a copy of the table. -/
  | copy
  | clear
  /-- Assigns to a name, or defines it. -/
  | assign (name : String) (value : Value)
  /-- Binds a name to a new variable or constant. -/
  | define (v : Variable)
  /-- Binds a name of another table to the variable that it has in this one. -/
  | share (name : String) (other : Nat)
  | bindFunction (name : String) (f : Callable)

/-- What a step gives. -/
inductive TableAnswer where
  | done
  | value (v : Value)
  /-- The index of an added table. -/
  | table (index : Nat)

namespace Tables

/-- One table. -/
def fresh (random : RandomSource) (withBuiltins : Bool) (journal : Journal) : Tables :=
  let w := Workspace.fresh random withBuiltins journal
  ⟨w.memory, w.journal, [w.table]⟩

/-- Runs a step of evaluation on the table at an index. -/
def on {α : Type} (ts : Tables) (index : Nat) (step : EvalM α) : Except Failure α × Tables :=
  match ts.tables[index]? with
  | none => (fault .missingField, ts)
  | some t =>
    let (r, w) := step ⟨ts.memory, t, ts.journal⟩
    (r, ⟨w.memory, w.journal, ts.tables.set index w.table⟩)

/-- The index of the variable that a name has in a table, and the variable. -/
def locate? (ts : Tables) (index : Nat) (name : String) : Option (Nat × Variable) :=
  ts.tables[index]?.bind fun t => t.locate? ts.memory name

/-- Whether a name has the same variable in two tables, or none in both. -/
def sameVariable (ts : Tables) (index : Nat) (name : String) (other : Nat) : Bool :=
  (ts.locate? index name).map (·.1) == (ts.locate? other name).map (·.1)

/-- The table at an index changed by a step. A failure keeps what the step did before it. -/
def step (s : Settings) (index : Nat) (change : TableStep) (ts : Tables) :
    Except Failure TableAnswer × Tables :=
  match change with
  | .eval text => ts.on index (return .value (← EvalM.evalText s text))
  | .copy =>
    match ts.on index EvalM.copy with
    | (.ok t, ts) => (.ok (.table ts.tables.length), { ts with tables := ts.tables ++ [t] })
    | (.error e, ts) => (.error e, ts)
  | .clear => ts.on index (do EvalM.clear; return .done)
  | .assign name value => ts.on index (do EvalM.assign name value; return .done)
  | .define v => ts.on index (do EvalM.define v; return .done)
  | .share name other =>
    match ts.locate? index name with
    | some (id, v) => ts.on other (do EvalM.bindTo v.name id; return .done)
    | none => (fault .noProperty, ts)
  | .bindFunction name f => ts.on index (do EvalM.bindFunction name f; return .done)

/-- The tables after a list of steps. -/
def run (s : Settings) (steps : List (Nat × TableStep)) (ts : Tables) : Tables :=
  steps.foldl (fun ts (index, change) => (ts.step s index change).2) ts

end Tables
end ComplexCalc
