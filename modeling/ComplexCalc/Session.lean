import ComplexCalc.Eval
import ComplexCalc.Text.Lines
/-!
# Sessions

A session evaluates lines one after the other, typed at a prompt or read from a script. A line ends
at its first `#`; in test mode the comment after it is the expected answer. `exit`, `clear` and
`dir` are commands. An error of the language is shown and the session goes on, except in test mode;
any other failure ends it.
-/
namespace ComplexCalc

/-- How a session runs. -/
structure Mode where
  /-- Whether comments are expected answers, which a line must match. -/
  test : Bool
  /-- Whether lines of a script and results are shown. -/
  verbose : Bool
  /-- The script, or none at a prompt. -/
  script : Option String
  /-- The random sources of the tables on which expected answers are evaluated, by the number of lines
  that have been evaluated before. -/
  scratch : Nat → RandomSource

/-- The state of a session, with everything it has written. -/
structure Session where
  work : Workspace
  /-- How many lines have been evaluated without an error. -/
  count : Nat
  /-- The messages of the failed checks. -/
  failures : List String
  output : String

/-- Why a session ends before its lines do. -/
inductive Halt where
  | failure (e : Failure)
  /-- A failed check, by its message. -/
  | warning (message : String)
  | missingScript (name : String)

/-- A step of a session. -/
abbrev SessionM := Action Session Halt

/-- Whether a session goes on after a line. -/
inductive Flow where
  | goOn | stop
deriving DecidableEq, Repr

namespace Session

/-- A session that begins with a workspace. -/
def start (work : Workspace) : Session := ⟨work, 0, [], ""⟩

/-- Writes a text. -/
def emit (text : String) : SessionM Unit := modify fun s => { s with output := s.output ++ text }

/-- Writes a line. -/
def emitLine (text : String) : SessionM Unit := emit (text ++ "\n")

/-- Runs a step of evaluation. -/
def inWork {α : Type} (step : EvalM α) : SessionM α := fun s =>
  match step s.work with
  | (.ok a, w) => (.ok a, { s with work := w })
  | (.error e, w) => (.error (.failure e), { s with work := w })

/-- The prompt of the line with a number. -/
def promptText (count : Nat) (arrow : String) : String :=
  "$" ++ toString count ++ " " ++ arrow ++ " "

/-- The prompt before a line. -/
def prompt : SessionM String := return promptText (← get).count "❮"

/-- The value as the session shows it. -/
def shown (s : Settings) (v : Value) : SessionM String :=
  inWork (EvalM.lift (Display.value s.math s.precision v))

/-- How many lines have been evaluated, those whose checks failed among them. -/
def evaluated (t : Session) : Nat := t.count + t.failures.length

/-! ## Checks -/

/-- Whether a result is as near to the expected answer as it has to be. -/
def matchesAnswer (tolerance : Float) : Value → Value → Bool
  | .number z, .number w => (z - w).abs ≤ tolerance
  | .none, .none => true
  | _, _ => false

/-- Compares a result with the expected answer, which is evaluated apart. -/
def check (s : Settings) (m : Mode) (code answer : List Char) (result : Value) : SessionM Unit := do
  let random := m.scratch (← get).evaluated
  let expected ← inWork (EvalM.apart random (EvalM.evalText s (String.ofList answer)))
  if matchesAnswer s.tolerance result expected then
    if m.verbose then emitLine "--- OK! ---"
  else
    throw (.warning ("--- Fail! Expected answer of " ++ String.ofList (Text.trim code) ++ " is " ++
      String.ofList answer ++ ", but actual result is " ++ (← shown s result) ++ " ---"))

/-! ## Lines -/

/-- Evaluates a line, shows its result and compares it with the expected answer. -/
def evaluate (s : Settings) (m : Mode) (code answer : List Char) : SessionM Unit := do
  let v ← inWork (EvalM.evalText s (String.ofList code))
  match v with
  | .number _ =>
    if m.verbose then
      emitLine (promptText (← get).count "=" ++ (← shown s v))
  | .none => pure ()
  if m.test && !answer.isEmpty then check s m code answer v
  modify fun s => { s with count := s.count + 1 }

/-- Shows the variables of the session. -/
def listVariables (s : Settings) : SessionM Unit := do
  (← get).work.userVariables.forM fun v => do
    emitLine (v.name ++ ": " ++ (← shown s v.value))

/-- Shows an error of the language below the prompt, and gives up on any other failure and in test
mode. -/
def report (m : Mode) (prompt : String) (h : Halt) : SessionM Unit := do
  match h with
  | .warning message =>
    emitLine message
    modify fun s => { s with failures := s.failures ++ [message] }
    if (← get).work.journal.enabled then throw h
  | .failure (.noExpression e) =>
    let indent := String.ofList (List.replicate (prompt.length + e.offset) ' ')
    emitLine (indent ++ "^\n" ++ indent ++ e.message)
    if m.test then throw h
  | .failure (.noValue e) =>
    let indent := String.ofList (List.replicate (prompt.length - 3) ' ')
    emitLine (indent ++ "👎 " ++ e.kind.title ++ ": " ++ e.message)
    if m.test then throw h
  | _ => throw h

/-- Does a step, reports its error and goes on. -/
def reporting (m : Mode) (prompt : String) (step : SessionM Unit) : SessionM Flow := do
  try step catch h => report m prompt h
  return .goOn

/-- Processes one line. -/
def line (s : Settings) (m : Mode) (text : String) : SessionM Flow := do
  let prompt ← prompt
  let cs := text.toList
  if !m.test && "#TEST".toList.isPrefixOf cs then return .stop
  let (code, comment) := Text.cutAt '#' cs
  let word := String.ofList (Text.trim code)
  if word.isEmpty then return .goOn
  if m.verbose && m.script.isSome then emitLine (prompt ++ String.ofList code)
  if word = "exit" then
    emitLine "\nSee you! 👋"
    return .stop
  else if word = "clear" then reporting m prompt (inWork EvalM.clear)
  else if word = "dir" then reporting m prompt (listVariables s)
  else reporting m prompt (evaluate s m code (Text.trim comment))

/-- The prompt at which a line is typed. -/
def showPrompt (m : Mode) : SessionM Unit := do
  if m.script.isNone then emit (← prompt)

/-- Processes lines until one of them stops the session. -/
def lines (s : Settings) (m : Mode) : List String → SessionM Unit
  | [] => showPrompt m
  | text :: rest => do
    showPrompt m
    match ← line s m text with
    | .goOn => lines s m rest
    | .stop => pure ()

/-- The congratulation after a test without failures. -/
def finish (m : Mode) : SessionM Unit := do
  if m.test && (← get).failures.isEmpty then
    emitLine ("\nCongratulations, tests all passed in \"" ++ m.script.getD "None" ++ "\"!\n")

/-- Processes the lines of a session and ends it. -/
def run (s : Settings) (m : Mode) (input : List String) : SessionM Unit := do
  lines s m input
  finish m

/-! ## Scripts -/

/-- The lines from an index on, where a negative index counts from the end. -/
def linesFrom (start : Int) (input : List String) : List String :=
  if 0 ≤ start then input.drop start.toNat else input.drop (input.length - start.natAbs)

/-- Runs the script of the mode, found by its name, or the typed lines if there is none. -/
def runInput (s : Settings) (m : Mode) (files : String → Option String) (typed : List String)
    (start : Int) : SessionM Unit :=
  match m.script with
  | none => run s m typed
  | some name =>
    match files name with
    | some text => run s m (linesFrom start (Text.lines text))
    | none => throw (.missingScript name)

end Session
end ComplexCalc
