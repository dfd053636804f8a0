import ComplexCalc.Command
/-!
# The calculator

Runs a script or a session at the prompt on standard input and output; the journal goes to standard
error. The random sources are seeded by the system.
-/
namespace ComplexCalc

/-- Mixes the bits of a counter. -/
def mix (counter : UInt64) : UInt64 :=
  let a := (counter ^^^ (counter >>> 30)) * 0xBF58476D1CE4E5B9
  let b := (a ^^^ (a >>> 27)) * 0x94D049BB133111EB
  b ^^^ (b >>> 31)

/-- The source of a seed, which gives the mixed bits of an arithmetic progression. -/
def mixed (seed : Nat) : RandomSource where
  generator seed n := (mix (UInt64.ofNat seed + UInt64.ofNat (n + 1) * 0x9E3779B97F4A7C15)).toNat
  seed := seed
  drawn := 0

/-- Writes what a session has written and recorded since the last time, and forgets it. -/
def flush (s : Session) : IO Session := do
  let out ← IO.getStdout
  out.putStr s.output
  out.flush
  (← IO.getStderr).putStr s.work.journal.text
  return { s with
    output := ""
    work := { s.work with journal := { s.work.journal with entries := #[] } } }

/-- Flushes the session after a step and gives the result of the step, or its message as an
error. -/
def advance {α : Type} (step : SessionM α) (s : Session) : IO (α × Session) := do
  let (r, s) := step s
  let s ← flush s
  match r with
  | .ok a => return (a, s)
  | .error h => throw (IO.userError h.message)

/-- Reads lines at the prompt until the input ends or a line ends the session. -/
partial def converse (settings : Settings) (mode : Mode) (s : Session) : IO Session := do
  let ((), s) ← advance (Session.showPrompt mode) s
  let text ← (← IO.getStdin).getLine
  if text.isEmpty then return s
  let typed := if text.endsWith "\n" then (text.dropEnd 1).toString else text
  match ← advance (Session.line settings mode typed) s with
  | (.goOn, s) => converse settings mode s
  | (.stop, s) => return s

/-- The file of a name, if it can be read. -/
def file? (name : String) : IO (Option String) := do
  try return some (← IO.FS.readFile name) catch _ => return none

/-- Runs the command that the arguments ask for. -/
def perform (args : List String) : IO UInt32 := do
  let settings := Settings.standard
  let seed := (← IO.getRandomBytes 8).foldl (fun seed byte => 256 * seed + byte.toNat) 0
  let sources := fun n => mixed (seed + n)
  let mode := (Command.ofArguments sources args).mode
  let s := Command.session sources args
  match mode.script with
  | none =>
    let s ← converse settings mode (← flush s)
    return UInt32.ofNat (Command.exitCode s)
  | some name =>
    let text ← file? name
    let ((), s) ← advance (Session.runInput settings mode (fun _ => text) [] 0) s
    return UInt32.ofNat (Command.exitCode s)

end ComplexCalc

def main (args : List String) : IO UInt32 :=
  ComplexCalc.perform args
