import ComplexCalc.Session
/-!
# Command line

The flags `-d` and `-t` turn on debugging and test mode wherever they stand; the first other
argument is the script. Test mode without a script runs `tests/tests.cal`. Each table that a session
makes is given a random source of its own: the table of the session the first one.
-/
namespace ComplexCalc

/-- What the command line asks for. -/
structure Command where
  debug : Bool
  mode : Mode

namespace Command

/-- The script of test mode. -/
def testScript : String := "tests/tests.cal"

/-- The command that arguments ask for. -/
def ofArguments (sources : Nat → RandomSource) (args : List String) : Command :=
  let test := args.contains "-t"
  let script := (args.filter fun a => a != "-d" && a != "-t").head?
  { debug := args.contains "-d"
    mode :=
      { test := test
        verbose := true
        script := if test then some (script.getD testScript) else script
        scratch := fun evaluated => sources (evaluated + 1) } }

/-- The arguments as a list of quoted texts. -/
def argumentsText (args : List String) : String :=
  "[" ++ String.intercalate ", " (args.map Text.quoted) ++ "]"

/-- The session that a command begins with. -/
def session (sources : Nat → RandomSource) (args : List String) : Session :=
  let debug := (ofArguments sources args).debug
  let journal := (Journal.fresh debug).record (.note ("argv: " ++ argumentsText args))
  let s := Session.start (Workspace.fresh (sources 0) true journal)
  if debug then { s with output := "(debug mode)\n" } else s

/-- The exit code of a session that has come to its end. -/
def exitCode (s : Session) : Nat := if s.failures.isEmpty then 0 else 1

/-- Runs a command on the files and the typed lines that it finds, and gives its exit code. -/
def run (s : Settings) (sources : Nat → RandomSource) (args : List String)
    (files : String → Option String) (typed : List String) : Except Halt Nat × Session :=
  let command : SessionM Nat := do
    Session.runInput s (ofArguments sources args).mode files typed 0
    return exitCode (← get)
  command (session sources args)

end Command

/-- The words for the end of a session. -/
def Halt.message : Halt → String
  | failure e => e.message
  | warning message => message
  | missingScript name => "script \"" ++ name ++ "\" not found"

end ComplexCalc
