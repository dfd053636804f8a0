import ComplexCalc.Display
import ComplexCalc.Journal
/-!
# Log messages

A host program may log messages of its own: texts as they are and values as a session shows them.
-/
namespace ComplexCalc

/-- A message as a log shows it. -/
def Display.message (m : RealFunctions) (precision : Nat) : Native → Except Failure String
  | .value v => value m precision v
  | other => .ok other.plainText

/-- How messages are logged: whether only while debugging is on, at which column, and what stands
between them and after them. -/
structure LogStyle where
  gated : Bool
  indent : Nat
  separator : String
  ending : String

/-- What is logged of some messages. -/
def logText (m : RealFunctions) (precision : Nat) (style : LogStyle) (debug : Bool)
    (messages : List Native) : Except Failure String :=
  if style.gated && !debug then .ok ""
  else do
    let texts ← messages.mapM (Display.message m precision)
    return indented style.indent (String.intercalate style.separator texts) ++ style.ending

end ComplexCalc
