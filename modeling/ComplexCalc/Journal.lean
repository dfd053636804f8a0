/-!
# Journal

A journal records the calls of parsing and evaluation while debugging is on. `traced` surrounds an
action with an entry for the call and an entry for its end, two columns to the left of what the
action itself records; while debugging is off it is the action and nothing else.
-/
namespace ComplexCalc

/-- What a journal records. A call and its end have the same signature. -/
inductive Event where
  | note (message : String)
  | call (signature : String)
  | returned (signature result : String)
  | failed (signature reason : String)
deriving DecidableEq, Repr

def Event.text : Event → String
  | note message => message
  | call signature => signature ++ ":"
  | returned signature result => signature ++ " ==> " ++ result
  | failed signature reason => signature ++ " exited due to " ++ reason

/-- An event at a column. -/
structure Entry where
  indent : Nat
  event : Event
deriving DecidableEq, Repr

/-- A message after `indent` blanks. -/
def indented (indent : Nat) (message : String) : String :=
  String.ofList (List.replicate indent ' ') ++ message

/-- The line of an entry. -/
def Entry.text (e : Entry) : String := indented e.indent e.event.text ++ "\n"

/-- The entries so far, and the column of the next one. -/
structure Journal where
  enabled : Bool
  indent : Nat
  entries : Array Entry
deriving Repr

namespace Journal

/-- An empty journal. -/
def fresh (enabled : Bool) : Journal := ⟨enabled, 0, #[]⟩

/-- The lines of all entries. -/
def text (j : Journal) : String := j.entries.foldl (fun s e => s ++ e.text) ""

/-- The journal with an entry at its column, if debugging is on. -/
def record (j : Journal) (event : Event) : Journal :=
  if j.enabled then { j with entries := j.entries.push ⟨j.indent, event⟩ } else j

def deeper (j : Journal) : Journal := { j with indent := j.indent + 2 }
def shallower (j : Journal) : Journal := { j with indent := j.indent - 2 }

end Journal

/-- A computation on a state `σ` that may fail with `ε`; a failure keeps the state it reached. -/
abbrev Action (σ ε α : Type) := ExceptT ε (StateM σ) α

/-- A state with a journal in it. -/
class Journaled (σ : Type) where
  journal : σ → Journal
  withJournal : σ → Journal → σ

/-- The state with its journal changed. -/
def Journaled.update {σ : Type} [Journaled σ] (f : Journal → Journal) (s : σ) : σ :=
  withJournal s (f (journal s))

open Journaled in
/-- The action between two entries: the call, by its `signature`, and what it gave or why it
failed. The text of a result may itself fail, and then the call has no second entry. -/
def traced {σ ε α : Type} [Journaled σ] (signature : σ → String) (explain : ε → String)
    (describe : α → Except ε String) (action : Action σ ε α) : Action σ ε α := fun s =>
  if (journal s).enabled then
    let call := signature s
    match action (update (fun j => (j.record (.call call)).deeper) s) with
    | (.ok a, t) =>
      let t := update Journal.shallower t
      match describe a with
      | .ok result => (.ok a, update (·.record (.returned call result)) t)
      | .error e => (.error e, t)
    | (.error e, t) => (.error e, update (·.shallower.record (.failed call (explain e))) t)
  else action s

/-- While debugging is off, tracing changes nothing. -/
theorem traced_of_disabled {σ ε α : Type} [Journaled σ] {signature : σ → String}
    {explain : ε → String} {describe : α → Except ε String} {action : Action σ ε α} {s : σ}
    (h : (Journaled.journal s).enabled = false) :
    traced signature explain describe action s = action s := by
  simp [traced, h]

end ComplexCalc
