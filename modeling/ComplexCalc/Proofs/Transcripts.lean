import ComplexCalc.Proofs.Requests
/-!
# A session as a fold over its lines

A session folds over its lines up to the one that ends it: each line is performed on the workspace that
the lines before it have left, and the transcript shows what came of it under the number of lines that
had been evaluated before. A failure that the language does not foresee ends the fold.
-/
namespace ComplexCalc

/-- A line and what came of it. -/
structure Exchange where
  line : String
  outcome : Outcome

/-- What is shown of a line under a number. -/
def Exchange.text (m : Mode) (number : Nat) (x : Exchange) : String :=
  Session.asked m number ++ Session.echo m number x.line ++ x.outcome.text number

/-- The lines that a session has performed, and the workspace that they have left. -/
structure Ledger where
  exchanges : List Exchange
  work : Workspace

namespace Ledger

/-- How many of some lines have been evaluated without an error. -/
def evaluated (xs : List Exchange) : Nat := xs.countP (·.outcome.isValue)

/-- The failure that the last line has raised. -/
def failure? (l : Ledger) : Option Failure := l.exchanges.getLast?.bind (·.outcome.failure?)

/-- Performs one more line, unless the last one has raised a failure. -/
def next (s : Settings) (m : Mode) (l : Ledger) (line : String) : Ledger :=
  if l.failure?.isSome then l
  else
    let (outcome, work) := (Request.ofLine line).perform s m l.work
    ⟨l.exchanges ++ [⟨line, outcome⟩], work⟩

/-- The lines before the one that ends the session. -/
def processed (input : List String) : List String :=
  input.takeWhile fun line => !(Request.ofLine line).ends

/-- The line that ends the session. -/
def last? (input : List String) : Option String := input.find? fun line => (Request.ofLine line).ends

/-- The fold over the lines of a session. -/
def fold (s : Settings) (m : Mode) (w : Workspace) (input : List String) : Ledger :=
  (processed input).foldl (next s m) ⟨[], w⟩

/-- Every line is shown under the number of lines that had been evaluated before it. -/
def transcript (m : Mode) (l : Ledger) : String :=
  String.join (l.exchanges.mapIdx fun i x => x.text m (evaluated (l.exchanges.take i)))

/-- What is shown after the performed lines: a prompt, and the answer to `exit`. -/
def closing (m : Mode) (l : Ledger) (last : Option String) : String :=
  if l.failure?.isSome then ""
  else
    let number := evaluated l.exchanges
    Session.asked m number ++ match last with
      | some line =>
        if Request.ofLine line = .exit then Session.echo m number line ++ "\nSee you! 👋\n" else ""
      | none => ""

/-- How a session ends. -/
def result {α : Type} (l : Ledger) (a : α) : Except Halt α := Session.raising l.failure? a

/-- The session that has performed the lines, and has shown a text after them. -/
def session (m : Mode) (l : Ledger) (text : String) : Session :=
  ⟨l.work, evaluated l.exchanges, [], l.transcript m ++ text⟩

variable {s : Settings} {m : Mode} {l : Ledger}

/-- What is made of each line and the number of lines that had been evaluated before it, with one more
line. -/
theorem mapIdx_evaluated_concat {α : Type} (f : Nat → Exchange → α) (xs : List Exchange) (x : Exchange) :
    ((xs ++ [x]).mapIdx fun i y => f (evaluated ((xs ++ [x]).take i)) y) =
      (xs.mapIdx fun i y => f (evaluated (xs.take i)) y) ++ [f (evaluated xs) x] := by
  have htake : (xs.mapIdx fun i y => f (evaluated ((xs ++ [x]).take i)) y) =
      xs.mapIdx fun i y => f (evaluated (xs.take i)) y := by
    refine List.ext_getElem (by simp) fun i hi _ => ?_
    have hle : i ≤ xs.length := by
      rw [List.length_mapIdx] at hi
      omega
    rw [List.getElem_mapIdx, List.getElem_mapIdx, List.take_append_of_le_length hle]
  rw [List.mapIdx_concat, htake, List.take_left]

theorem transcript_append (xs : List Exchange) (x : Exchange) (w w' : Workspace) :
    transcript m ⟨xs ++ [x], w⟩ = transcript m ⟨xs, w'⟩ ++ x.text m (evaluated xs) := by
  simp only [transcript, mapIdx_evaluated_concat fun n y => Exchange.text m n y, String.join_append,
    String.join_cons, String.join_nil, String.append_empty]

theorem evaluated_append (xs : List Exchange) (x : Exchange) :
    evaluated (xs ++ [x]) = evaluated xs + x.outcome.isValue.toNat := by
  cases hx : x.outcome.isValue <;> simp [evaluated, hx]

@[simp] theorem failure?_append (xs : List Exchange) (x : Exchange) (w : Workspace) :
    failure? ⟨xs ++ [x], w⟩ = x.outcome.failure? := by
  simp [failure?]

theorem next_of_perform (hl : l.failure? = none) {line : String} {o : Outcome} {w : Workspace}
    (hp : (Request.ofLine line).perform s m l.work = (o, w)) :
    l.next s m line = ⟨l.exchanges ++ [⟨line, o⟩], w⟩ := by
  rw [next, hl, hp]
  rfl

theorem next_of_failed (hl : l.failure?.isSome) (line : String) : l.next s m line = l := if_pos hl

theorem foldl_of_failed (hl : l.failure?.isSome) (input : List String) :
    input.foldl (next s m) l = l := by
  induction input with
  | nil => rfl
  | cons line rest ih => rw [List.foldl_cons, next_of_failed hl, ih]

section Step
variable (hm : m.test = false) (hl : l.failure? = none)
include hm hl

/-- A line that does not end the session adds one step to the fold. -/
theorem session_next {line : String} (hline : (Request.ofLine line).ends = false) :
    (do
      Session.showPrompt m
      Session.line s m line : SessionM Flow) (l.session m "") =
      ((l.next s m line).result .goOn, (l.next s m line).session m "") := by
  rw [Action.bind_ok (Session.showPrompt_apply _), Session.line_perform hm hline]
  rcases hp : (Request.ofLine line).perform s m l.work with ⟨o, w⟩
  rw [next_of_perform hl hp]
  simp [session, Session.advance, hp, result, evaluated_append,
    transcript_append l.exchanges _ w l.work, Exchange.text, String.append_assoc]

/-- The line that ends the session is answered if it is `exit`. -/
theorem session_last {line : String} (hline : (Request.ofLine line).ends = true) :
    (do
      Session.showPrompt m
      Session.line s m line : SessionM Flow) (l.session m "") =
      (.ok .stop, l.session m (l.closing m (some line))) := by
  rw [Action.bind_ok (Session.showPrompt_apply _)]
  rcases hrequest : Request.ofLine line with - | - | - | - | - | code <;>
    rw [hrequest] at hline <;> cases hline
  · rw [Session.line_test hm hrequest]
    simp [session, closing, hl, hrequest]
  · rw [Session.line_apply (by rw [hrequest]; exact nofun), Action.bind_ok (Session.emit_apply _ _),
      hrequest, Session.handle]
    have hfarewell : "\nSee you! 👋" ++ "\n" = "\nSee you! 👋\n" := rfl
    rw [Action.bind_ok (x := Session.emitLine _) (Session.emit_apply _ _), hfarewell]
    simp [session, closing, hl, hrequest, String.append_assoc]

/-- A run from a ledger goes on with the fold. -/
theorem lines_fold (input : List String) : Session.lines s m input (l.session m "") =
    (((processed input).foldl (next s m) l).result (),
      ((processed input).foldl (next s m) l).session m
        (((processed input).foldl (next s m) l).closing m (last? input))) := by
  induction input generalizing l with
  | nil =>
    rw [Session.lines, Session.showPrompt_apply]
    simp [processed, last?, result, hl, session, closing]
  | cons line rest ih =>
    rw [Session.lines_cons]
    by_cases hline : (Request.ofLine line).ends = true
    · rw [session_last hm hl hline]
      simp [processed, last?, hline, result, hl]
    · have hline := Bool.eq_false_iff.2 hline
      have hprocessed : processed (line :: rest) = line :: processed rest := by
        simp [processed, hline]
      have hlast : last? (line :: rest) = last? rest := by simp [last?, hline]
      rw [session_next hm hl hline, hprocessed, hlast, List.foldl_cons]
      rcases hnext : (l.next s m line).failure? with - | e
      · simp only [result, hnext]
        exact ih hnext
      · rw [foldl_of_failed (by rw [hnext]; rfl)]
        simp [result, hnext, closing]

end Step

/-- What comes after the line that ends the session is neither performed nor shown. -/
theorem fold_of_last (s : Settings) (m : Mode) (w : Workspace) (before after : List String)
    {line : String} (hline : (Request.ofLine line).ends = true) :
    fold s m w (before ++ line :: after) = fold s m w (before ++ [line]) ∧
      last? (before ++ line :: after) = last? (before ++ [line]) := by
  have hprocessed : processed (before ++ line :: after) = processed (before ++ [line]) := by
    simp [processed, List.takeWhile_append, hline]
  exact ⟨by rw [fold, hprocessed, fold], by simp [last?, hline]⟩

theorem run_apply (hm : m.test = false) (w : Workspace) (input : List String) :
    Session.run s m input (.start w) = ((fold s m w input).result (), (fold s m w input).session m
      ((fold s m w input).closing m (last? input))) := by
  have hlines := lines_fold (s := s) (l := ⟨[], w⟩) hm rfl input
  change Session.lines s m input (.start w) = ((fold s m w input).result (), _) at hlines
  unfold Session.run
  rw [Action.bind_apply, hlines]
  rcases hresult : (fold s m w input).result () with e | ⟨⟩
  · rfl
  · exact Session.finish_apply hm _

end Ledger

/-- A session is a fold over its lines up to the one that ends it, and its transcript shows what came
of each of them under the number of lines that had been evaluated before. What comes after the line that
ends the session makes no difference. -/
theorem Session.run_fold (s : Settings) {m : Mode} (hm : m.test = false) (w : Workspace) :
    (∀ input, run s m input (start w) =
      ((Ledger.fold s m w input).result (), (Ledger.fold s m w input).session m
        ((Ledger.fold s m w input).closing m (Ledger.last? input)))) ∧
      ∀ before line after after', (Request.ofLine line).ends = true →
        run s m (before ++ line :: after) (start w) = run s m (before ++ line :: after') (start w) := by
  refine ⟨Ledger.run_apply hm w, fun before line after after' hline => ?_⟩
  obtain ⟨hfold, hlast⟩ := Ledger.fold_of_last s m w before after hline
  obtain ⟨hfold', hlast'⟩ := Ledger.fold_of_last s m w before after' hline
  rw [Ledger.run_apply hm, Ledger.run_apply hm, hfold, hlast, hfold', hlast']

/-- A division by zero is reported and not counted, and nothing is evaluated after `exit`. -/
theorem Session.run_fold_of_script :
    let m : Mode := ⟨false, true, some "lines.cal", default⟩
    let w := Workspace.fresh default true (.fresh false)
    let l := Ledger.fold .standard m w ["x = 2", "1/0", "dir", "x * 3  # six", "exit", "x"]
    run .standard m ["x = 2", "1/0", "dir", "x * 3  # six", "exit", "x"] (start w) =
        (l.result (), l.session m (l.closing m (some "exit"))) ∧
      l.transcript m ++ l.closing m (some "exit") = "$0 ❮ x = 2\n$0 = 2\n$1 ❮ 1/0\n" ++
        "  👎 DivisionByZeroError: Division by 0\n$1 ❮ dir\nx: 2\nAns: 2\n" ++
        "$1 ❮ x * 3  \n$1 = 6\n$2 ❮ exit\n\nSee you! 👋\n" ∧
      run .standard m (["x = 2"] ++ "exit" :: ["x"]) (start w) =
        run .standard m (["x = 2"] ++ "exit" :: []) (start w) := by
  intro m w l
  obtain ⟨hrun, hlast⟩ := run_fold .standard (m := m) rfl w
  exact ⟨hrun _, by decide +kernel, hlast ["x = 2"] "exit" ["x"] [] (by decide +kernel)⟩

end ComplexCalc
