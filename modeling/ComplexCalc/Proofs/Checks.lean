import ComplexCalc.Proofs.Debugging
import ComplexCalc.Proofs.Transcripts
/-!
# Checks observe a session

In test mode a session evaluates the comment of a line on a new table and compares it with the value of
the line. While debugging is off that leaves nothing behind but a message where the two differ, so a
session in test mode takes the workspace through the same states as a session that ignores the comments.
-/
namespace ComplexCalc

/-! ## What is evaluated apart -/

namespace EvalM

variable {s : Settings} {w : Workspace}

theorem journal_evalText (hw : w.journal.enabled = false) (text : String) :
    (evalText s text w).2.journal = w.journal := (evalText_quiet s text w).eq_of_disabled hw

theorem journal_clear (hw : w.journal.enabled = false) : (clear w).2.journal = w.journal := by
  have hrecord : ∀ event, w.journal.record event = w.journal := fun event => if_neg (by simp [hw])
  unfold clear modifyTable
  rw [Action.bind_ok (Action.modify_apply _ _), Action.bind_ok (Action.modify_apply _ _),
    Silent.register]
  exact hrecord _

theorem apart_apply (random : RandomSource) {α : Type} (step : EvalM α) (w : Workspace) :
    apart random step w = ((step (.fresh random true w.journal)).1,
      { w with journal := (step (.fresh random true w.journal)).2.journal }) := rfl

/-- What a text gives on a new table that draws from a source. -/
def expected (s : Settings) (random : RandomSource) (journal : Journal) (answer : List Char) :
    Except Failure Value :=
  (evalText s (String.ofList answer) (.fresh random true journal)).1

/-- While debugging is off, a text evaluated apart leaves nothing behind. -/
theorem apart_evalText (hw : w.journal.enabled = false) (random : RandomSource) (answer : List Char) :
    apart random (evalText s (String.ofList answer)) w = (expected s random w.journal answer, w) := by
  have hfresh : (Workspace.fresh random true w.journal).journal = w.journal :=
    Workspace.journal_fresh random _
  have hjournal := journal_evalText (s := s) (w := .fresh random true w.journal) (by rw [hfresh, hw])
    (String.ofList answer)
  rw [hfresh] at hjournal
  rw [apart_apply, hjournal]
  rfl

end EvalM

/-- While debugging is off, a request leaves the journal as it was. -/
theorem Request.journal_perform {s : Settings} {m : Mode} {w : Workspace}
    (hw : w.journal.enabled = false) (r : Request) : (r.perform s m w).2.journal = w.journal := by
  cases r with
  | test | blank | exit => rfl
  | clear =>
    simp only [perform]
    exact EvalM.journal_clear hw
  | dir =>
    simp only [perform]
    split <;> rfl
  | evaluate code =>
    have hjournal := EvalM.journal_evalText (s := s) hw code
    rcases hv : EvalM.evalText s code w with ⟨e | v, w'⟩ <;> rw [hv] at hjournal
    · rw [perform_error hv]
      exact hjournal
    · rw [perform_ok hv]
      exact hjournal

/-! ## Checks -/

/-- The values differ: two numbers by more than the tolerance, or a number and none. -/
inductive Differs (tolerance : Float) : Value → Value → Prop
  | numbers {z w : Number} : ¬(z - w).abs ≤ tolerance → Differs tolerance (.number z) (.number w)
  | left {z : Number} : Differs tolerance (.number z) .none
  | right {z : Number} : Differs tolerance .none (.number z)

theorem matchesAnswer_eq_false_iff {tolerance : Float} {v a : Value} :
    Session.matchesAnswer tolerance v a = false ↔ Differs tolerance v a := by
  unfold Session.matchesAnswer
  cases v with
  | none =>
    cases a with
    | none => exact iff_of_false (by simp) nofun
    | number z => exact iff_of_true rfl .right
  | number z =>
    cases a with
    | none => exact iff_of_true rfl .left
    | number w => exact decide_eq_false_iff_not.trans ⟨.numbers, fun | .numbers h => h⟩

instance (tolerance : Float) (v a : Value) : Decidable (Differs tolerance v a) :=
  decidable_of_iff _ matchesAnswer_eq_false_iff

/-- The message of a failed check. -/
def failureMessage (code answer : List Char) (shown : String) : String :=
  "--- Fail! Expected answer of " ++ String.ofList (Text.trim code) ++ " is " ++
    String.ofList answer ++ ", but actual result is " ++ shown ++ " ---"

namespace Session

variable {s : Settings} {m : Mode} {t : Session} {v a : Value} {answer : List Char}

theorem inWork_apart (hdebug : t.work.journal.enabled = false) {random : RandomSource}
    (ha : EvalM.expected s random t.work.journal answer = .ok a) :
    inWork (EvalM.apart random (EvalM.evalText s (String.ofList answer))) t = (.ok a, t) := by
  rw [inWork_apply, EvalM.apart_evalText hdebug, ha]
  rfl

/-- A check that fails gives up with a message and leaves the session as it is. -/
theorem check_of_differs (code : List Char) (hdebug : t.work.journal.enabled = false)
    (ha : EvalM.expected s (m.scratch t.evaluated) t.work.journal answer = .ok a)
    (h : Differs s.tolerance v a) {text : String} (hv : Display.value s.math s.precision v = .ok text) :
    check s m code answer v t = (.error (.warning (failureMessage code answer text)), t) := by
  have hshown : shown s v t = (.ok text, t) := by
    rw [shown_apply, hv]
    rfl
  unfold check
  rw [Action.bind_ok (Action.get_apply t), Action.bind_ok (inWork_apart hdebug ha),
    matchesAnswer_eq_false_iff.2 h]
  exact Action.bind_ok hshown

/-- A check that passes shows at most that it does. -/
theorem check_of_not_differs (code : List Char) (hdebug : t.work.journal.enabled = false)
    (ha : EvalM.expected s (m.scratch t.evaluated) t.work.journal answer = .ok a)
    (h : ¬Differs s.tolerance v a) :
    ∃ output, check s m code answer v t = (.ok (), { t with output := output }) := by
  have hmatches : matchesAnswer s.tolerance v a = true :=
    Bool.eq_true_of_not_eq_false fun hfalse => h (matchesAnswer_eq_false_iff.1 hfalse)
  unfold check
  rw [Action.bind_ok (Action.get_apply t), Action.bind_ok (inWork_apart hdebug ha), hmatches]
  by_cases hverbose : m.verbose = true
  · exact ⟨_, (congrFun (if_pos hverbose) t).trans (emit_apply _ _)⟩
  · exact ⟨_, congrFun (if_neg hverbose) t⟩

end Session

theorem filterMap_concat {α β : Type} (f : α → Option β) (xs : List α) (x : α) :
    (xs ++ [x]).filterMap f = xs.filterMap f ++ (f x).toList := by
  rw [List.filterMap_append]
  cases hx : f x <;> simp [hx]

theorem exists_of_isOk {ε α : Type} {r : Except ε α} (h : r.isOk = true) : ∃ a, r = .ok a := by
  cases r with
  | error e => cases h
  | ok a => exact ⟨a, rfl⟩

/-! ## Lines in test mode -/

/-- The text of a value. -/
def displayed (s : Settings) (v : Value) : String := (Display.value s.math s.precision v).toOption.getD ""

namespace Exchange

/-- Neither the line, nor its expected answer, nor a display of its value raises an error. -/
def flawless (s : Settings) (random : RandomSource) (journal : Journal) (x : Exchange) : Bool :=
  match Request.ofLine x.line, x.outcome with
  | .evaluate _, .value v _ =>
    let answer := Session.commentOf x.line
    answer.isEmpty || match EvalM.expected s random journal answer with
      | .ok a => !decide (Differs s.tolerance v a) || (Display.value s.math s.precision v).isOk
      | .error _ => false
  | .evaluate _, _ => false
  | _, _ => true

/-- The message of the check of a line, if its value differs from the expected answer. -/
def failedCheck? (s : Settings) (random : RandomSource) (journal : Journal) (x : Exchange) :
    Option String :=
  let answer := Session.commentOf x.line
  match x.outcome, EvalM.expected s random journal answer with
  | .value v _, .ok a =>
    if answer ≠ [] ∧ Differs s.tolerance v a then
      some (failureMessage (Session.codeOf x.line) answer (displayed s v))
    else none
  | _, _ => none

section
variable {s : Settings} {random : RandomSource} {journal : Journal} {line : String} {v a : Value}
variable {text : Option String}

theorem failedCheck?_of_command {o : Outcome} (h : o.isValue = false) :
    failedCheck? s random journal ⟨line, o⟩ = none := by
  unfold failedCheck?
  cases o with
  | value => cases h
  | _ => rfl

theorem failedCheck?_of_empty (h : Session.commentOf line = []) :
    failedCheck? s random journal ⟨line, .value v text⟩ = none := by
  unfold failedCheck?
  dsimp only
  split
  · exact if_neg fun hne => hne.1 h
  · rfl

theorem failedCheck?_of_answer (h : Session.commentOf line ≠ [])
    (ha : EvalM.expected s random journal (Session.commentOf line) = .ok a) :
    failedCheck? s random journal ⟨line, .value v text⟩ =
      if Differs s.tolerance v a then
        some (failureMessage (Session.codeOf line) (Session.commentOf line) (displayed s v))
      else none := by
  simp only [failedCheck?, ha, h, ne_eq, not_false_eq_true, true_and]

theorem expected_of_flawless {code : String} (hcode : Request.ofLine line = .evaluate code)
    (h : Session.commentOf line ≠ []) (hflawless : flawless s random journal ⟨line, .value v text⟩ = true) :
    ∃ a, EvalM.expected s random journal (Session.commentOf line) = .ok a ∧
      (Differs s.tolerance v a → (Display.value s.math s.precision v).isOk = true) := by
  rcases ha : EvalM.expected s random journal (Session.commentOf line) with e | a
  · simp [flawless, hcode, ha, h] at hflawless
  · simp only [flawless, hcode, ha, Bool.or_eq_true, List.isEmpty_iff, h, false_or,
      Bool.not_eq_true', decide_eq_false_iff_not] at hflawless
    exact ⟨a, rfl, fun hdiffers => hflawless.resolve_left (not_not_intro hdiffers)⟩

end

end Exchange

namespace Session

variable {s : Settings} {m : Mode} {t : Session}

/-- While debugging is off, the message of a failed check is shown and kept, and the session goes on. -/
theorem report_warning (hdebug : t.work.journal.enabled = false) (prompt message : String) :
    report m prompt (.warning message) t = (.ok (), { t with
      failures := t.failures ++ [message], output := t.output ++ (message ++ "\n") }) := by
  unfold report
  dsimp only
  rw [Action.bind_ok (x := emitLine message) (emit_apply _ _), Action.bind_ok (Action.modify_apply _ _),
    Action.bind_ok (Action.get_apply _)]
  exact congrFun (if_neg (by simp [hdebug])) _

/-- A flawless line goes on with the workspace that its evaluation has left, whether its check fails or
not. -/
theorem reporting_checked (hm : m.test = true) {line code : String}
    (hcode : Request.ofLine line = .evaluate code) {v : Value} {text : Option String} {w : Workspace}
    (hv : EvalM.evalText s (String.ofList (codeOf line)) t.work = (.ok v, w))
    (hshown : shownText s m v = .ok text) (hdebug : w.journal.enabled = false)
    (hflawless : Exchange.flawless s (m.scratch t.evaluated) w.journal ⟨line, .value v text⟩ = true)
    (prompt : String) :
    ∃ u, reporting m prompt (evaluate s m (codeOf line) (commentOf line)) t = (.ok .goOn, u) ∧
      u.work = w ∧ u.evaluated = t.evaluated + 1 ∧ u.failures = t.failures ++
        (Exchange.failedCheck? s (m.scratch t.evaluated) w.journal ⟨line, .value v text⟩).toList := by
  have heval := evaluate_value (m := m) (commentOf line) hv
  rw [hshown] at heval
  by_cases hempty : commentOf line = []
  · have hcondition : ¬(m.test && !(commentOf line).isEmpty) = true := by simp [hempty]
    refine ⟨_, reporting_ok (heval.trans (congrFun (if_neg hcondition) _)) prompt, rfl, ?_, ?_⟩
    · exact Nat.add_right_comm ..
    · rw [Exchange.failedCheck?_of_empty hempty]
      exact (List.append_nil _).symm
  · have hcondition : (m.test && !(commentOf line).isEmpty) = true := by simp [hm, hempty]
    have hchecked := heval.trans (congrFun (if_pos hcondition) _)
    obtain ⟨a, ha, hdisplay⟩ := Exchange.expected_of_flawless hcode hempty hflawless
    rw [Exchange.failedCheck?_of_answer hempty ha]
    by_cases hdiffers : Differs s.tolerance v a
    · obtain ⟨shown, hd⟩ := exists_of_isOk (hdisplay hdiffers)
      have hcheck := check_of_differs (m := m) (codeOf line)
        (t := { t with work := w, output := t.output ++ Outcome.text t.count (.value v text) })
        hdebug ha hdiffers hd
      rw [Action.bind_error hcheck] at hchecked
      refine ⟨_, (reporting_error hchecked prompt).trans
        (Action.bind_ok (report_warning hdebug prompt _)), rfl, ?_, ?_⟩
      · simp [evaluated, Nat.add_assoc]
      · simp [hdiffers, displayed, hd, Except.toOption]
    · obtain ⟨output, hcheck⟩ := check_of_not_differs (m := m) (codeOf line)
        (t := { t with work := w, output := t.output ++ Outcome.text t.count (.value v text) })
        hdebug ha hdiffers
      rw [Action.bind_ok hcheck] at hchecked
      refine ⟨_, reporting_ok hchecked prompt, rfl, ?_, ?_⟩
      · exact Nat.add_right_comm ..
      · simp [hdiffers]

end Session

namespace Ledger

/-- The lines with the numbers of lines that had been evaluated before them. -/
def numbered (l : Ledger) : List (Nat × Exchange) :=
  l.exchanges.mapIdx fun i x => (evaluated (l.exchanges.take i), x)

theorem numbered_append (xs : List Exchange) (x : Exchange) (w w' : Workspace) :
    numbered ⟨xs ++ [x], w⟩ = numbered ⟨xs, w'⟩ ++ [(evaluated xs, x)] :=
  mapIdx_evaluated_concat Prod.mk xs x

/-- The fold forgets no line and no number. -/
theorem numbered_prefix {s : Settings} {m : Mode} (l : Ledger) (input : List String) :
    l.numbered <+: (input.foldl (next s m) l).numbered := by
  induction input generalizing l with
  | nil => exact List.prefix_rfl
  | cons line rest ih =>
    refine List.IsPrefix.trans ?_ (ih (l.next s m line))
    unfold next
    split
    · exact List.prefix_rfl
    · rw [numbered_append _ _ _ l.work]
      exact List.prefix_append _ _

end Ledger

/-- The session has performed the lines of the ledger in test mode. -/
structure Session.Observes (s : Settings) (m : Mode) (journal : Journal) (l : Ledger) (t : Session) :
    Prop where
  work : t.work = l.work
  unrecorded : l.work.journal = journal
  evaluated : t.evaluated = Ledger.evaluated l.exchanges
  failures : t.failures = l.numbered.filterMap fun x => x.2.failedCheck? s (m.scratch x.1) journal

namespace Session.Observes

variable {s : Settings} {m : Mode} {journal : Journal} {l : Ledger} {t : Session}

/-- A line that does not end the session adds one step to the fold, and a message if its check fails. -/
theorem next (hm : m.test = true) (hl : l.failure? = none) (h : Observes s m journal l t)
    (hdebug : journal.enabled = false) {line : String} (hline : (Request.ofLine line).ends = false)
    (hflawless : ∀ x ∈ (l.next s m line).numbered, x.2.flawless s (m.scratch x.1) journal = true) :
    ∃ u, (do
        showPrompt m
        Session.line s m line : SessionM Flow) t = ((l.next s m line).result .goOn, u) ∧
      Observes s m journal (l.next s m line) u := by
  rw [Action.bind_ok (showPrompt_apply t)]
  rcases hp : (Request.ofLine line).perform s m l.work with ⟨o, w⟩
  have hnext := Ledger.next_of_perform hl hp
  have hjournal : w.journal = journal := by
    have hperform := Request.journal_perform (s := s) (m := m) (w := l.work)
      (by rw [h.unrecorded, hdebug]) (Request.ofLine line)
    rwa [hp, h.unrecorded] at hperform
  have hnumbered := Ledger.numbered_append l.exchanges ⟨line, o⟩ w l.work
  have hx : Exchange.flawless s (m.scratch t.evaluated) journal ⟨line, o⟩ = true := by
    rw [h.evaluated]
    exact hflawless (Ledger.evaluated l.exchanges, _) (by rw [hnext, hnumbered]; simp)
  have hresult : Ledger.result ⟨l.exchanges ++ [⟨line, o⟩], w⟩ Flow.goOn =
      raising o.failure? .goOn := by
    rw [Ledger.result, Ledger.failure?_append]
  rw [hnext, hresult]
  by_cases hevaluate : ∃ code, Request.ofLine line = .evaluate code
  · obtain ⟨code, hcode⟩ := hevaluate
    cases o with
    | value v text =>
      obtain ⟨code', hcode', hv, hshown⟩ := Request.perform_eq_value hp
      rw [Request.evaluate_code hcode', ← h.work] at hv
      obtain ⟨u, hu, hwork, hevaluated, hfailures⟩ := reporting_checked hm hcode
        (t := { t with output := t.output ++ asked m t.count ++ echo m t.count line }) hv hshown
        (by rw [hjournal, hdebug]) (by rw [hjournal]; exact hx) (promptText t.count "❮")
      refine ⟨u, (line_evaluate hcode _).trans hu, hwork, hjournal, ?_, ?_⟩
      · rw [hevaluated, Ledger.evaluated_append]
        exact congrArg (· + 1) h.evaluated
      · rw [hnumbered, filterMap_concat, ← h.evaluated, ← h.failures, ← hjournal]
        exact hfailures
    | _ => simp [Exchange.flawless, hcode] at hx
  · have hcommand : ∀ code, Request.ofLine line ≠ .evaluate code := fun code hcode =>
      hevaluate ⟨code, hcode⟩
    have hvalue : o.isValue = false := by
      cases o with
      | value v text =>
        obtain ⟨code, hcode, -⟩ := Request.perform_eq_value hp
        exact absurd hcode (hcommand code)
      | _ => rfl
    have hperformed := line_command (s := s) (m := m) hline hcommand
      { t with output := t.output ++ asked m t.count }
    rw [← h.work] at hp
    rw [hp] at hperformed
    refine ⟨_, hperformed, rfl, hjournal, ?_, ?_⟩
    · rw [Ledger.evaluated_append, hvalue]
      exact h.evaluated
    · rw [hnumbered, filterMap_concat, Exchange.failedCheck?_of_command hvalue]
      exact h.failures.trans (List.append_nil _).symm

/-- The line that ends the session in test mode changes only what is shown. -/
theorem last (h : Observes s m journal l t) {line : String} (htest : Request.ofLine line ≠ .test)
    (hline : (Request.ofLine line).ends = true) :
    ∃ u, (do
        showPrompt m
        Session.line s m line : SessionM Flow) t = (.ok .stop, u) ∧ Observes s m journal l u := by
  have hexit : Request.ofLine line = .exit := by
    cases hrequest : Request.ofLine line with
    | test => exact absurd hrequest htest
    | exit => rfl
    | _ => simp [hrequest, Request.ends] at hline
  rw [Action.bind_ok (showPrompt_apply t), line_apply htest, Action.bind_ok (emit_apply _ _), hexit,
    handle, Action.bind_ok (x := emitLine _) (emit_apply _ _)]
  exact ⟨_, rfl, h.work, h.unrecorded, h.evaluated, h.failures⟩

/-- A session in test mode changes nothing but what is shown when it ends. -/
theorem finish (h : Observes s m journal l t) :
    ∃ u, Session.finish m t = (.ok (), u) ∧ Observes s m journal l u := by
  unfold Session.finish
  rw [Action.bind_ok (Action.get_apply _)]
  by_cases hcongratulated : (m.test && t.failures.isEmpty) = true
  · exact ⟨_, (congrFun (if_pos hcongratulated) t).trans (emit_apply _ _), h.work, h.unrecorded,
      h.evaluated, h.failures⟩
  · exact ⟨t, congrFun (if_neg hcongratulated) t, h⟩

/-- A run in test mode goes on with the fold, if every line of it is flawless. -/
theorem lines (hm : m.test = true) (hdebug : journal.enabled = false) {input : List String}
    (htest : ∀ line ∈ input, Request.ofLine line ≠ .test) (hl : l.failure? = none)
    (h : Observes s m journal l t)
    (hflawless : ∀ x ∈ ((Ledger.processed input).foldl (Ledger.next s m) l).numbered,
      x.2.flawless s (m.scratch x.1) journal = true) :
    ∃ u, Session.lines s m input t =
        (((Ledger.processed input).foldl (Ledger.next s m) l).result (), u) ∧
      Observes s m journal ((Ledger.processed input).foldl (Ledger.next s m) l) u := by
  induction input generalizing l t with
  | nil =>
    refine ⟨{ t with output := t.output ++ asked m t.count }, ?_, h.work, h.unrecorded, h.evaluated,
      h.failures⟩
    rw [Session.lines, showPrompt_apply]
    simp [Ledger.processed, Ledger.result, hl]
  | cons line rest ih =>
    rw [lines_cons]
    by_cases hline : (Request.ofLine line).ends = true
    · obtain ⟨u, hu, hlast⟩ := h.last (m := m) (htest line List.mem_cons_self) hline
      have hprocessed : Ledger.processed (line :: rest) = [] := by simp [Ledger.processed, hline]
      rw [hprocessed, List.foldl_nil, hu]
      exact ⟨u, by simp [Ledger.result, hl], hlast⟩
    · have hline := Bool.eq_false_iff.2 hline
      have hprocessed : Ledger.processed (line :: rest) = line :: Ledger.processed rest := by
        simp [Ledger.processed, hline]
      rw [hprocessed, List.foldl_cons] at hflawless ⊢
      obtain ⟨u, hu, hnext⟩ := h.next hm hl hdebug hline fun x hx =>
        hflawless x ((Ledger.numbered_prefix _ _).mem hx)
      rw [hu]
      rcases hfailure : (l.next s m line).failure? with - | e
      · rw [Ledger.result, hfailure]
        exact ih (fun line hline => htest line (List.mem_cons_of_mem _ hline)) hfailure hnext hflawless
      · rw [Ledger.foldl_of_failed (by rw [hfailure]; rfl)]
        refine ⟨u, ?_, hnext⟩
        simp [Ledger.result, hfailure]

end Session.Observes

/-- Test mode observes a session without interfering, whatever its checks draw. A session that is run with
its comments checked ends as the session that ignores them, with the same workspace, and its failures are
the messages of the lines whose values differ from their expected answers. -/
theorem Session.checks_observe (s : Settings) (verbose : Bool) (script : Option String)
    (scratch : Nat → RandomSource) {w : Workspace} (hdebug : w.journal.enabled = false)
    {input : List String} (htest : ∀ line ∈ input, Request.ofLine line ≠ .test)
    (hflawless : ∀ x ∈ (Ledger.fold s ⟨false, verbose, script, scratch⟩ w input).numbered,
      x.2.flawless s (scratch x.1) w.journal = true) :
    let checked := run s ⟨true, verbose, script, scratch⟩ input (start w)
    let plain := run s ⟨false, verbose, script, scratch⟩ input (start w)
    checked.1 = plain.1 ∧ checked.2.work = plain.2.work ∧ checked.2.failures =
      (Ledger.fold s ⟨false, verbose, script, scratch⟩ w input).numbered.filterMap
        fun x => x.2.failedCheck? s (scratch x.1) w.journal := by
  intro checked plain
  have hplain : plain = _ := Ledger.run_apply (m := ⟨false, verbose, script, scratch⟩) rfl w input
  have hchecked : checked = run s ⟨true, verbose, script, scratch⟩ input (start w) := rfl
  have hstart : Observes s ⟨true, verbose, script, scratch⟩ w.journal ⟨[], w⟩ (start w) :=
    ⟨rfl, rfl, rfl, rfl⟩
  obtain ⟨u, hlines, hu⟩ := hstart.lines rfl hdebug htest rfl hflawless
  -- The fold does not depend on whether comments are checked.
  change Session.lines s ⟨true, verbose, script, scratch⟩ input (start w) =
    ((Ledger.fold s ⟨false, verbose, script, scratch⟩ w input).result (), u) at hlines
  unfold run at hchecked
  rw [Action.bind_apply, hlines] at hchecked
  rcases hresult : (Ledger.fold s ⟨false, verbose, script, scratch⟩ w input).result () with e | ⟨⟩ <;>
    rw [hresult] at hplain hchecked
  · rw [hplain, hchecked]
    exact ⟨rfl, hu.work, hu.failures⟩
  · obtain ⟨u', hfinish, hu'⟩ := hu.finish
    rw [hplain, hchecked]
    dsimp only
    rw [hfinish]
    exact ⟨rfl, hu'.work, hu'.failures⟩

/-- The second check fails, and the third line still has the values that the second has left. What an
expected answer assigns stays on its own table. -/
theorem Session.checks_observe_of_script :
    let w := Workspace.fresh default true (.fresh false)
    let input := ["x = 2  # 2", "x * 2  # 5", "x + Ans  # x = 6", "x"]
    let checked := run .standard ⟨true, true, some "lines.cal", default⟩ input (start w)
    let plain := run .standard ⟨false, true, some "lines.cal", default⟩ input (start w)
    checked.1 = plain.1 ∧ checked.2.work = plain.2.work ∧ checked.2.failures =
      ["--- Fail! Expected answer of x * 2 is 5, but actual result is 4 ---"] := by
  intro w input
  have htest : ∀ line ∈ input, Request.ofLine line ≠ .test := by decide +kernel
  have hflawless : ∀ x ∈ (Ledger.fold .standard ⟨false, true, some "lines.cal", default⟩ w input).numbered,
      x.2.flawless .standard default w.journal = true := by decide +kernel
  have hmessages : (Ledger.fold .standard ⟨false, true, some "lines.cal", default⟩ w input).numbered.filterMap
      (fun x => x.2.failedCheck? .standard default w.journal) =
        ["--- Fail! Expected answer of x * 2 is 5, but actual result is 4 ---"] := by
    decide +kernel
  obtain ⟨hresult, hwork, hfailures⟩ :=
    checks_observe .standard true (some "lines.cal") default (w := w) rfl htest hflawless
  exact ⟨hresult, hwork, hfailures.trans hmessages⟩

end ComplexCalc
