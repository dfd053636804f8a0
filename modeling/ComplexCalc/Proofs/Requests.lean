import ComplexCalc.Proofs.Faults
import ComplexCalc.Proofs.Standard
import ComplexCalc.Session
/-!
# What the lines of a session ask for

A line asks for something, by its text alone, and what comes of it depends on nothing but the
workspace before it: a value, a list of variables, a failure that is reported, or one that ends the
session. The session shows what came of the line and goes on with the workspace that it has left.
-/
namespace ComplexCalc

/-! ## What a line asks for -/

/-- What a line of a session asks for. -/
inductive Request where
  /-- A line that begins the tests of a script. -/
  | test
  | blank
  | exit
  | clear
  | dir
  | evaluate (code : String)
deriving DecidableEq, Repr

/-- A line up to its first `#`. -/
def Session.codeOf (line : String) : List Char := (Text.cutAt '#' line.toList).1

/-- A line after its first `#`, without the blanks around it. -/
def Session.commentOf (line : String) : List Char := Text.trim (Text.cutAt '#' line.toList).2

namespace Request

/-- The request of a line. -/
def ofLine (line : String) : Request :=
  if "#TEST".toList.isPrefixOf line.toList then .test
  else
    let word := String.ofList (Text.trim (Session.codeOf line))
    if word.isEmpty then .blank
    else if word = "exit" then .exit
    else if word = "clear" then .clear
    else if word = "dir" then .dir
    else .evaluate (String.ofList (Session.codeOf line))

/-- Whether the session ends with the request. -/
def ends : Request → Bool
  | test | exit => true
  | _ => false

end Request

/-! ## What comes of a line -/

/-- What comes of a line. -/
inductive Outcome where
  /-- Nothing to show. -/
  | quiet
  /-- The variables of the session. -/
  | listing (entries : List String)
  /-- A value, with its text if it is shown. -/
  | value (v : Value) (shown : Option String)
  /-- A failure that the language foresees. -/
  | refused (e : Failure)
  /-- Any other failure, after some entries have been shown. -/
  | raised (entries : List String) (e : Failure)

namespace Outcome

/-- Whether the line has been evaluated without an error. -/
def isValue : Outcome → Bool
  | value .. => true
  | _ => false

/-- The failure that ends the session. -/
def failure? : Outcome → Option Failure
  | raised _ e => some e
  | _ => none

end Outcome

/-- The entries of a list of variables, up to the first that cannot be shown. -/
def variableEntries (s : Settings) : List Variable → List String × Option Failure
  | [] => ([], none)
  | v :: rest =>
    match Display.value s.math s.precision v.value with
    | .ok text =>
      let (entries, failure) := variableEntries s rest
      ((v.name ++ ": " ++ text) :: entries, failure)
    | .error e => ([], some e)

/-- The text of a value that a session shows: none of nothing, and none in a silent session. -/
def shownText (s : Settings) (m : Mode) (v : Value) : Except Failure (Option String) :=
  match v with
  | .none => .ok none
  | .number _ => if m.verbose then (Display.value s.math s.precision v).map some else .ok none

/-- Performs a request on a workspace. -/
def Request.perform (s : Settings) (m : Mode) (w : Workspace) : Request → Outcome × Workspace
  | .test | .blank | .exit => (.quiet, w)
  | .clear => (.quiet, (EvalM.clear w).2)
  | .dir =>
    match variableEntries s w.userVariables with
    | (entries, none) => (.listing entries, w)
    | (entries, some e) => (.raised entries e, w)
  | .evaluate code =>
    match EvalM.evalText s code w with
    | (.ok v, w') =>
      match shownText s m v with
      | .ok text => (.value v text, w')
      | .error e => (.raised [] e, w')
    | (.error e, w') => (if e.isForeseen then .refused e else .raised [] e, w')

/-- The code of a line to be evaluated is the line up to its first `#`. -/
theorem Request.evaluate_code {line code : String} (h : ofLine line = .evaluate code) :
    code = String.ofList (Session.codeOf line) := by
  unfold ofLine at h
  dsimp only at h
  split at h
  · cases h
  · repeat (split at h; cases h)
    cases h
    rfl

theorem isForeseen_of_variableEntries {s : Settings} {vs : List Variable} {e : Failure}
    (h : (variableEntries s vs).2 = some e) : e.isForeseen = false := by
  induction vs with
  | nil => cases h
  | cons v vs ih =>
    rcases hd : Display.value s.math s.precision v.value with φ | text
    · simp only [variableEntries, hd, Option.some.injEq] at h
      rw [← h, Display.value_eq_error hd]
      rfl
    · simp only [variableEntries, hd] at h
      exact ih h

theorem isForeseen_of_shownText {s : Settings} {m : Mode} {v : Value} {e : Failure}
    (h : shownText s m v = .error e) : e.isForeseen = false := by
  unfold shownText at h
  split at h
  · cases h
  · split at h
    · rename_i z hverbose
      rcases hd : Display.value s.math s.precision (.number z) with φ | text <;> rw [hd] at h <;> cases h
      rw [Display.value_eq_error hd]
      rfl
    · cases h

/-- Clearing a table does not fail. -/
theorem EvalM.clear_ok (w : Workspace) : (clear w).1 = .ok () := by
  unfold clear modifyTable
  rw [Action.bind_ok (Action.modify_apply _ _), Action.bind_ok (Action.modify_apply _ _)]
  obtain ⟨w₁, -, -, -, h⟩ := register_of_empty (w := { Journaled.update (·.record
    (.note ("clearing " ++ w.table.debugText))) w with
      table := { w.table with scope := [], functions := [] } }) rfl rfl
  exact congrArg Prod.fst h

section Perform
variable {s : Settings} {m : Mode} {w w' : Workspace} {code : String}

theorem Request.perform_error {e : Failure} (h : EvalM.evalText s code w = (.error e, w')) :
    Request.perform s m w (.evaluate code) =
      (if e.isForeseen then .refused e else .raised [] e, w') := by
  simp only [perform, h]

theorem Request.perform_ok {v : Value} (h : EvalM.evalText s code w = (.ok v, w')) :
    Request.perform s m w (.evaluate code) =
      (match shownText s m v with
        | .ok text => .value v text
        | .error e => .raised [] e, w') := by
  simp only [perform, h]
  cases shownText s m v <;> rfl

/-- A line has a value if it has been evaluated and the value can be shown. -/
theorem Request.perform_eq_value {r : Request} {v : Value} {text : Option String}
    (h : Request.perform s m w r = (.value v text, w')) :
    ∃ code, r = .evaluate code ∧ EvalM.evalText s code w = (.ok v, w') ∧
      shownText s m v = .ok text := by
  cases r with
  | test | blank | exit | clear => cases h
  | dir =>
    simp only [perform] at h
    split at h <;> cases h
  | evaluate code =>
    refine ⟨code, rfl, ?_⟩
    rcases hv : EvalM.evalText s code w with ⟨e | v', u⟩
    · rw [perform_error hv] at h
      split at h <;> cases h
    · rw [perform_ok hv] at h
      rcases hs : shownText s m v' with e | text' <;> rw [hs] at h <;> cases h
      exact ⟨rfl, hs⟩

end Perform

/-! ## What is shown -/

/-- A foreseen failure below a prompt: an error of syntax at the place where it was found. -/
def complaint (prompt : String) : Failure → String
  | .noExpression e =>
    let indent := String.ofList (List.replicate (prompt.length + e.offset) ' ')
    indent ++ "^\n" ++ indent ++ e.message ++ "\n"
  | .noValue e =>
    let indent := String.ofList (List.replicate (prompt.length - 3) ' ')
    indent ++ "👎 " ++ e.kind.title ++ ": " ++ e.message ++ "\n"
  | .fault _ => ""

/-- Entries on lines of their own. -/
def entriesText (entries : List String) : String := String.join (entries.map (· ++ "\n"))

namespace Session

/-- The prompt at which a line with a number is typed. -/
def asked (m : Mode) (number : Nat) : String :=
  if m.script.isNone then promptText number "❮" else ""

/-- The line of a script with a number, unless there is nothing in it. -/
def echo (m : Mode) (number : Nat) (line : String) : String :=
  if m.verbose && m.script.isSome && Request.ofLine line ≠ .blank then
    promptText number "❮" ++ String.ofList (codeOf line) ++ "\n"
  else ""

end Session

/-- What is shown of an outcome under a number. -/
def Outcome.text (number : Nat) : Outcome → String
  | quiet | value _ none => ""
  | listing entries | raised entries _ => entriesText entries
  | value _ (some text) => Session.promptText number "=" ++ text ++ "\n"
  | refused e => complaint (Session.promptText number "❮") e

namespace Session

variable {s : Settings} {m : Mode}

theorem emit_apply (text : String) (t : Session) :
    emit text t = (.ok (), { t with output := t.output ++ text }) := rfl

theorem prompt_apply (t : Session) : prompt t = (.ok (promptText t.count "❮"), t) := rfl

theorem inWork_apply {α : Type} (step : EvalM α) (t : Session) : inWork step t =
    ((step t.work).1.mapError .failure, { t with work := (step t.work).2 }) := by
  unfold inWork
  rcases step t.work with ⟨_ | _, _⟩ <;> rfl

/-- What a session does about a request below a prompt. -/
def handle (s : Settings) (m : Mode) (prompt line : String) : Request → SessionM Flow
  | .test | .blank => return .goOn
  | .exit => do
    emitLine "\nSee you! 👋"
    return .stop
  | .clear => reporting m prompt (inWork EvalM.clear)
  | .dir => reporting m prompt (listVariables s)
  | .evaluate _ => reporting m prompt (evaluate s m (codeOf line) (commentOf line))

/-- A line that does not begin the tests of a script is echoed and handled by its request. -/
theorem line_apply {text : String} (h : Request.ofLine text ≠ .test) (t : Session) :
    line s m text t = (do
      emit (echo m t.count text)
      handle s m (promptText t.count "❮") text (Request.ofLine text)) t := by
  have htest : "#TEST".toList.isPrefixOf text.toList = false :=
    Bool.eq_false_iff.2 fun hprefix => h (if_pos hprefix)
  have hrequest : Request.ofLine text = _ := if_neg (Bool.eq_false_iff.1 htest)
  unfold line
  rw [Action.bind_ok (prompt_apply t)]
  simp only [htest, Bool.and_false, Bool.false_eq_true, if_false]
  by_cases hblank : (String.ofList (Text.trim (codeOf text))).isEmpty = true
  · rw [if_pos hblank] at hrequest
    have hecho : echo m t.count text = "" := by simp [echo, hrequest]
    rw [hrequest, hecho, Action.bind_ok (emit_apply _ _), String.append_empty]
    exact congrFun (if_pos hblank) t
  · rw [if_neg hblank] at hrequest
    have hhandle : handle s m (promptText t.count "❮") text (Request.ofLine text) =
        if String.ofList (Text.trim (codeOf text)) = "exit" then do
          emitLine "\nSee you! 👋"
          return .stop
        else if String.ofList (Text.trim (codeOf text)) = "clear" then
          reporting m (promptText t.count "❮") (inWork EvalM.clear)
        else if String.ofList (Text.trim (codeOf text)) = "dir" then
          reporting m (promptText t.count "❮") (listVariables s)
        else reporting m (promptText t.count "❮") (evaluate s m (codeOf text) (commentOf text)) := by
      rw [hrequest]
      simp only [apply_ite (handle s m (promptText t.count "❮") text)]
      rfl
    have hne : Request.ofLine text ≠ .blank := by
      rw [hrequest]
      by_cases hexit : String.ofList (Text.trim (codeOf text)) = "exit" <;>
        by_cases hclear : String.ofList (Text.trim (codeOf text)) = "clear" <;>
        by_cases hdir : String.ofList (Text.trim (codeOf text)) = "dir" <;>
        simp [hexit, hclear, hdir]
    rw [hhandle]
    by_cases hverbose : (m.verbose && m.script.isSome) = true
    · have hecho : echo m t.count text =
          promptText t.count "❮" ++ String.ofList (codeOf text) ++ "\n" := by
        simp [echo, hverbose, hne]
      rw [hecho]
      exact (congrFun (if_neg hblank) t).trans (congrFun (if_pos hverbose) t)
    · have hecho : echo m t.count text = "" := by simp [echo, hverbose]
      rw [hecho, Action.bind_ok (emit_apply _ _), String.append_empty]
      exact (congrFun (if_neg hblank) t).trans (congrFun (if_neg hverbose) t)

/-! ### Reports -/

theorem reporting_ok {step : SessionM Unit} {t u : Session} (h : step t = (.ok (), u))
    (prompt : String) : reporting m prompt step t = (.ok .goOn, u) := by
  unfold reporting
  rw [Action.bind_apply, Action.tryCatch_apply, h]
  rfl

theorem reporting_error {step : SessionM Unit} {t u : Session} {e : Halt}
    (h : step t = (.error e, u)) (prompt : String) :
    reporting m prompt step t = (report m prompt e >>= fun _ => pure .goOn) u := by
  unfold reporting
  rw [Action.bind_apply, Action.tryCatch_apply, h, Action.bind_apply]

/-- Outside of test mode a foreseen failure is shown and the session goes on. -/
theorem report_foreseen (hm : m.test = false) {e : Failure} (he : e.isForeseen = true)
    (prompt : String) (t : Session) : report m prompt (.failure e) t =
      (.ok (), { t with output := t.output ++ complaint prompt e }) := by
  cases e with
  | fault f => cases he
  | noExpression e | noValue e =>
    unfold report
    simp only [hm, Bool.false_eq_true, if_false]
    rfl

theorem reporting_foreseen (hm : m.test = false) {step : SessionM Unit} {t u : Session} {e : Failure}
    (he : e.isForeseen = true) (h : step t = (.error (.failure e), u)) (prompt : String) :
    reporting m prompt step t = (.ok .goOn, { u with output := u.output ++ complaint prompt e }) := by
  rw [reporting_error h]
  exact Action.bind_ok (report_foreseen hm he prompt u)

theorem reporting_unforeseen {step : SessionM Unit} {t u : Session} {e : Failure}
    (he : e.isForeseen = false) (h : step t = (.error (.failure e), u)) (prompt : String) :
    reporting m prompt step t = (.error (.failure e), u) := by
  rw [reporting_error h]
  cases e with
  | fault f => rfl
  | noExpression e | noValue e => cases he

/-! ### Requests -/

theorem shown_apply (v : Value) (t : Session) :
    shown s v t = ((Display.value s.math s.precision v).mapError .failure, t) := inWork_apply _ t

/-- The result `a`, unless there is a failure to raise. -/
def raising {α : Type} (failure : Option Failure) (a : α) : Except Halt α :=
  match failure with
  | none => .ok a
  | some e => .error (.failure e)

@[simp] theorem raising_none {α : Type} (a : α) : raising none a = .ok a := rfl

@[simp] theorem raising_some {α : Type} (e : Failure) (a : α) :
    raising (some e) a = .error (.failure e) := rfl

theorem forM_variableEntries (vs : List Variable) (t : Session) :
    (vs.forM fun v => do emitLine (v.name ++ ": " ++ (← shown s v.value)) : SessionM Unit) t =
      (raising (variableEntries s vs).2 (),
        { t with output := t.output ++ entriesText (variableEntries s vs).1 }) := by
  induction vs generalizing t with
  | nil => simp [variableEntries, raising, entriesText]
  | cons v vs ih =>
    change ((do emitLine (v.name ++ ": " ++ (← shown s v.value)) : SessionM Unit) >>= fun _ =>
      vs.forM fun v => do emitLine (v.name ++ ": " ++ (← shown s v.value)) : SessionM Unit) t = _
    rcases hd : Display.value s.math s.precision v.value with e | text
    · have hshown : (do emitLine (v.name ++ ": " ++ (← shown s v.value)) : SessionM Unit) t =
          (.error (.failure e), t) := Action.bind_error (by rw [shown_apply, hd]; rfl)
      rw [Action.bind_error hshown]
      simp [variableEntries, hd, raising, entriesText]
    · have hshown : (do emitLine (v.name ++ ": " ++ (← shown s v.value)) : SessionM Unit) t =
          (.ok (), { t with output := t.output ++ (v.name ++ ": " ++ text ++ "\n") }) :=
        Action.bind_ok (by rw [shown_apply, hd]; rfl)
      rw [Action.bind_ok hshown, ih]
      simp [variableEntries, hd, entriesText, String.append_assoc]

theorem listVariables_apply (t : Session) : listVariables s t =
    (raising (variableEntries s t.work.userVariables).2 (),
      { t with output := t.output ++ entriesText (variableEntries s t.work.userVariables).1 }) :=
  forM_variableEntries _ t

/-- The session after a line, by what came of it. -/
def advance (t : Session) (o : Outcome) (w : Workspace) : Except Halt Flow × Session :=
  (raising o.failure? .goOn, { t with
    work := w, count := t.count + o.isValue.toNat, output := t.output ++ o.text t.count })

section Evaluate
variable {code : List Char} {t : Session} {w : Workspace} {v : Value}

/-- A line that has been evaluated is shown. Then it is checked in test mode, and counted. -/
theorem evaluate_value (answer : List Char)
    (h : EvalM.evalText s (String.ofList code) t.work = (.ok v, w)) :
    evaluate s m code answer t =
      match shownText s m v with
      | .ok text =>
        (do
          if m.test && !answer.isEmpty then check s m code answer v
          modify fun u => { u with count := u.count + 1 } : SessionM Unit)
            { t with work := w, output := t.output ++ Outcome.text t.count (.value v text) }
      | .error e => (.error (.failure e), { t with work := w }) := by
  have hstep : inWork (EvalM.evalText s (String.ofList code)) t = (.ok v, { t with work := w }) := by
    rw [inWork_apply, h]
    rfl
  unfold evaluate
  rw [Action.bind_ok hstep]
  cases v with
  | none =>
    simp only [shownText, Outcome.text, String.append_empty]
  | number z =>
    by_cases hverbose : m.verbose = true
    · refine (congrFun (if_pos hverbose) _).trans ?_
      rw [Action.bind_ok (Action.get_apply _), Action.bind_apply, shown_apply]
      simp only [shownText, if_pos hverbose]
      cases Display.value s.math s.precision (.number z) <;> rfl
    · refine (congrFun (if_neg hverbose) _).trans ?_
      simp only [shownText, if_neg hverbose, Outcome.text, String.append_empty]

/-- Outside of test mode a line is evaluated, its value is shown and its failure reported. -/
theorem reporting_evaluate (hm : m.test = false) (code answer : List Char) (t : Session) :
    reporting m (promptText t.count "❮") (evaluate s m code answer) t =
      t.advance (Request.perform s m t.work (.evaluate (String.ofList code))).1
        (Request.perform s m t.work (.evaluate (String.ofList code))).2 := by
  rcases hv : EvalM.evalText s (String.ofList code) t.work with ⟨e | v, w⟩
  · have hstep : evaluate s m code answer t = (.error (.failure e), { t with work := w }) :=
      Action.bind_error (by rw [inWork_apply, hv]; rfl)
    rw [Request.perform_error hv]
    by_cases he : e.isForeseen = true
    · rw [reporting_foreseen hm he hstep]
      simp [advance, he, Outcome.failure?, Outcome.isValue, Outcome.text]
    · rw [reporting_unforeseen (Bool.eq_false_iff.2 he) hstep]
      simp [advance, he, Outcome.failure?, Outcome.isValue, Outcome.text, entriesText]
  · rw [Request.perform_ok hv]
    rcases hs : shownText s m v with e | text
    · rw [reporting_unforeseen (isForeseen_of_shownText hs) (by rw [evaluate_value answer hv, hs])]
      simp [advance, Outcome.failure?, Outcome.isValue, Outcome.text, entriesText]
    · have hstep : evaluate s m code answer t = (.ok (), { t with
          work := w, count := t.count + 1
          output := t.output ++ Outcome.text t.count (.value v text) }) := by
        rw [evaluate_value answer hv, hs, hm]
        rfl
      rw [reporting_ok hstep]
      simp [advance, Outcome.failure?, Outcome.isValue]

end Evaluate

/-- A line that neither ends the session nor evaluates anything is performed in every mode. -/
theorem line_command {text : String} (h : (Request.ofLine text).ends = false)
    (hcommand : ∀ code, Request.ofLine text ≠ .evaluate code) (t : Session) : line s m text t =
      ({ t with output := t.output ++ echo m t.count text }).advance
        (Request.perform s m t.work (Request.ofLine text)).1
        (Request.perform s m t.work (Request.ofLine text)).2 := by
  have htest : Request.ofLine text ≠ .test := fun htest => by simp [htest, Request.ends] at h
  rw [line_apply htest, Action.bind_ok (emit_apply _ _)]
  rcases hrequest : Request.ofLine text with - | - | - | - | - | code
  · exact absurd hrequest htest
  · simp [handle, Request.perform, advance, Outcome.failure?, Outcome.isValue, Outcome.text]
  · simp [hrequest, Request.ends] at h
  · rw [handle, reporting_ok (u := _) (by rw [inWork_apply, EvalM.clear_ok]; rfl)]
    simp [Request.perform, advance, Outcome.failure?, Outcome.isValue, Outcome.text]
  · rw [handle]
    rcases hl : variableEntries s t.work.userVariables with ⟨entries, - | e⟩
    · rw [reporting_ok (u := _) (by rw [listVariables_apply]; simp only [hl]; rfl)]
      simp [Request.perform, hl, advance, Outcome.failure?, Outcome.isValue, Outcome.text]
    · have he : e.isForeseen = false := isForeseen_of_variableEntries (congrArg Prod.snd hl)
      rw [reporting_unforeseen he (u := _) (by rw [listVariables_apply]; simp only [hl]; rfl)]
      simp [Request.perform, hl, advance, Outcome.failure?, Outcome.isValue, Outcome.text]
  · exact absurd hrequest (hcommand code)

/-- A line that is evaluated is echoed first. -/
theorem line_evaluate {text code : String} (h : Request.ofLine text = .evaluate code) (t : Session) :
    line s m text t = reporting m (promptText t.count "❮")
      (evaluate s m (codeOf text) (commentOf text))
      { t with output := t.output ++ echo m t.count text } := by
  rw [line_apply (by rw [h]; exact nofun), Action.bind_ok (emit_apply _ _), h]
  rfl

/-- Outside of test mode every line that does not end the session is performed on its workspace. -/
theorem line_perform (hm : m.test = false) {text : String} (h : (Request.ofLine text).ends = false)
    (t : Session) : line s m text t =
      ({ t with output := t.output ++ echo m t.count text }).advance
        (Request.perform s m t.work (Request.ofLine text)).1
        (Request.perform s m t.work (Request.ofLine text)).2 := by
  by_cases hevaluate : ∃ code, Request.ofLine text = .evaluate code
  · obtain ⟨code, hcode⟩ := hevaluate
    rw [line_evaluate hcode, hcode, Request.evaluate_code hcode]
    exact reporting_evaluate hm (codeOf text) (commentOf text) _
  · exact line_command h (fun code hcode => hevaluate ⟨code, hcode⟩) t

theorem showPrompt_apply (t : Session) :
    showPrompt m t = (.ok (), { t with output := t.output ++ asked m t.count }) := by
  unfold showPrompt asked
  split
  · exact Action.bind_ok (prompt_apply t)
  · rw [String.append_empty]
    rfl

/-- Outside of test mode a session ends with the line that begins the tests. -/
theorem line_test (hm : m.test = false) {text : String} (h : Request.ofLine text = .test)
    (t : Session) : line s m text t = (.ok .stop, t) := by
  have htest : "#TEST".toList.isPrefixOf text.toList = true := by
    unfold Request.ofLine at h
    dsimp only at h
    split at h
    · assumption
    · repeat (split at h; cases h)
      cases h
  have hstop : (!m.test && "#TEST".toList.isPrefixOf text.toList) = true := by rw [hm, htest]; rfl
  unfold line
  rw [Action.bind_ok (prompt_apply t)]
  exact congrFun (if_pos hstop) t

/-- A session goes on after a line, or stops, or raises a failure. -/
theorem lines_cons (text : String) (rest : List String) (t : Session) :
    lines s m (text :: rest) t =
      match (do showPrompt m; line s m text : SessionM Flow) t with
      | (.ok .goOn, u) => lines s m rest u
      | (.ok .stop, u) => (.ok (), u)
      | (.error e, u) => (.error e, u) := by
  rw [lines, Action.bind_apply, Action.bind_apply, showPrompt_apply]
  dsimp only
  rw [Action.bind_apply]
  rcases line s m text _ with ⟨e | flow, u⟩
  · rfl
  · cases flow <;> rfl

theorem finish_apply (hm : m.test = false) (t : Session) : finish m t = (.ok (), t) := by
  unfold finish
  rw [Action.bind_ok (Action.get_apply _), hm]
  rfl

end Session

end ComplexCalc
