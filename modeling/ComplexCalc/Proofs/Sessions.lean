import ComplexCalc.Session
import ComplexCalc.Proofs.Actions
/-!
# What a session preserves

A session changes its workspace by evaluating lines and by clearing the table, and only the journal
when it evaluates an expected answer. So what these preserve is preserved by every session, whatever
its lines are, in every mode and however the session ends.
-/
namespace ComplexCalc.Session

/-- Begun with a workspace that has the property, the step ends with one. -/
def Keeps {α : Type} (P : Workspace → Prop) (m : SessionM α) : Prop :=
  ∀ t : Session, P t.work → P (m t).2.work

/-- The property outlasts everything that a session does with its workspace. -/
structure Invariant (s : Settings) (P : Workspace → Prop) : Prop where
  journal : ∀ {w} (j : Journal), P w → P { w with journal := j }
  evalText : ∀ {w} (text : String), P w → P (EvalM.evalText s text w).2
  clear : ∀ {w}, P w → P (EvalM.clear w).2

namespace Keeps

variable {α β : Type} {P : Workspace → Prop} {m : SessionM α}

theorem of_eq (h : ∀ t, (m t).2.work = t.work) : Keeps P m := fun t ht => (h t).symm ▸ ht

theorem pure (a : α) : Keeps P (pure a : SessionM α) := of_eq fun _ => rfl

theorem throw (h : Halt) : Keeps P (throw h : SessionM α) := of_eq fun _ => rfl

theorem get : Keeps P (get : SessionM Session) := of_eq fun _ => rfl

theorem modify {f : Session → Session} (h : ∀ t, (f t).work = t.work) :
    Keeps P (modify f : SessionM Unit) := of_eq h

theorem emit (text : String) : Keeps P (emit text) := modify fun _ => rfl

theorem bind {f : α → SessionM β} (hm : Keeps P m) (hf : ∀ a, Keeps P (f a)) :
    Keeps P (m >>= f) := by
  intro t ht
  have h := hm t ht
  rcases hr : m t with ⟨e | a, t'⟩ <;> rw [hr] at h
  · rw [Action.bind_error hr]
    exact h
  · rw [Action.bind_ok hr]
    exact hf a t' h

/-- A handler goes on with the workspace that the failure reached. -/
theorem tryCatch {handler : Halt → SessionM α} (hm : Keeps P m) (hh : ∀ h, Keeps P (handler h)) :
    Keeps P (tryCatch m handler) := by
  intro t ht
  have h := hm t ht
  rw [Action.tryCatch_apply]
  rcases hr : m t with ⟨e | a, t'⟩ <;> rw [hr] at h
  · exact hh e t' h
  · exact h

theorem forM {l : List β} {f : β → SessionM Unit} (h : ∀ b, Keeps P (f b)) :
    Keeps P (l.forM f) := by
  induction l with
  | nil => exact pure ()
  | cons b l ih => exact (h b).bind fun _ => ih

theorem inWork {step : EvalM α} (h : ∀ w, P w → P (step w).2) : Keeps P (Session.inWork step) := by
  intro t ht
  have hstep := h t.work ht
  unfold Session.inWork
  split <;> rename_i hr <;> rw [hr] at hstep <;> exact hstep

end Keeps

/-! ## Commands -/

section Commands
variable {s : Settings} {m : Mode} {P : Workspace → Prop}

theorem shown_keeps (v : Value) : Keeps P (shown s v) := .inWork fun _ h => h

/-- What is done apart writes to the journal and touches nothing else. -/
theorem apart_keeps (hP : Invariant s P) (random : RandomSource) {α : Type} {step : EvalM α} :
    Keeps P (inWork (EvalM.apart random step)) := .inWork fun _ h => hP.journal _ h

theorem check_keeps (hP : Invariant s P) (code answer : List Char) (result : Value) :
    Keeps P (check s m code answer result) := by
  refine Keeps.get.bind fun t => (apart_keeps hP _).bind fun expected => ?_
  split
  · split
    · exact .emit _
    · exact .pure _
  · exact (shown_keeps _).bind fun _ => .throw _

theorem evaluate_keeps (hP : Invariant s P) (code answer : List Char) :
    Keeps P (evaluate s m code answer) := by
  have hcount : Keeps P (modify fun t : Session => { t with count := t.count + 1 }) :=
    .modify fun _ => rfl
  have hrest : ∀ v, Keeps P (if m.test && !answer.isEmpty then do
        check s m code answer v
        modify fun t : Session => { t with count := t.count + 1 }
      else modify fun t : Session => { t with count := t.count + 1 }) := by
    intro v
    split
    · exact (check_keeps hP code answer v).bind fun _ => hcount
    · exact hcount
  refine Keeps.bind (.inWork fun _ h => hP.evalText _ h) fun v => ?_
  cases v with
  | none => exact hrest .none
  | number z =>
    dsimp only
    split
    · exact Keeps.get.bind fun _ => (shown_keeps _).bind fun _ => (Keeps.emit _).bind fun _ =>
        hrest (.number z)
    · exact hrest (.number z)

theorem listVariables_keeps : Keeps P (listVariables s) :=
  Keeps.get.bind fun _ => .forM fun v => (shown_keeps v.value).bind fun _ => .emit _

theorem report_keeps (prompt : String) (h : Halt) : Keeps P (report m prompt h) := by
  unfold report
  split
  · refine (Keeps.emit _).bind fun _ => Keeps.bind (.modify fun _ => rfl) fun _ => ?_
    refine Keeps.get.bind fun t => ?_
    split
    · exact .throw _
    · exact .pure _
  · refine (Keeps.emit _).bind fun _ => ?_
    split
    · exact .throw _
    · exact .pure _
  · refine (Keeps.emit _).bind fun _ => ?_
    split
    · exact .throw _
    · exact .pure _
  · exact .throw _

theorem reporting_keeps {step : SessionM Unit} (h : Keeps P step) (prompt : String) :
    Keeps P (reporting m prompt step) :=
  (h.tryCatch (report_keeps prompt)).bind fun _ => .pure _

theorem line_keeps (hP : Invariant s P) (text : String) : Keeps P (line s m text) := by
  have hclear : Keeps P (inWork EvalM.clear) := .inWork fun _ h => hP.clear h
  have hcommand : ∀ (prompt word : String) (code comment : List Char),
      Keeps P (if word = "exit" then do
          emitLine "\nSee you! 👋"
          return Flow.stop
        else if word = "clear" then reporting m prompt (inWork EvalM.clear)
        else if word = "dir" then reporting m prompt (listVariables s)
        else reporting m prompt (evaluate s m code comment)) := by
    intro prompt word code comment
    split
    · exact (Keeps.emit _).bind fun _ => .pure _
    · split
      · exact reporting_keeps hclear prompt
      · split
        · exact reporting_keeps listVariables_keeps prompt
        · exact reporting_keeps (evaluate_keeps hP code comment) prompt
  refine Keeps.bind (.of_eq fun _ => rfl) fun prompt => ?_
  dsimp only
  split
  · exact .pure _
  · split
    · exact .pure _
    · split
      · exact (Keeps.emit _).bind fun _ => hcommand _ _ _ _
      · exact hcommand _ _ _ _

theorem showPrompt_keeps : Keeps P (showPrompt m) := by
  unfold showPrompt
  split
  · exact Keeps.bind (.of_eq fun _ => rfl) fun _ => .emit _
  · exact .pure _

theorem lines_keeps (hP : Invariant s P) (input : List String) : Keeps P (lines s m input) := by
  induction input with
  | nil => exact showPrompt_keeps
  | cons text rest ih =>
    refine showPrompt_keeps.bind fun _ => (line_keeps hP text).bind fun flow => ?_
    cases flow with
    | goOn => exact ih
    | stop => exact .pure _

/-- A whole session ends with a workspace that has the property if it begins with one. -/
theorem run_keeps (hP : Invariant s P) (input : List String) : Keeps P (run s m input) := by
  refine (lines_keeps hP input).bind fun _ => ?_
  unfold finish
  refine Keeps.get.bind fun t => ?_
  split
  · exact .emit _
  · exact .pure _

end Commands

end ComplexCalc.Session
