import ComplexCalc.Proofs.SharedTables
import ComplexCalc.Proofs.TypedErrors
/-!
# What a line may change

A line that is no expression changes nothing. Any other line, whether it ends with a value or not,
changes the variables of `Ans` and of the names that its expression assigns to, where a loop variable
hides the name within the body of its sum; what is assigned only in the body of a sum is not bound
afterwards. `Ans` is bound to the value that the line gives.
-/
namespace ComplexCalc

/-- The expression contains an assignment to a name within the bodies of sums over `loops`. -/
inductive Expr.Assigns : Expr → String → List String → Prop
  | here {x : String} {v : Expr} : Assigns (.assign x v) x []
  | value {x y : String} {v : Expr} {loops : List String} :
      Assigns v y loops → Assigns (.assign x v) y loops
  | operand {op : UnaryOp} {a : Expr} {y : String} {loops : List String} :
      Assigns a y loops → Assigns (.unary op a) y loops
  | left {op : BinaryOp} {l r : Expr} {y : String} {loops : List String} :
      Assigns l y loops → Assigns (.binary op l r) y loops
  | right {op : BinaryOp} {l r : Expr} {y : String} {loops : List String} :
      Assigns r y loops → Assigns (.binary op l r) y loops
  | argument {f : String} {args : List Expr} {k : Nat} {a : Expr} {y : String}
      {loops : List String} : args[k]? = some a → (f = "sum" → k ≠ 3) → Assigns a y loops →
      Assigns (.call f args) y loops
  | body {low high body : Expr} {x y : String} {loops : List String} :
      Assigns body y loops → Assigns (.call "sum" [low, high, .name x, body]) y (x :: loops)

section Assignments
variable {s : Settings} {e e' : Expr} {w w' : Workspace} {x : String} {loops loops' : List String}

theorem Starts.assigns (h : Starts s e w loops e' w') (hw : w.table.functions = EvalM.builtins)
    (ha : e'.Assigns x loops') : e.Assigns x (loops ++ loops') := by
  cases h with
  | assigned => exact .value ha
  | operand => exact .operand ha
  | left => exact .left ha
  | right | divisor => exact .right ha
  | argument hc hlen he =>
    rw [hw] at hc
    refine .argument he (fun hf => ?_) ha
    rw [(EvalM.builtins_sum hc).1 hf] at hlen
    cases hlen
  | firstBound _ _ he | secondBound _ _ he => exact .argument he (fun _ => by decide) ha
  | body hc =>
    rw [hw] at hc
    rw [(EvalM.builtins_sum hc).2 rfl]
    exact .body ha

theorem Visits.assigns (h : Visits s e w loops e' w') (hw : w.Standard)
    (ha : e'.Assigns x loops') : e.Assigns x (loops ++ loops') := by
  induction h with
  | here => exact ha
  | part hstart _ ih =>
    have hw' := Visits.standard (.part hstart .here) hw
    rw [List.append_assoc]
    refine hstart.assigns ?_ (ih hw' ha)
    rw [Expr.table_enter]
    exact hw.functions

/-- An assignment that is carried out is one of the expression. -/
theorem Performs.assigns (h : Performs s e w x loops) (hw : w.Standard) : e.Assigns x loops := by
  obtain ⟨v, a, w₀, w₁, w₂, hv, -, -⟩ := h
  simpa using hv.assigns hw (.here (x := x) (v := v))

end Assignments

section Answers
variable {w w' : Workspace} {x : String}

theorem Workspace.Assignable.of_frame {fresh changed : String → Prop} (hx : w.Assignable x)
    (hw : w.Sound) (h : Frame fresh changed w w') : w'.Assignable x := by
  intro id v' hv'
  rcases EvalM.locate?_of_sound (x := x) (h.sound hw) with ⟨hnone, -⟩ | ⟨j, u, hsome, hj, hu, -⟩
  · rw [hnone] at hv'
    cases hv'
  · cases hsome.symm.trans hv'
    rcases h.new x id hj with hbound | ⟨-, -, -, u, hu', -, hk⟩
    · obtain ⟨v, hv, -⟩ := hw x id hbound
      obtain ⟨u, hu', -, hk, -⟩ := h.memory id v hv
      cases hu.symm.trans hu'
      exact hk.trans (hx id v (by simp [Table.locate?, hbound, hv]))
    · cases hu.symm.trans hu'
      exact hk

/-- An assignment to a name that is not bound to a constant binds the name to the value. -/
theorem EvalM.assign_of_assignable (hx : w.Assignable x) (hw : w.Sound) (a : Value) :
    ∃ w' id, assign x a w = (.ok (), w') ∧
      w'.table.locate? w'.memory x = some (id, ⟨x, a, false⟩) := by
  rcases assign_cases hw x a with ⟨-, id, v, hb, hv, hk⟩ | ⟨id, v, hb, hv, hn, hk, ha⟩ | ⟨-, ha⟩
  · rw [hx id v (by simp [Table.locate?, hb, hv])] at hk
    cases hk
  · have hlt : id < w.memory.size := (Array.getElem?_eq_some_iff.1 hv).1
    exact ⟨_, id, ha, by simp [Table.locate?, hb, hlt, hn, hk]⟩
  · exact ⟨_, w.memory.size, ha, by simp [Table.locate?, Bindings.get?_bind_self]⟩

end Answers

/-! ## Lines -/

/-- The names that a line of the expression may bind. -/
def Expr.MayBind (e : Expr) (x : String) : Prop := x = "Ans" ∨ e.Assigns x []

/-- The names of the variables that a line of the expression may change. -/
def Expr.MayChange (e : Expr) (x : String) : Prop :=
  x = "Ans" ∨ ∃ loops, e.Assigns x loops ∧ x ∉ loops

/-- What a line gives on the workspace `w`, and the workspace it leaves. -/
inductive LineEffect (s : Settings) (text : String) (w : Workspace) :
    Except Failure Value → Workspace → Prop
  /-- The text is no expression: memory and table are as before. -/
  | noExpression {err : SyntaxError} {w' : Workspace} :
      EvalM.parse text w = (.error (.noExpression err), w') →
      w'.memory = w.memory → w'.table = w.table →
      LineEffect s text w (.error (.noExpression err)) w'
  /-- The expression has a value, which the line gives and `Ans` is bound to. -/
  | value {e : Expr} {v : Value} {w₁ w₂ w' : Workspace} {id : Nat} :
      EvalM.parse text w = (.ok e, w₁) → e.eval s w₁ = (.ok v, w₂) →
      Frame e.MayBind e.MayChange w w' →
      w'.table.locate? w'.memory "Ans" = some (id, ⟨"Ans", v, false⟩) →
      LineEffect s text w (.ok v) w'
  /-- The evaluation fails: only the assignments that it carried out before have an effect, on `Ans`
  as on other names. -/
  | failure {e : Expr} {f : Failure} {w₁ w' : Workspace} :
      EvalM.parse text w = (.ok e, w₁) → e.eval s w₁ = (.error f, w') →
      (∀ err, f ≠ .noExpression err) →
      Frame e.MayBind e.MayChange w w' → Frame (Binds s e w₁) (Changes s e w₁) w w' →
      LineEffect s text w (.error f) w'

theorem eval_ne_noExpression {s : Settings} {e : Expr} {w w' : Workspace} {f : Failure}
    (h : e.eval s w = (.error f, w')) (hw : w.Standard) (err : SyntaxError) :
    f ≠ .noExpression err := by
  rintro rfl
  have hφ : (Failure.noExpression err).Other := fun e h => by cases h
  obtain ⟨_, _, _, _, -, hx, -⟩ := (eval_fails_iff hφ e hw).1 (congrArg Prod.fst h)
  cases hx

theorem evalText_effect {w : Workspace} (hw : w.Standard) (hans : w.Assignable "Ans") (s : Settings)
    (text : String) :
    LineEffect s text w (EvalM.evalText s text w).1 (EvalM.evalText s text w).2 := by
  rcases hp : EvalM.parse text w with ⟨f | e, w₁⟩
  · obtain ⟨err, rfl⟩ := EvalM.parse_eq_error hp
    have htouches := EvalM.parse_touches text w
    rw [hp] at htouches
    unfold EvalM.evalText
    rw [Action.bind_error hp]
    exact .noExpression hp htouches.1 htouches.2
  · have hw₁ := EvalM.parse_standard hp hw
    rcases hr : e.eval s w₁ with ⟨r, w₂⟩
    have hparse : Frame (Binds s e w₁) (Changes s e w₁) w w₁ :=
      (EvalM.parse_keeps text w).frame hp hw.sound
    -- Parsing changes nothing, so the whole has the frame of the evaluation.
    have hframe := hparse.trans ((eval_keeps e w₁).frame hr hw₁.sound)
    have hmay : Frame e.MayBind e.MayChange w w₂ :=
      hframe.mono (fun x h => .inr (h.assigns hw₁)) fun x ⟨loops, h, hx⟩ =>
        .inr ⟨loops, h.assigns hw₁, hx⟩
    unfold EvalM.evalText EvalM.keepAnswer
    rw [Action.bind_ok hp]
    rcases r with f | v
    · rw [Action.bind_error hr]
      exact .failure hp hr (eval_ne_noExpression hr hw₁) hmay hframe
    · rw [Action.bind_ok hr]
      obtain ⟨w', id, ha, hl⟩ :=
        EvalM.assign_of_assignable (hans.of_frame hw.sound hmay) (hmay.sound hw.sound) v
      have hassign : Frame e.MayBind e.MayChange w₂ w' :=
        (Keeps.assign fun _ _ => ⟨.inl rfl, .inl rfl⟩).frame ha (hmay.sound hw.sound)
      rw [Action.bind_ok ha]
      exact .value hp hr (hmay.trans hassign) hl

/-- Whatever a host program has done to its tables: a line on one that has the builtin functions, and
where `Ans` is no constant, has no effect but that of its assignments and of the binding of its value
to `Ans`. -/
theorem Tables.line_effect {ts : Tables} (hts : ts.Reachable) {t : Table} (ht : t ∈ ts.tables)
    (hfun : t.functions = EvalM.builtins)
    (hans : Workspace.Assignable ⟨ts.memory, t, ts.journal⟩ "Ans") (s : Settings) (text : String) :
    LineEffect s text ⟨ts.memory, t, ts.journal⟩
      (EvalM.evalText s text ⟨ts.memory, t, ts.journal⟩).1
      (EvalM.evalText s text ⟨ts.memory, t, ts.journal⟩).2 :=
  evalText_effect ⟨hts.sound t ht, hfun⟩ hans s text

theorem Tables.line_effect_on_new_table :
    (Tables.fresh default true (.fresh false)).Reachable ∧
    LineEffect .standard "y = sum(0, 3, k, x = k)" (.fresh default true (.fresh false))
      (EvalM.evalText .standard "y = sum(0, 3, k, x = k)" (.fresh default true (.fresh false))).1
      (EvalM.evalText .standard "y = sum(0, 3, k, x = k)" (.fresh default true (.fresh false))).2 := by
  have hreachable : (Tables.fresh default true (.fresh false)).Reachable := ⟨_, _, _, .standard, [], rfl⟩
  obtain ⟨hw, hnames⟩ := Workspace.fresh_standard default (.fresh false)
  have hans : (Workspace.fresh default true (.fresh false)).Assignable "Ans" := by
    have hnone : (Workspace.fresh default true (.fresh false)).table.scope.get? "Ans" = none := by
      rw [Bindings.get?_eq_none, hnames]
      decide
    intro id v h
    rw [Table.locate?, hnone] at h
    cases h
  exact ⟨hreachable, Tables.line_effect hreachable (List.mem_singleton_self _) hw.functions hans _ _⟩

end ComplexCalc
