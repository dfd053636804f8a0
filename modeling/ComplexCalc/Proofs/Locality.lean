import ComplexCalc.Proofs.Agreement
/-!
# Evaluation is local to the names of an expression

Of the variables of a table an evaluation finds those that the expression mentions, and nothing else:
on two tables that agree on these names it gives the same value or the same failure, and leaves them in
agreement. What else they bind, in which order, and what their random sources hold has no influence.
-/
namespace ComplexCalc

/-- The name stands in the expression as a variable that is read, assigned, or run through by a
sum. -/
def Expr.Mentions (e : Expr) (x : String) : Prop := name x ∈ e.parts ∨ ∃ v, assign x v ∈ e.parts

/-- The tables have the same builtin functions, and read every name that the expression mentions
alike: it is unbound on both, or has the same value and is a constant on both or on neither. -/
structure Workspace.AgreesOn (e : Expr) (w u : Workspace) : Prop where
  left : w.Sound
  right : u.Sound
  functions : ∀ f, w.table.functions.get? f = u.table.functions.get? f
  builtin : ∀ f c, w.table.functions.get? f = some c → EvalM.builtins.get? f = some c
  debug : w.journal.enabled = u.journal.enabled
  names : ∀ x, e.Mentions x → w.reading x = u.reading x

namespace Workspace.AgreesOn

variable {e : Expr} {w u : Workspace}

theorem mirrors (h : w.AgreesOn e u) : Mirrors none e.Mentions u.journal.enabled w u where
  left := h.left
  right := h.right
  functions := h.functions
  builtin := h.builtin
  leftDebug := h.debug
  rightDebug := rfl
  agree x hx _ := h.names x hx
  hidden _ _ hk := by cases hk

theorem of_mirrors {d : Bool} (h : Mirrors none e.Mentions d w u) : w.AgreesOn e u where
  left := h.left
  right := h.right
  functions := h.functions
  builtin := h.builtin
  debug := h.leftDebug.trans h.rightDebug.symm
  names x hx := h.agree x hx fun _ hk => by cases hk

end Workspace.AgreesOn

/-- An expression without random numbers gives the same on all tables that agree on the names in it,
and they agree on these names again when it is evaluated or has failed. -/
theorem eval_depends_on_mentioned_names {s : Settings} {e : Expr} {w u : Workspace}
    (hdraws : e.DrawsNothing) (h : w.AgreesOn e u) :
    (e.eval s w).1 = (e.eval s u).1 ∧ (e.eval s w).2.AgreesOn e (e.eval s u).2 := by
  have hfits : e.Fits none e.Mentions := ⟨fun _ hx => hx, hdraws, .inl rfl⟩
  obtain ⟨hresult, hend⟩ := eval_alike (s := s) e hfits w u h.mirrors
  rw [Expr.under_none] at hresult hend
  exact ⟨hresult, .of_mirrors hend⟩

/-- A sum that a variable is updated by gives the same after an unrelated assignment and with other
random numbers. -/
theorem update_by_sum_is_local :
    let e : Expr := .assign "x" (.binary .add (.name "x") (.call "sum"
      [.num (.ofInt 0), .num (.ofInt 3), .name "k", .binary .mul (.name "k") (.name "x")]))
    let w := (EvalM.assign "x" (.number (.ofInt 2)) (.fresh default true (.fresh false))).2
    let u := (EvalM.assign "x" (.number (.ofInt 2))
      (EvalM.assign "z" .none (.fresh (.reseed default 1) true (.fresh false))).2).2
    w.AgreesOn e u ∧ (e.eval .standard w).1 = (e.eval .standard u).1 ∧
      (e.eval .standard w).2.AgreesOn e (e.eval .standard u).2 := by
  intro e w u
  have hdraws : e.DrawsNothing := by simp [e, Expr.DrawsNothing, Expr.parts, Expr.partsOfAll]
  -- A name that a new table does not bind is given a value.
  have hassign : ∀ (v : Workspace) (x : String) (a : Value), v.Sound → v.reading x = none →
      Written x a v (EvalM.assign x a v).2 := by
    intro v x a hv hx
    obtain ⟨hconst, -⟩ | ⟨-, v', hv', hwritten⟩ := assign_reading hv x a
    · exact absurd (Workspace.assignable_of_unbound hx) hconst
    · rwa [hv']
  have hunbound : ∀ (random : RandomSource), ∀ x ∈ ["x", "z", "k"],
      (Workspace.fresh random true (.fresh false)).reading x = none := by
    intro random x hx
    refine Workspace.reading_of_unbound (Bindings.get?_eq_none.2 ?_)
    rw [(Workspace.fresh_standard random (.fresh false)).2]
    revert x
    decide
  obtain ⟨hfirst, -⟩ := Workspace.fresh_standard default (.fresh false)
  obtain ⟨hsecond, -⟩ := Workspace.fresh_standard (.reseed default 1) (.fresh false)
  have hw := hassign _ "x" (.number (.ofInt 2)) hfirst.sound (hunbound default "x" (by simp))
  have hz := hassign _ "z" .none hsecond.sound (hunbound (.reseed default 1) "z" (by simp))
  have hu := hassign _ "x" (.number (.ofInt 2)) hz.sound
    ((hz.others "x" (by decide)).trans (hunbound (.reseed default 1) "x" (by simp)))
  have hagrees : w.AgreesOn e u := by
    refine ⟨hw.sound, hu.sound, fun f => ?_, fun f c hc => ?_, ?_, fun x hx => ?_⟩
    · rw [hw.functions, hu.functions, hz.functions, hfirst.functions, hsecond.functions]
    · rwa [hw.functions, hfirst.functions] at hc
    · rw [hw.journal, hu.journal, hz.journal, Workspace.journal_fresh, Workspace.journal_fresh]
    · obtain rfl | rfl : x = "x" ∨ x = "k" := by
        simpa [e, Expr.Mentions, Expr.parts, Expr.partsOfAll, or_comm, or_assoc, or_left_comm] using hx
      · rw [hw.self, hu.self]
      · rw [hw.others "k" (by decide), hu.others "k" (by decide), hz.others "k" (by decide),
          hunbound default "k" (by simp), hunbound (.reseed default 1) "k" (by simp)]
  exact ⟨hagrees, eval_depends_on_mentioned_names hdraws hagrees⟩

end ComplexCalc
