import ComplexCalc.Journal
/-!
# How actions run

An action takes a state and gives a result with the state it reached. The lemmas here run the parts
of a `do` block one by one: what comes after a success goes on from its state, and nothing comes
after a failure.
-/
namespace ComplexCalc.Action

variable {σ ε α β : Type}

@[simp] theorem pure_apply (a : α) (s : σ) : (pure a : Action σ ε α) s = (.ok a, s) := rfl

@[simp] theorem throw_apply (e : ε) (s : σ) : (throw e : Action σ ε α) s = (.error e, s) := rfl

@[simp] theorem get_apply (s : σ) : (get : Action σ ε σ) s = (.ok s, s) := rfl

@[simp] theorem modify_apply (f : σ → σ) (s : σ) :
    (modify f : Action σ ε PUnit) s = (.ok (), f s) := rfl

theorem bind_apply (x : Action σ ε α) (f : α → Action σ ε β) (s : σ) :
    (x >>= f) s = match x s with
      | (.ok a, t) => f a t
      | (.error e, t) => (.error e, t) := by
  change ExceptT.bindCont f (x s).1 (x s).2 = _
  rcases x s with ⟨_ | _, _⟩ <;> rfl

theorem bind_ok {x : Action σ ε α} {f : α → Action σ ε β} {s t : σ} {a : α}
    (h : x s = (.ok a, t)) : (x >>= f) s = f a t := by
  rw [bind_apply, h]

theorem bind_error {x : Action σ ε α} {f : α → Action σ ε β} {s t : σ} {e : ε}
    (h : x s = (.error e, t)) : (x >>= f) s = (.error e, t) := by
  rw [bind_apply, h]

/-- What a sequence of two actions gave came from the second one, or the first one failed. -/
theorem bind_cases {x : Action σ ε α} {f : α → Action σ ε β} {s t : σ} {r : Except ε β}
    (h : (x >>= f) s = (r, t)) :
    (∃ a u, x s = (.ok a, u) ∧ f a u = (r, t)) ∨ ∃ e, x s = (.error e, t) ∧ r = .error e := by
  rcases hx : x s with ⟨e | a, u⟩
  · rw [bind_error hx] at h
    cases h
    exact .inr ⟨e, rfl, rfl⟩
  · rw [bind_ok hx] at h
    exact .inl ⟨a, u, rfl, h⟩

theorem bind_eq_ok {x : Action σ ε α} {f : α → Action σ ε β} {s t : σ} {b : β}
    (h : (x >>= f) s = (.ok b, t)) : ∃ a u, x s = (.ok a, u) ∧ f a u = (.ok b, t) := by
  rcases bind_cases h with h | ⟨e, -, he⟩
  · exact h
  · cases he

/-- A handler goes on from the state that the failure reached. -/
theorem tryCatch_apply (x : Action σ ε α) (handler : ε → Action σ ε α) (s : σ) :
    (tryCatch x handler : Action σ ε α) s = match x s with
      | (.ok a, t) => (.ok a, t)
      | (.error e, t) => handler e t := by
  change (match (x s).1 with
    | .ok a => pure (.ok a)
    | .error e => handler e : StateM σ (Except ε α)) (x s).2 = _
  rcases x s with ⟨_ | _, _⟩ <;> rfl

end ComplexCalc.Action
