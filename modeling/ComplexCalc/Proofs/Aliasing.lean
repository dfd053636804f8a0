import ComplexCalc.Proofs.Protection
/-!
# Copies share variables and not bindings

A copy of a table binds the same names to the same variables, and it goes on doing so until one of the
two tables binds a name anew or is cleared. Whatever is done to one table, no other table gains a name,
loses one or binds one anew.
-/
namespace ComplexCalc.Tables

variable {ts : Tables} {s : Settings} {i j k l id : Nat} {x : String}

/-- The index of the variable that a name is bound to in a table. -/
def binding? (ts : Tables) (k : Nat) (x : String) : Option Nat :=
  ts.tables[k]?.bind fun t => t.scope.get? x

/-- The steps, taken one after the other, come to one that binds the name anew in the table or clears
the table. -/
def Releases (ts : Tables) (s : Settings) (steps : List (Nat × TableStep)) (k : Nat) (x : String) :
    Prop :=
  ∃ before i change after, steps = before ++ (i, change) :: after ∧
    ((ts.run s before).Rebinds s i change k x ∨ (i, change) = (k, .clear))

/-- The name has the same variable in two tables, so that an assignment through either of them is read
through both. -/
def Shares (ts : Tables) (s : Settings) (k l : Nat) (x : String) (id : Nat) : Prop :=
  ∃ v, ts.locate? k x = some (id, v) ∧ ts.locate? l x = some (id, v) ∧
    (v.constant = false → ∀ a j, j = k ∨ j = l →
      (ts.step s j (.assign x a)).1 = .ok .done ∧
      (ts.step s j (.assign x a)).2.locate? k x = some (id, { v with value := a }) ∧
      (ts.step s j (.assign x a)).2.locate? l x = some (id, { v with value := a }))

/-! ## Bindings last -/

theorem binding?_eq_some : ts.binding? k x = some id ↔
    ∃ t, ts.tables[k]? = some t ∧ t.scope.get? x = some id := Option.bind_eq_some_iff

theorem step_binding? (hts : ts.Sound) (h : ts.binding? k x = some id) {change : TableStep}
    (hrebinds : ¬ts.Rebinds s i change k x) (hclear : (i, change) ≠ (k, .clear)) :
    (ts.step s i change).2.binding? k x = some id := by
  obtain ⟨t, ht, hx⟩ := binding?_eq_some.1 h
  obtain ⟨t', ht', hguarded⟩ := step_guarded (s := s) hts ht hclear
  refine binding?_eq_some.2 ⟨t', ht', ?_⟩
  rcases hguarded.bindings x id hx with hx | ⟨hr, -⟩
  · exact hx
  · exact absurd hr hrebinds

theorem run_binding? (hts : ts.Sound) (h : ts.binding? k x = some id)
    {steps : List (Nat × TableStep)} (hsteps : ¬ts.Releases s steps k x) :
    (ts.run s steps).binding? k x = some id := by
  induction steps generalizing ts with
  | nil => exact h
  | cons step steps ih =>
    obtain ⟨i, change⟩ := step
    have hfirst : ¬(ts.Rebinds s i change k x ∨ (i, change) = (k, .clear)) := fun hr =>
      hsteps ⟨[], i, change, steps, rfl, hr⟩
    rw [not_or] at hfirst
    refine ih (step_sound s i change hts) (step_binding? hts h hfirst.1 hfirst.2) ?_
    rintro ⟨before, j, c, after, rfl, hr⟩
    exact hsteps ⟨(i, change) :: before, j, c, after, rfl, hr⟩

/-! ## Assignments are shared -/

/-- An assignment to a variable changes its value and nothing else. -/
theorem step_assign {t : Table} {v : Variable} (hts : ts.Sound) (ht : ts.tables[k]? = some t)
    (hx : t.scope.get? x = some id) (hv : ts.memory[id]? = some v) (hconst : v.constant = false)
    (s : Settings) (a : Value) : ts.step s k (.assign x a) =
      (.ok .done, { ts with memory := ts.memory.setIfInBounds id { v with value := a } }) := by
  have hset : ts.tables.set k t = ts.tables := by
    obtain ⟨hlt, rfl⟩ := List.getElem?_eq_some_iff.1 ht
    exact List.set_getElem_self hlt
  have hassign : EvalM.assign x a (ts.workspace t) = (.ok (), ⟨ts.memory.setIfInBounds id
      { v with value := a }, t, ts.journal⟩) := by
    rcases EvalM.assign_cases (hts t (List.mem_of_getElem? ht)) x a with
      ⟨-, id', v', hx', hv', hk⟩ | ⟨id', v', hx', hv', -, -, h⟩ | ⟨hnone, -⟩
    · cases hx.symm.trans hx'
      cases hv.symm.trans hv'
      rw [hconst] at hk
      cases hk
    · cases hx.symm.trans hx'
      cases hv.symm.trans hv'
      exact h
    · cases hx.symm.trans hnone
  have hstep : ts.step s k (.assign x a) =
      ts.on k (do EvalM.assign x a; return TableAnswer.done) := by rw [step]
  rw [hstep, on_eq ht, answer_apply, hassign, hset]
  rfl

/-- Names of one variable are read alike, whichever of them it is assigned through. -/
theorem shares_of_binding? (hts : ts.Sound) (hk : ts.binding? k x = some id)
    (hl : ts.binding? l x = some id) : ts.Shares s k l x id := by
  obtain ⟨t, ht, hx⟩ := binding?_eq_some.1 hk
  obtain ⟨u, hu, hy⟩ := binding?_eq_some.1 hl
  obtain ⟨v, hv, -⟩ := hts t (List.mem_of_getElem? ht) x id hx
  have hread : ∀ (m : Memory) (v' : Variable), m[id]? = some v' →
      Tables.locate? { ts with memory := m } k x = some (id, v') ∧
      Tables.locate? { ts with memory := m } l x = some (id, v') := by
    intro m v' hm
    simp only [locate?, ht, hu]
    exact ⟨Table.locate?_eq_some.2 ⟨hx, hm⟩, Table.locate?_eq_some.2 ⟨hy, hm⟩⟩
  refine ⟨v, (hread ts.memory v hv).1, (hread ts.memory v hv).2, fun hconst a j hj => ?_⟩
  have hassign : ts.step s j (.assign x a) =
      (.ok .done, { ts with memory := ts.memory.setIfInBounds id { v with value := a } }) := by
    rcases hj with rfl | rfl
    · exact step_assign hts ht hx hv hconst s a
    · exact step_assign hts hu hy hv hconst s a
  have hlt : id < ts.memory.size := (Array.getElem?_eq_some_iff.1 hv).1
  rw [hassign]
  exact ⟨rfl, hread _ _ (by simp [hlt])⟩

/-! ## Clearing is not seen elsewhere -/

theorem step_clear_locate? (hts : ts.Sound) (hne : i ≠ k) (x : String) :
    (ts.step s i .clear).2.locate? k x = ts.locate? k x := by
  have hstep : ts.step s i .clear = ts.on i (do EvalM.clear; return TableAnswer.done) := by rw [step]
  have hmem : ts.memory.Extends (ts.step s i .clear).2.memory := by
    rw [hstep]
    exact on_answer_extends .clear
  have htable : (ts.step s i .clear).2.tables[k]? = ts.tables[k]? := by
    rw [hstep]
    exact on_ne hne
  unfold locate?
  rw [htable]
  rcases ht : ts.tables[k]? with - | t
  · rfl
  · rcases EvalM.locate?_of_sound (x := x) (hts t (List.mem_of_getElem? ht)) with
      ⟨-, hx⟩ | ⟨id, v, hl, hx, hv, -⟩
    · simp [Table.locate?, hx]
    · exact (Table.locate?_eq_some.2 ⟨hx, hmem id v hv⟩).trans hl.symm

/-- However many tables there are and whatever steps have been taken: what is bound in a table when it
is copied has the same variable in both tables until one of them binds the name anew or is cleared; a
step leaves every other table as it is; and clearing a table changes nothing that is seen through
another one. -/
theorem copies_share_until_released (hts : ts.Sound) (s : Settings) :
    (∀ k l, (ts.step s k .copy).1 = .ok (.table l) → ∀ x id, ts.binding? k x = some id →
      ∀ steps, ¬(ts.step s k .copy).2.Releases s steps k x →
        ¬(ts.step s k .copy).2.Releases s steps l x →
        ((ts.step s k .copy).2.run s steps).Shares s k l x id) ∧
    (∀ i change k, change.target i ≠ k → k < ts.tables.length →
      (ts.step s i change).2.tables[k]? = ts.tables[k]?) ∧
    (∀ i k, i ≠ k → ∀ x, (ts.step s i .clear).2.locate? k x = ts.locate? k x) := by
  refine ⟨fun k l hcopy x id hx steps hk hl => ?_, fun i change k => step_ne,
    fun i k => step_clear_locate? hts⟩
  obtain ⟨t, ht, hbound⟩ := binding?_eq_some.1 hx
  obtain ⟨random, source, hstep⟩ := step_copy s ht
  have hlt : k < ts.tables.length := (List.getElem?_eq_some_iff.1 ht).1
  have hsound := step_sound s k .copy hts
  rw [hstep] at hcopy hsound hk hl ⊢
  cases hcopy
  refine shares_of_binding? (run_sound s steps hsound) (run_binding? hsound ?_ hk)
    (run_binding? hsound ?_ hl)
  · refine binding?_eq_some.2 ⟨{ t with random := random }, ?_, hbound⟩
    rw [List.getElem?_append_left (by simpa using hlt)]
    exact List.getElem?_set_self hlt
  · exact binding?_eq_some.2 ⟨{ t with random := source }, by simp, hbound⟩

/-- A variable that is bound before a copy is made is assigned through the copy. -/
theorem copy_shares_assigned_variable :
    (((Tables.fresh default true (.fresh false)).run .standard [(0, .assign "x" .none)]).step .standard 0
      .copy).1 = .ok (.table 1) ∧
    ((((Tables.fresh default true (.fresh false)).run .standard [(0, .assign "x" .none)]).step .standard 0
      .copy).2.run .standard [(1, .eval "x = 2"), (0, .define ⟨"y", .none, true⟩)]).Shares
        .standard 0 1 "x" 4 := by
  have hsound := run_sound .standard [(0, .assign "x" .none)] (fresh_sound default true (.fresh false))
  have hx : ((Tables.fresh default true (.fresh false)).run .standard
      [(0, .assign "x" .none)]).binding? 0 "x" = some 4 := by decide +kernel
  have hcopy : (((Tables.fresh default true (.fresh false)).run .standard
      [(0, .assign "x" .none)]).step .standard 0 .copy).1 = .ok (.table 1) := by
    obtain ⟨t, ht, -⟩ := binding?_eq_some.1 hx
    obtain ⟨random, source, hstep⟩ := step_copy .standard ht
    rw [hstep]
    rfl
  -- Neither step binds `x` anew: the first one assigns to it, the second one binds another name.
  have hsteps : ∀ ts k, ¬Releases ts .standard
      [(1, .eval "x = 2"), (0, .define ⟨"y", .none, true⟩)] k "x" := by
    rintro ts k ⟨before, i, change, after, h, hr⟩
    have hmem : (i, change) ∈ [(1, TableStep.eval "x = 2"), (0, .define ⟨"y", .none, true⟩)] := by
      simp [h]
    simp only [List.mem_cons, List.not_mem_nil, or_false, Prod.mk.injEq] at hmem
    rcases hmem with ⟨rfl, rfl⟩ | ⟨rfl, rfl⟩ <;> simp [Rebinds] at hr
  exact ⟨hcopy, (copies_share_until_released hsound .standard).1 0 1 hcopy "x" 4 hx _
    (hsteps _ 0) (hsteps _ 1)⟩

end ComplexCalc.Tables
