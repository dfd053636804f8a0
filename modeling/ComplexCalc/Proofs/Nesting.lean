import ComplexCalc.Journal
import Mathlib.Data.List.Basic
/-!
# Nested entries

The calls that a journal records lie within each other. `Bracketed` builds such entries from the inside:
notes, and calls with what they leave two columns further right and with their ends. `WellNested` says
the same of the places of the entries: each call has one end, at its own column, and everything in
between is further right.
-/
namespace ComplexCalc

/-- The event is the end of the call with this signature. -/
def Event.Ends (signature : String) : Event → Prop
  | .returned own _ | .failed own _ => own = signature
  | .note _ | .call _ => False

/-- The entries that notes and calls leave from the column `k` on. -/
inductive Bracketed : Nat → List Entry → Prop
  | nil {k : Nat} : Bracketed k []
  | note {k : Nat} {message : String} {es : List Entry} :
      Bracketed k es → Bracketed k (⟨k, .note message⟩ :: es)
  | call {k : Nat} {signature : String} {ending : Event} {inner es : List Entry} :
      ending.Ends signature → Bracketed (k + 2) inner → Bracketed k es →
      Bracketed k (⟨k, .call signature⟩ :: inner ++ ⟨k, ending⟩ :: es)

/-- Behind a call at the column `k` come `inner`, then its end, and then `rest`. -/
structure EndsAt (k : Nat) (signature : String) (after inner : List Entry) (ending : Event)
    (rest : List Entry) : Prop where
  eq : after = inner ++ ⟨k, ending⟩ :: rest
  ends : ending.Ends signature
  deeper : ∀ e ∈ inner, k + 2 ≤ e.indent

/-- Each call stands at an even column, and at the same column behind it there is one end of it up to
which everything is further right. Each end is the end of such a call. -/
structure WellNested (es : List Entry) : Prop where
  closed : ∀ before k signature after, es = before ++ ⟨k, .call signature⟩ :: after →
    (∃ depth, k = 2 * depth) ∧ ∃ inner ending rest, EndsAt k signature after inner ending rest ∧
      ∀ inner' ending' rest', EndsAt k signature after inner' ending' rest' →
        inner' = inner ∧ ending' = ending ∧ rest' = rest
  opened : ∀ before k ending after signature, es = before ++ ⟨k, ending⟩ :: after →
    ending.Ends signature → ∃ earlier inner, before = earlier ++ ⟨k, .call signature⟩ :: inner ∧
      ∀ e ∈ inner, k + 2 ≤ e.indent

/-- Two ways to point at an element of a list point at the same one, or one of them at an earlier one. -/
theorem append_cons_eq {α : Type} {as bs cs ds : List α} {x y : α}
    (h : as ++ x :: bs = cs ++ y :: ds) :
    (∃ ls, cs = as ++ x :: ls ∧ bs = ls ++ y :: ds) ∨ (as = cs ∧ x = y ∧ bs = ds) ∨
      ∃ ls, as = cs ++ y :: ls ∧ ds = ls ++ x :: bs := by
  rcases List.append_eq_append_iff.1 h with ⟨ls, rfl, hls⟩ | ⟨ls, rfl, hls⟩
  · cases ls with
    | nil =>
      cases hls
      exact .inr (.inl ⟨(List.append_nil as).symm, rfl, rfl⟩)
    | cons z ls =>
      cases hls
      exact .inl ⟨ls, rfl, rfl⟩
  · cases ls with
    | nil =>
      cases hls
      exact .inr (.inl ⟨List.append_nil cs, rfl, rfl⟩)
    | cons z ls =>
      cases hls
      exact .inr (.inr ⟨ls, rfl, rfl⟩)

theorem not_ends_call (signature own : String) : ¬(Event.call own).Ends signature := id

/-- The end of a call is the only one up to which everything is further right. -/
theorem EndsAt.unique {k : Nat} {signature : String} {after inner inner' rest rest' : List Entry}
    {ending ending' : Event} (h : EndsAt k signature after inner ending rest)
    (h' : EndsAt k signature after inner' ending' rest') :
    inner' = inner ∧ ending' = ending ∧ rest' = rest := by
  have hout : ∀ event : Event, ¬k + 2 ≤ (Entry.mk k event).indent := by
    intro event
    dsimp only
    omega
  rcases append_cons_eq (h.eq.symm.trans h'.eq) with ⟨ls, rfl, -⟩ | ⟨rfl, heq, rfl⟩ | ⟨ls, rfl, -⟩
  · exact absurd (h'.deeper ⟨k, ending⟩ (by simp)) (hout _)
  · cases heq
    exact ⟨rfl, rfl, rfl⟩
  · exact absurd (h.deeper ⟨k, ending'⟩ (by simp)) (hout _)

namespace Bracketed

variable {k : Nat} {es fs : List Entry}

theorem append (h : Bracketed k es) (h' : Bracketed k fs) : Bracketed k (es ++ fs) := by
  induction h with
  | nil => exact h'
  | note _ ih => exact .note (ih h')
  | call hends hinner _ _ ih =>
    rw [List.append_assoc]
    exact .call hends hinner (ih h')

/-- All entries stand at the column from which they are built, or an even distance to the right. -/
theorem indent (h : Bracketed k es) : ∀ e ∈ es, ∃ depth, e.indent = k + 2 * depth := by
  induction h with
  | nil => simp
  | note _ ih => exact List.forall_mem_cons.2 ⟨⟨0, rfl⟩, ih⟩
  | call _ _ _ ihinner ih =>
    refine List.forall_mem_append.2 ⟨List.forall_mem_cons.2 ⟨⟨0, rfl⟩, fun e he => ?_⟩,
      List.forall_mem_cons.2 ⟨⟨0, rfl⟩, ih⟩⟩
    obtain ⟨depth, hdepth⟩ := ihinner e he
    exact ⟨depth + 1, by omega⟩

theorem le_indent (h : Bracketed k es) : ∀ e ∈ es, k ≤ e.indent := fun e he => by
  obtain ⟨depth, hdepth⟩ := h.indent e he
  omega

/-- Behind each call among the entries is its end. -/
theorem exists_endsAt (h : Bracketed k es) {before after : List Entry} {c : Nat} {signature : String}
    (heq : es = before ++ ⟨c, .call signature⟩ :: after) :
    ∃ inner ending rest, EndsAt c signature after inner ending rest := by
  induction h generalizing before after with
  | nil => simp at heq
  | note _ ih =>
    cases before with
    | nil => cases heq
    | cons b before => exact ih (List.cons.inj heq).2
  | @call k own ending inner es hends hinner _ ihinner ih =>
    cases before with
    | nil =>
      cases heq
      exact ⟨inner, ending, es, rfl, hends, hinner.le_indent⟩
    | cons b before =>
      rcases append_cons_eq (List.cons.inj heq).2 with ⟨ls, -, hls⟩ | ⟨-, heq, -⟩ | ⟨ls, hls, rfl⟩
      · exact ih hls
      · cases heq
        exact absurd hends (not_ends_call _ _)
      · obtain ⟨inner', ending', rest, hend⟩ := ihinner hls
        refine ⟨inner', ending', rest ++ ⟨k, ending⟩ :: es, ?_, hend.ends, hend.deeper⟩
        rw [hend.eq, List.append_assoc, List.cons_append]

/-- Before each end among the entries is its call. -/
theorem exists_call (h : Bracketed k es) {before after : List Entry} {c : Nat} {event : Event}
    {signature : String} (heq : es = before ++ ⟨c, event⟩ :: after) (hends : event.Ends signature) :
    ∃ earlier inner, before = earlier ++ ⟨c, .call signature⟩ :: inner ∧
      ∀ e ∈ inner, c + 2 ≤ e.indent := by
  induction h generalizing before after with
  | nil => simp at heq
  | note _ ih =>
    cases before with
    | nil =>
      cases heq
      exact hends.elim
    | cons b before =>
      obtain ⟨earlier, inner, rfl, hinner⟩ := ih (List.cons.inj heq).2
      exact ⟨b :: earlier, inner, rfl, hinner⟩
  | @call k own ending inner es hends' hinner _ ihinner ih =>
    cases before with
    | nil =>
      cases heq
      exact absurd hends (not_ends_call _ _)
    | cons b before =>
      obtain ⟨hb, heq⟩ := List.cons.inj heq
      rcases append_cons_eq heq with ⟨ls, rfl, hls⟩ | ⟨rfl, heq, -⟩ | ⟨ls, hls, -⟩
      · obtain ⟨earlier, inner', rfl, hinner'⟩ := ih hls
        exact ⟨b :: inner ++ ⟨k, ending⟩ :: earlier, inner', by simp, hinner'⟩
      · cases heq
        -- An event ends calls of one signature only.
        have hown : own = signature := by cases event <;> simp_all [Event.Ends]
        exact ⟨[], inner, by rw [← hb, hown]; rfl, hinner.le_indent⟩
      · obtain ⟨earlier, inner', rfl, hinner'⟩ := ihinner hls
        exact ⟨b :: earlier, inner', rfl, hinner'⟩

theorem wellNested (h : Bracketed 0 es) : WellNested es where
  closed before c signature after heq := by
    obtain ⟨inner, ending, rest, hend⟩ := h.exists_endsAt heq
    obtain ⟨depth, hdepth⟩ := h.indent ⟨c, .call signature⟩ (by simp [heq])
    exact ⟨⟨depth, by simpa using hdepth⟩, inner, ending, rest, hend, fun _ _ _ => hend.unique⟩
  opened before c ending after signature heq hends := h.exists_call heq hends

end Bracketed
end ComplexCalc
