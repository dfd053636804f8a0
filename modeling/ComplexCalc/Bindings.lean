/-!
# Bindings

A list of bound names. A name is bound at most once; binding it anew keeps its place in the list.
-/
namespace ComplexCalc

/-- Names and what they are bound to, in the order in which they were first bound. -/
abbrev Bindings (α : Type) := List (String × α)

namespace Bindings

variable {α : Type}

/-- What a name is bound to. -/
def get? (bs : Bindings α) (name : String) : Option α := bs.lookup name

/-- The bindings with a name bound anew. -/
def bind (bs : Bindings α) (name : String) (a : α) : Bindings α :=
  match bs with
  | [] => [(name, a)]
  | (n, b) :: rest => if n = name then (n, a) :: rest else (n, b) :: bind rest name a

/-- The bound names. -/
def names (bs : Bindings α) : List String := bs.map (·.1)

theorem get?_bind_self (bs : Bindings α) (name : String) (a : α) :
    (bs.bind name a).get? name = some a := by
  induction bs with
  | nil => simp [bind, get?]
  | cons b rest ih =>
    obtain ⟨n, b⟩ := b
    by_cases h : n = name
    · simp [bind, get?, h]
    · have hb : (name == n) = false := by simpa using Ne.symm h
      simpa [bind, get?, h, List.lookup_cons, hb] using ih

theorem get?_bind_of_ne (bs : Bindings α) {name other : String} (a : α) (hne : other ≠ name) :
    (bs.bind name a).get? other = bs.get? other := by
  induction bs with
  | nil =>
    have hb : (other == name) = false := by simpa using hne
    simp [bind, get?, List.lookup_cons, hb]
  | cons b rest ih =>
    obtain ⟨n, b⟩ := b
    by_cases h : n = name
    · subst h
      have hb : (other == n) = false := by simpa using hne
      simp [bind, get?, List.lookup_cons, hb]
    · simp only [get?] at ih
      simp [bind, get?, h, List.lookup_cons, ih]

/-- A new name comes last, and a bound one keeps its place. -/
theorem names_bind (bs : Bindings α) (name : String) (a : α) :
    (bs.bind name a).names = if name ∈ bs.names then bs.names else bs.names ++ [name] := by
  induction bs with
  | nil => simp [bind, names]
  | cons b rest ih =>
    obtain ⟨n, b⟩ := b
    by_cases h : n = name
    · simp [bind, names, h]
    · have hn : ¬name = n := fun e => h e.symm
      simp only [names] at ih
      by_cases hm : name ∈ rest.map (·.1) <;> simp_all [bind, names]

end Bindings
end ComplexCalc
