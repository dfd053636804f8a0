import ComplexCalc.Proofs.Frame
/-!
# Parts and substitution

`parts` lists an expression with everything in it. `substitute` puts a number in place of a name, but
not where the name is the loop variable of a sum: there it stands for the integers that the sum runs
through.
-/
namespace ComplexCalc

namespace Expr

/-! ## Parts -/

mutual

/-- The expression and the parts of its parts. -/
def parts : Expr → List Expr
  | e@(num _) | e@(name _) => [e]
  | e@(assign _ v) => e :: v.parts
  | e@(unary _ a) => e :: a.parts
  | e@(binary _ l r) => e :: (l.parts ++ r.parts)
  | e@(call _ args) => e :: partsOfAll args

/-- The parts of some expressions. -/
def partsOfAll : List Expr → List Expr
  | [] => []
  | a :: rest => a.parts ++ partsOfAll rest

end

/-- No part of the expression assigns to a name. -/
def AssignsNothing (e : Expr) : Prop := ∀ x v, assign x v ∉ e.parts

/-- No part of the expression calls a function that draws from the random source. -/
def DrawsNothing (e : Expr) : Prop :=
  ∀ args, call "random" args ∉ e.parts ∧ call "rand_int" args ∉ e.parts

variable {e : Expr}

theorem mem_parts_self (e : Expr) : e ∈ e.parts := by
  cases e <;> exact List.mem_cons_self

theorem mem_partsOfAll {args : List Expr} :
    e ∈ partsOfAll args ↔ ∃ a ∈ args, e ∈ a.parts := by
  induction args with
  | nil => simp [partsOfAll]
  | cons a rest ih => simp [partsOfAll, ih]

theorem parts_subset_call {f : String} {args : List Expr} {a : Expr} (ha : a ∈ args) :
    a.parts ⊆ (call f args).parts := fun _ h =>
  List.mem_cons_of_mem _ (mem_partsOfAll.2 ⟨a, ha, h⟩)

end Expr

section Parts
variable {s : Settings} {e e' : Expr} {w w' : Workspace} {x : String} {loops : List String}

/-- What a rule evaluates are parts of the expression. -/
theorem Starts.parts_subset (h : Starts s e w loops e' w') : e'.parts ⊆ e.parts := by
  cases h with
  | assigned | operand => exact fun _ h => List.mem_cons_of_mem _ h
  | left => exact fun _ h => List.mem_cons_of_mem _ (List.mem_append_left _ h)
  | right | divisor => exact fun _ h => List.mem_cons_of_mem _ (List.mem_append_right _ h)
  | argument _ _ ha | firstBound _ _ ha | secondBound _ _ ha =>
    exact Expr.parts_subset_call (List.mem_of_getElem? ha)
  | body => exact Expr.parts_subset_call (by simp)

theorem Visits.mem_parts (h : Visits s e w loops e' w') : e' ∈ e.parts := by
  induction h with
  | here => exact Expr.mem_parts_self _
  | part hstart _ ih => exact hstart.parts_subset ih

theorem Expr.AssignsNothing.not_performs (he : e.AssignsNothing) : ¬Performs s e w x loops := by
  rintro ⟨v, a, w₀, w₁, w₂, hv, -, -⟩
  exact he x v hv.mem_parts

/-- The evaluation of an expression that assigns nothing changes nothing. -/
theorem Expr.AssignsNothing.keeps (he : e.AssignsNothing) (w : Workspace) :
    Keeps (fun _ => False) (fun _ => False) (e.eval s) w :=
  (eval_keeps e w).mono (fun _ => he.not_performs) fun _ ⟨_, hp, _⟩ => he.not_performs hp

end Parts

/-! ## Substitution -/

namespace Expr

mutual

/-- The expression with a number in place of a name, where no sum over the name hides it. -/
def substitute (k : String) (z : Number) : Expr → Expr
  | num a => num a
  | name x => if x = k then num z else name x
  | assign x v => assign x (v.substitute k z)
  | unary op a => unary op (a.substitute k z)
  | binary op l r => binary op (l.substitute k z) (r.substitute k z)
  | call f args =>
    call f (substituteFrom k z (f = "sum" ∧ args[2]?.bind name? = some k) 0 args)

/-- The arguments from an index on with the number in place of the name, but for the name and the body
of a sum that hides the name. -/
def substituteFrom (k : String) (z : Number) (hides : Bool) : Nat → List Expr → List Expr
  | _, [] => []
  | i, a :: rest =>
    (if hides ∧ (i = 2 ∨ i = 3) then a else a.substitute k z) :: substituteFrom k z hides (i + 1) rest

end

/-- The expression with the number in place of the name, if there is one. -/
def under (hidden : Option (String × Number)) (e : Expr) : Expr :=
  match hidden with
  | none => e
  | some (k, z) => e.substitute k z

/-- What is still replaced in the body of a sum over `x`. -/
def hiddenIn (x : String) (hidden : Option (String × Number)) : Option (String × Number) :=
  hidden.filter (·.1 ≠ x)

variable {h : Option (String × Number)} {k x f : String} {z : Number} {args : List Expr}

theorem hiddenIn_of_visible (hx : ∀ z, h ≠ some (x, z)) : hiddenIn x h = h := by
  rcases h with - | ⟨k, z⟩
  · rfl
  · have hne : k ≠ x := by
      rintro rfl
      exact hx z rfl
    simp [hiddenIn, Option.filter_some, hne]

theorem hiddenIn_eq_some : hiddenIn x h = some (k, z) ↔ h = some (k, z) ∧ k ≠ x := by
  simp [hiddenIn, Option.filter_eq_some_iff]

theorem substitute_name (x : String) :
    (name x).substitute k z = if x = k then num z else name x := rfl

theorem substitute_call (f : String) (args : List Expr) : (call f args).substitute k z =
    call f (substituteFrom k z (f = "sum" ∧ args[2]?.bind name? = some k) 0 args) := rfl

@[simp] theorem substituteFrom_nil (hides : Bool) (i : Nat) : substituteFrom k z hides i [] = [] := rfl

@[simp] theorem substituteFrom_cons (hides : Bool) (i : Nat) (a : Expr) (rest : List Expr) :
    substituteFrom k z hides i (a :: rest) =
      (if hides ∧ (i = 2 ∨ i = 3) then a else a.substitute k z) ::
        substituteFrom k z hides (i + 1) rest := rfl

theorem substituteFrom_false (i : Nat) (args : List Expr) :
    substituteFrom k z false i args = args.map (substitute k z) := by
  induction args generalizing i with
  | nil => rfl
  | cons a rest ih => simp [ih]

theorem length_substituteFrom (hides : Bool) (i : Nat) (args : List Expr) :
    (substituteFrom k z hides i args).length = args.length := by
  induction args generalizing i with
  | nil => rfl
  | cons a rest ih => simp [ih]

@[simp] theorem under_none (e : Expr) : e.under none = e := rfl

@[simp] theorem under_some (e : Expr) : e.under (some (k, z)) = e.substitute k z := rfl

@[simp] theorem under_num (a : Number) : (num a).under h = num a := by
  rcases h with - | ⟨k, z⟩ <;> rfl

theorem under_name (hx : ∀ z, h ≠ some (x, z)) : (name x).under h = name x := by
  rcases h with - | ⟨k, z⟩
  · rfl
  · have hne : x ≠ k := by
      rintro rfl
      exact hx z rfl
    exact if_neg hne

@[simp] theorem substitute_name_self : (name k).substitute k z = num z := if_pos rfl

@[simp] theorem under_unary (op : UnaryOp) (a : Expr) :
    (unary op a).under h = unary op (a.under h) := by
  rcases h with - | ⟨k, z⟩ <;> rfl

@[simp] theorem under_binary (op : BinaryOp) (l r : Expr) :
    (binary op l r).under h = binary op (l.under h) (r.under h) := by
  rcases h with - | ⟨k, z⟩ <;> rfl

/-- A call keeps its function and the count of its arguments. -/
theorem under_call (f : String) (args : List Expr) : ∃ args', args'.length = args.length ∧
    (call f args).under h = call f args' := by
  rcases h with - | ⟨k, z⟩
  · exact ⟨args, rfl, rfl⟩
  · exact ⟨_, length_substituteFrom _ 0 args, rfl⟩

theorem under_call_of_visible (hk : f = "sum" → ∀ k z, h = some (k, z) → args[2]? ≠ some (name k)) :
    (call f args).under h = call f (args.map fun a => a.under h) := by
  rcases h with - | ⟨k, z⟩
  · simp
  · have hvisible : ¬(f = "sum" ∧ args[2]?.bind name? = some k) := by
      rintro ⟨hf, hk'⟩
      obtain ⟨n, hn, hname⟩ := Option.bind_eq_some_iff.1 hk'
      cases n <;> simp [name?] at hname
      exact hk hf k z rfl (by rw [hn, hname])
    simp only [under_some, substitute_call, hvisible, decide_false, substituteFrom_false]

/-- In the body of a sum its loop variable hides the name. -/
theorem under_sum (l r : Expr) (x : String) (b : Expr) :
    (call "sum" [l, r, name x, b]).under h =
      call "sum" [l.under h, r.under h, name x, b.under (hiddenIn x h)] := by
  rcases h with - | ⟨k, z⟩
  · rfl
  · by_cases hx : x = k
    · subst hx
      simp [substitute_call, name?, hiddenIn, Option.filter_some]
    · have hkx : k ≠ x := Ne.symm hx
      simp [substitute_call, substitute_name, name?, hiddenIn, Option.filter_some, hx, hkx]

example : (call "sum" [name "k", num z, name "k", name "k"]).substitute "k" z =
    call "sum" [num z, num z, name "k", name "k"] := by
  rfl

/-- Of expressions other than names no name is made. -/
theorem name?_under {e : Expr} (he : e.name? = none) : (e.under h).name? = none := by
  rcases h with - | ⟨k, z⟩
  · exact he
  · cases e <;> first | rfl | cases he

end Expr

end ComplexCalc
