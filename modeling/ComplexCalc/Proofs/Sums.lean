import ComplexCalc.Proofs.Agreement
import ComplexCalc.Proofs.ScientificDisplay
/-!
# A sum is a substitution

The loop of a sum assigns one integer after the other to a variable of its own, in a copy of the table
in use. Its result is that of a fold: the body is evaluated on the table in use itself, each time with
an integer in place of the loop variable.
-/
namespace ComplexCalc

/-- The total with the numbers added, from left to right, that the body has as its values with the
`count` integers from `i` on in place of the name. The first value that there is not, or that is no
number, ends it. -/
def Expr.addInstances (s : Settings) (body : Expr) (k : String) (w : Workspace) (count : Nat) (i : Int)
    (total : Number) : Except Failure Number :=
  ((List.range count).map fun j : Nat => i + j).foldlM (fun total i => do
    return total + (← (Rule.expectNumber ((body.substitute k (.ofInt i)).eval s) w).1)) total

/-- The sum of the body with the integers from `low` up to `high` in place of the name. -/
def Expr.instanceSum (s : Settings) (body : Expr) (k : String) (low high : Int) (w : Workspace) :
    Except Failure Number :=
  body.addInstances s k w (high - low).toNat low .zero

/-- What an evaluation gives if its rule gives this: while debugging is on, a value has to be shown. -/
def Workspace.traced (w : Workspace) (s : Settings) (r : Except Failure Value) :
    Except Failure Value :=
  match r with
  | .ok v => if w.journal.enabled then (Display.value s.math s.precision v).map fun _ => v else .ok v
  | .error f => .error f

/-- The tables have the same builtin functions and agree on all names but one, which is a constant on
neither of them. -/
structure Workspace.AgreesOff (k : String) (w u : Workspace) : Prop where
  left : w.Sound
  right : u.Sound
  functions : w.table.functions = u.table.functions
  builtin : ∀ f c, w.table.functions.get? f = some c → EvalM.builtins.get? f = some c
  debug : w.journal.enabled = u.journal.enabled
  others : ∀ y, y ≠ k → w.reading y = u.reading y
  leftVariable : w.Assignable k
  rightVariable : u.Assignable k

section Sums
variable {s : Settings} {body : Expr} {k : String} {w w' u : Workspace} {a b z : Number}
  {low high : Int}

theorem Workspace.traced_cases (w : Workspace) (s : Settings) (v : Value) :
    (∃ f, w.traced s (.ok v) = .error f) ∨ w.traced s (.ok v) = .ok v := by
  unfold Workspace.traced
  dsimp only
  split
  · rcases Display.value s.math s.precision v with f | text
    · exact .inl ⟨f, rfl⟩
    · exact .inr rfl
  · exact .inr rfl

theorem Workspace.traced_quiet (h : w.journal.enabled = false) (r : Except Failure Value) :
    w.traced s r = r := by
  unfold Workspace.traced
  rw [h]
  cases r <;> rfl

/-- With debugging off nothing has to be shown, and an integer can be. -/
theorem Workspace.traced_integer (h : s.math.Accurate ∨ w.journal.enabled = false)
    (ha : a.integer? = some low) : w.traced s (.ok (.number a)) = .ok (.number a) := by
  rcases h with hm | hquiet
  · obtain ⟨text, htext⟩ : ∃ text, Display.value s.math s.precision (.number a) = .ok text :=
      Display.integer_shown hm ha
    unfold Workspace.traced
    dsimp only
    rw [htext]
    split <;> rfl
  · exact traced_quiet hquiet _

theorem Expr.eval_traced (e : Expr) (w : Workspace) :
    (e.eval s w).1 = w.traced s (e.rule s (e.enter w)).1 := (Expr.eval_apply s e w).1

/-! ## The loop -/

/-- Where the loop variable is written, the table mirrors one on which it is replaced. -/
theorem Workspace.AgreesOff.mirrors (h : w.AgreesOff k u) (hw : Written k (.number z) w w') :
    Mirrors (some (k, z)) (fun _ => True) u.journal.enabled w' u where
  left := hw.sound
  right := h.right
  functions f := by rw [hw.functions, h.functions]
  builtin := hw.functions.symm ▸ h.builtin
  leftDebug := by rw [hw.journal, h.debug]
  rightDebug := rfl
  agree y _ hne := by
    have hy : y ≠ k := fun hyk => hne z (by rw [hyk])
    rw [hw.others y hy, h.others y hy]
  hidden x y hx := by
    cases hx
    exact ⟨hw.self, h.rightVariable⟩

theorem Workspace.AgreesOff.congr (h : w.AgreesOff k u) (hw : w.Coincides w') : w'.AgreesOff k u where
  left := hw.sound h.left
  right := h.right
  functions := hw.functions.trans h.functions
  builtin := hw.functions.symm ▸ h.builtin
  debug := hw.debug.trans h.debug
  others y hy := (hw.reading h.left y).trans (h.others y hy)
  leftVariable := by
    rw [Workspace.assignable_iff, hw.reading h.left k, ← Workspace.assignable_iff]
    exact h.leftVariable
  rightVariable := h.rightVariable

theorem Workspace.AgreesOff.written (h : w.AgreesOff k u) (hw : Written k (.number z) w w') :
    w'.AgreesOff k u where
  left := hw.sound
  right := h.right
  functions := hw.functions.trans h.functions
  builtin := hw.functions.symm ▸ h.builtin
  debug := by rw [hw.journal, h.debug]
  others y hy := (hw.others y hy).trans (h.others y hy)
  leftVariable := Workspace.assignable_of_reading hw.self
  rightVariable := h.rightVariable

theorem Expr.addInstances_succ (s : Settings) (body : Expr) (k : String) (w : Workspace) (count : Nat)
    (i : Int) (total : Number) : body.addInstances s k w (count + 1) i total =
      (Rule.expectNumber ((body.substitute k (.ofInt i)).eval s) w).1 >>= fun z =>
        body.addInstances s k w count (i + 1) (total + z) := by
  have hrange : ((List.range (count + 1)).map fun j : Nat => i + j) =
      i :: (List.range count).map fun j : Nat => (i + 1) + j := by
    rw [List.range_succ_eq_map, List.map_cons, List.map_map]
    refine congrArg₂ _ (by simp) (List.map_congr_left fun j _ => ?_)
    simp only [Function.comp_apply, Nat.succ_eq_add_one]
    omega
  rw [addInstances, hrange, List.foldlM_cons]
  cases (Rule.expectNumber ((body.substitute k (.ofInt i)).eval s) w).1 <;> rfl

/-- The loop on a table adds the instances of its body on every table that agrees but for the loop
variable. -/
theorem sumLoop_eq_addInstances (h : w.AgreesOff k u) (hassigns : body.AssignsNothing)
    (hdraws : body.DrawsNothing) (count : Nat) (i : Int) (total : Number) :
    (Rule.sumLoop k (body.eval s) count i total w).1 = body.addInstances s k u count i total := by
  induction count generalizing w i total with
  | zero => rfl
  | succ count ih =>
    rcases assign_reading h.left k (.number (.ofInt i)) with ⟨hconst, -⟩ | ⟨-, w₁, hw₁, hwritten⟩
    · exact absurd h.leftVariable hconst
    have hfits : body.Fits (some (k, .ofInt i)) fun _ => True :=
      ⟨fun _ _ => trivial, hdraws, .inr hassigns⟩
    have hmirrors := h.mirrors hwritten
    obtain ⟨hresult, hend⟩ := (eval_alike (s := s) body hfits).expectNumber w₁ u hmirrors
    have hkeeps : Keeps (fun _ => False) (fun _ => False) (Rule.expectNumber (body.eval s)) w₁ :=
      Keeps.composes.expectNumber (hassigns.keeps w₁)
    have hframe := hkeeps hwritten.sound
    rw [Expr.under_some] at hresult
    rw [Rule.sumLoop, Action.bind_ok hw₁, Expr.addInstances_succ, ← hresult]
    rcases hz : Rule.expectNumber (body.eval s) w₁ with ⟨e | z, w₂⟩ <;> rw [hz] at hend hframe
    · rw [Action.bind_error hz]
      rfl
    · rw [Action.bind_ok hz]
      -- The body changes nothing, so the next round begins in agreement again.
      have hcoincides : w₁.Coincides w₂ :=
        .of_frame hframe (hend.leftDebug.trans hmirrors.leftDebug.symm)
      exact ih ((h.written hwritten).congr hcoincides) (i + 1) (total + z)

/-! ## The call -/

theorem Workspace.Coincides.traced (h : w.Coincides w') (r : Except Failure Value) :
    w'.traced s r = w.traced s r := by
  unfold Workspace.traced
  rw [h.debug]

/-- A number is evaluated where it stands, and has to be shown while debugging is on. -/
theorem num_argument (es : List Expr) {i : Nat} (he : es[i]? = some (.num a))
    (ha : a.integer? = some low) (w : Workspace) : ∃ w',
      Rule.integerArgument (es.map (Expr.argument s)) i w =
        ((w.traced s (.ok (.number a))).map fun _ => low, w') ∧ w.Coincides w' := by
  have hat : Rule.argumentAt (es.map (Expr.argument s)) i w = (.ok ((Expr.num a).argument s), w) :=
    argumentAt_apply (by rw [List.getElem?_map, he]; rfl)
  have hvalue : ((Expr.num a).eval s w).1 = w.traced s (.ok (.number a)) := by
    rw [Expr.eval_traced]
    rfl
  obtain ⟨-, hmem, htable⟩ := Expr.eval_apply s (.num a) w
  have hcoincides : w.Coincides ((Expr.num a).eval s w).2 := by
    refine .of_eq (hmem.trans (by simp [Expr.rule])) (by rw [htable]; simp [Expr.rule])
      (by rw [htable]; simp [Expr.rule]) ((Expr.enabled_eval _ w).trans (by simp [Expr.rule]))
  rcases heval : (Expr.num a).eval s w with ⟨r, w'⟩
  rw [heval] at hvalue hcoincides
  refine ⟨w', ?_, hcoincides⟩
  have hbody : ((Expr.num a).argument s).value w = (w.traced s (.ok (.number a)), w') :=
    hvalue ▸ heval
  unfold Rule.integerArgument
  rw [Action.bind_ok hat]
  rcases w.traced_cases s (.number a) with ⟨f, hf⟩ | hok
  · rw [hf] at hbody ⊢
    exact Action.bind_error hbody
  · rw [hok] at hbody ⊢
    rw [Action.bind_ok hbody]
    simp only [ha]
    rfl

theorem sum_error_of_low {args : List Argument} {f : Failure} (hlen : args.length = 4)
    (hlow : Rule.integerArgument args 0 w = (.error f, w')) : (Rule.sum args w).1 = .error f := by
  unfold Rule.sum
  dsimp only
  rw [Action.bind_ok (checkCount_apply w hlen), Action.bind_error hlow]

theorem sum_error_of_high {args : List Argument} {f : Failure} {w₁ : Workspace} (hlen : args.length = 4)
    (hlow : Rule.integerArgument args 0 w = (.ok low, w₁))
    (hhigh : Rule.integerArgument args 1 w₁ = (.error f, w')) : (Rule.sum args w).1 = .error f := by
  unfold Rule.sum
  dsimp only
  rw [Action.bind_ok (checkCount_apply w hlen), Action.bind_ok hlow, Action.bind_error hhigh]

theorem sum_eq_instances (h : w.AgreesOff k u) (hsum : w.table.functions.get? "sum" = some .sum)
    (ha : a.integer? = some low) (hb : b.integer? = some high) (hle : low ≤ high)
    (hassigns : body.AssignsNothing) (hdraws : body.DrawsNothing) :
    ((Expr.call "sum" [.num a, .num b, .name k, body]).eval s w).1 =
      w.traced s (do
        let _ ← w.traced s (.ok (.number a))
        let _ ← w.traced s (.ok (.number b))
        (body.instanceSum s k low high u).map Value.number) := by
  rw [Expr.eval_traced]
  refine congrArg _ ?_
  have henter : w.Coincides ((Expr.call "sum" [.num a, .num b, .name k, body]).enter w) :=
    .of_eq (by simp) (by simp) (by simp) (by simp)
  have hfind := EvalM.findFunction?_apply
    ((Expr.call "sum" [.num a, .num b, .name k, body]).enter w) "sum"
  generalize (Expr.call "sum" [.num a, .num b, .name k, body]).enter w = w₀ at henter hfind ⊢
  rw [henter.functions, hsum] at hfind
  obtain ⟨w₁, hlow, h₁⟩ := num_argument (s := s) [.num a, .num b, .name k, body] (i := 0) rfl ha w₀
  obtain ⟨w₂, hhigh, h₂⟩ := num_argument (s := s) [.num a, .num b, .name k, body] (i := 1) rfl hb w₁
  rw [henter.traced] at hlow
  rw [(henter.trans h₁).traced] at hhigh
  have hrule : (Expr.call "sum" [.num a, .num b, .name k, body]).rule s w₀ =
      Rule.sum ([.num a, .num b, .name k, body].map (Expr.argument s)) w₀ := by
    unfold Expr.rule Rule.call
    dsimp only
    rw [Action.bind_ok hfind]
    rfl
  rw [hrule]
  rcases w.traced_cases s (.number a) with ⟨f, hf⟩ | hlowShown
  · rw [hf] at hlow ⊢
    exact sum_error_of_low rfl hlow
  rcases w.traced_cases s (.number b) with ⟨f, hf⟩ | hhighShown
  · rw [hlowShown] at hlow ⊢
    rw [hf] at hhigh ⊢
    exact sum_error_of_high rfl hlow hhigh
  rw [hlowShown] at hlow ⊢
  rw [hhighShown] at hhigh ⊢
  obtain ⟨random, source, hcopy⟩ := EvalM.copy_apply w₂
  rw [sum_apply rfl rfl rfl rfl hlow hhigh hle hcopy, EvalM.inTable_apply]
  have hscope : w₂.Coincides { w₂ with table := { w₂.table with random := source } } :=
    .of_eq rfl rfl rfl rfl
  have hagrees := h.congr (((henter.trans h₁).trans h₂).trans hscope)
  rcases define_reading hagrees.left k (.number (.ofInt low)) with
    ⟨hconst, -⟩ | ⟨-, w₃, hdefine, -, -, hwritten⟩
  · exact absurd hagrees.leftVariable hconst
  have hloop := sumLoop_eq_addInstances (s := s) (hagrees.written hwritten) hassigns hdraws
    (high - low).toNat low .zero
  have hresult : ∀ m : EvalM Number,
      ((do return Value.number (← m) : EvalM Value) w₃).1 = (m w₃).1.map Value.number := by
    intro m
    rw [Action.bind_apply]
    rcases m w₃ with ⟨_ | _, _⟩ <;> rfl
  rw [Action.bind_ok hdefine]
  refine (hresult _).trans ?_
  rw [Expr.instanceSum, ← hloop]
  rfl

/-- For all integers as bounds, every name that is no constant and every body without assignments and
random numbers: a sum is the fold of its body with the integers in place of the name, evaluated on the
table in use. While debugging is on, the bounds have to be shown first, which is no matter if logarithms
are accurate. What the name had as its value there is not read, and no name of the table has another
variable or value afterwards. -/
theorem sum_is_substitution (hw : w.Sound)
    (hbuiltin : ∀ f c, w.table.functions.get? f = some c → EvalM.builtins.get? f = some c)
    (hsum : w.table.functions.get? "sum" = some .sum) (hk : w.Assignable k)
    (ha : a.integer? = some low) (hb : b.integer? = some high) (hle : low ≤ high)
    (hassigns : body.AssignsNothing) (hdraws : body.DrawsNothing) :
    ((Expr.call "sum" [.num a, .num b, .name k, body]).eval s w).1 =
      w.traced s (do
        let _ ← w.traced s (.ok (.number a))
        let _ ← w.traced s (.ok (.number b))
        (body.instanceSum s k low high w).map Value.number) ∧
    (s.math.Accurate ∨ w.journal.enabled = false →
      ((Expr.call "sum" [.num a, .num b, .name k, body]).eval s w).1 =
        w.traced s ((body.instanceSum s k low high w).map Value.number)) ∧
    (∀ u, w.AgreesOff k u → ((Expr.call "sum" [.num a, .num b, .name k, body]).eval s u).1 =
      ((Expr.call "sum" [.num a, .num b, .name k, body]).eval s w).1) ∧
    ∀ x, (((Expr.call "sum" [.num a, .num b, .name k, body]).eval s w).2.table.locate?
      ((Expr.call "sum" [.num a, .num b, .name k, body]).eval s w).2.memory x) =
        w.table.locate? w.memory x := by
  have hrefl : w.AgreesOff k w := ⟨hw, hw, rfl, hbuiltin, rfl, fun _ _ => rfl, hk, hk⟩
  have hfold := sum_eq_instances (s := s) hrefl hsum ha hb hle hassigns hdraws
  refine ⟨hfold, fun h => ?_, fun u h => ?_, fun x => ?_⟩
  · rw [hfold, Workspace.traced_integer h ha, Workspace.traced_integer h hb]
    rfl
  · have hrefl : u.AgreesOff k u :=
      ⟨h.right, h.right, rfl, h.functions ▸ h.builtin, rfl, fun _ _ => rfl, h.rightVariable,
        h.rightVariable⟩
    rw [sum_eq_instances hrefl (h.functions ▸ hsum) ha hb hle hassigns hdraws,
      sum_eq_instances h hsum ha hb hle hassigns hdraws]
    simp only [Workspace.traced, h.debug]
  · have hcall : (Expr.call "sum" [.num a, .num b, .name k, body]).AssignsNothing := by
      intro y v hy
      simp only [Expr.parts, Expr.partsOfAll, List.mem_cons, List.mem_append, List.not_mem_nil,
        reduceCtorEq, or_false, false_or] at hy
      exact hassigns y v hy
    have hframe := hcall.keeps (s := s) w hw
    exact hframe.locate? hw id id

end Sums

/-- On a new table the sum of a name itself is that of the integers it runs through, also when the name
has been assigned something else. -/
theorem sum_of_loop_variable :
    ((Expr.call "sum" [.num (.ofInt 0), .num (.ofInt 3), .name "k", .name "k"]).eval .standard
      (.fresh default true (.fresh false))).1 =
        ((Expr.name "k").instanceSum .standard "k" 0 3 (.fresh default true (.fresh false))).map
          Value.number ∧
    ((Expr.call "sum" [.num (.ofInt 0), .num (.ofInt 3), .name "k", .name "k"]).eval .standard
      (EvalM.assign "k" .none (.fresh default true (.fresh false))).2).1 =
        ((Expr.call "sum" [.num (.ofInt 0), .num (.ofInt 3), .name "k", .name "k"]).eval .standard
          (.fresh default true (.fresh false))).1 := by
  obtain ⟨hw, hnames⟩ := Workspace.fresh_standard default (.fresh false)
  have hunbound : (Workspace.fresh default true (.fresh false)).reading "k" = none := by
    refine Workspace.reading_of_unbound (Bindings.get?_eq_none.2 ?_)
    rw [hnames]
    decide
  have hquiet : (Workspace.fresh default true (.fresh false)).journal.enabled = false := rfl
  generalize Workspace.fresh default true (.fresh false) = w at hw hunbound hquiet ⊢
  have hbuiltin : ∀ f c, w.table.functions.get? f = some c → EvalM.builtins.get? f = some c := by
    rw [hw.functions]
    exact fun _ _ h => h
  have hsum : w.table.functions.get? "sum" = some .sum := by
    rw [hw.functions]
    rfl
  have hk : w.Assignable "k" := Workspace.assignable_of_unbound hunbound
  have hlow : (Number.ofInt 0).integer? = some 0 := by decide +kernel
  have hhigh : (Number.ofInt 3).integer? = some 3 := by decide +kernel
  have hassigns : (Expr.name "k").AssignsNothing := by simp [Expr.AssignsNothing, Expr.parts]
  have hdraws : (Expr.name "k").DrawsNothing := by simp [Expr.DrawsNothing, Expr.parts]
  obtain ⟨-, hfold, hunread, -⟩ := sum_is_substitution (s := .standard) hw.sound hbuiltin hsum hk hlow
    hhigh (by decide) hassigns hdraws
  refine ⟨(hfold (.inr hquiet)).trans (Workspace.traced_quiet hquiet _), hunread _ ?_⟩
  rcases assign_reading hw.sound "k" .none with ⟨hconst, -⟩ | ⟨-, u, hu, hwritten⟩
  · exact absurd hk hconst
  · rw [hu]
    exact ⟨hw.sound, hwritten.sound, hwritten.functions.symm, hbuiltin, by rw [hwritten.journal],
      fun y hy => (hwritten.others y hy).symm, hk, Workspace.assignable_of_reading hwritten.self⟩

end ComplexCalc
