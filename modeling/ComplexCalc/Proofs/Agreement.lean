import ComplexCalc.Proofs.Readings
import ComplexCalc.Proofs.Relational
import ComplexCalc.Proofs.Substitution
/-!
# Evaluation on tables that agree

An expression gives the same on two tables that agree on the names in it, and leaves them in agreement.
One name may be hidden: it has a number on the first table, and on the second one the expression has
the number in place of the name.
-/
namespace ComplexCalc

/-! ## Journals -/

@[simp] theorem Journal.enabled_record (j : Journal) (event : Event) :
    (j.record event).enabled = j.enabled := by
  unfold record
  split <;> rfl

section NewTables
variable {α β : Type}

/-- The step writes nothing in the journal. -/
def EvalM.Silent (step : EvalM α) : Prop := ∀ w, (step w).2.journal = w.journal

theorem EvalM.Silent.bind {x : EvalM α} {f : α → EvalM β} (hx : Silent x) (hf : ∀ a, Silent (f a)) :
    Silent (x >>= f) := by
  intro w
  have hstep := hx w
  rcases hr : x w with ⟨_ | a, w'⟩ <;> rw [hr] at hstep
  · rw [Action.bind_error hr, hstep]
  · rw [Action.bind_ok hr, hf a w', hstep]

theorem EvalM.Silent.forM {f : β → EvalM Unit} (hf : ∀ b, Silent (f b)) (l : List β) :
    Silent (l.forM f) := by
  induction l with
  | nil => exact fun _ => rfl
  | cons b l ih => exact (hf b).bind fun _ => ih

theorem EvalM.Silent.define (v : Variable) : Silent (EvalM.define v) := by
  intro w
  rcases EvalM.define_cases w v with ⟨e, h⟩ | h <;> rw [h]

theorem EvalM.Silent.bindFunction (x : String) (c : Callable) : Silent (EvalM.bindFunction x c) := by
  intro w
  rcases EvalM.bindFunction_cases w x c with ⟨old, -, -, h⟩ | ⟨-, h⟩ <;> rw [h]

theorem EvalM.Silent.register : Silent EvalM.register :=
  (forM (fun _ => .define _) _).bind fun _ => .forM (fun _ => .bindFunction _ _) _

/-- A new table has the journal that it was given. -/
theorem Workspace.journal_fresh (random : RandomSource) (journal : Journal) :
    (fresh random true journal).journal = journal := by
  rw [fresh, if_pos rfl]
  exact EvalM.Silent.register _

end NewTables

namespace Expr

variable {s : Settings}

@[simp] theorem enabled_enter (e : Expr) (w : Workspace) :
    (e.enter w).journal.enabled = w.journal.enabled := by
  unfold enter
  split
  · exact Journal.enabled_record _ _
  · rfl

/-- An evaluation leaves debugging on or off as its rule does. -/
theorem enabled_eval (e : Expr) (w : Workspace) :
    (e.eval s w).2.journal.enabled = (e.rule s (e.enter w)).2.journal.enabled := by
  rw [eval_eq_visit, Rule.visit]
  by_cases h : w.journal.enabled = true
  · have henter : e.enter w = _ := if_pos h
    have htraced : Journaled.journal w = w.journal := rfl
    rcases hr : e.rule s (e.enter w) with ⟨f | v, t⟩ <;> rw [henter] at hr <;>
      simp only [traced, htraced, h, if_true, hr]
    · exact Journal.enabled_record _ _
    · cases Display.value s.math s.precision v
      · rfl
      · exact Journal.enabled_record _ _
  · have henter : e.enter w = w := if_neg h
    have hoff : (Journaled.journal w).enabled = false := Bool.eq_false_iff.2 h
    rw [traced_of_disabled hoff, henter]

/-- The expression has no names but these, calls no random function, and assigns nothing if a name is
hidden. -/
structure Fits (h : Option (String × Number)) (N : String → Prop) (e : Expr) : Prop where
  names : ∀ x, name x ∈ e.parts ∨ (∃ v, assign x v ∈ e.parts) → N x
  draws : e.DrawsNothing
  assigns : h = none ∨ e.AssignsNothing

namespace Fits

variable {h : Option (String × Number)} {N : String → Prop} {e e' : Expr}

theorem part (he : e.Fits h N) (hsub : e'.parts ⊆ e.parts) : e'.Fits h N where
  names x hx := he.names x (hx.imp (fun h => hsub h) fun ⟨v, h⟩ => ⟨v, hsub h⟩)
  draws args := ⟨fun h => (he.draws args).1 (hsub h), fun h => (he.draws args).2 (hsub h)⟩
  assigns := he.assigns.imp_right fun h x v hx => h x v (hsub hx)

theorem hiddenIn (he : e.Fits h N) (x : String) : e.Fits (Expr.hiddenIn x h) N where
  names := he.names
  draws := he.draws
  assigns := he.assigns.imp_left fun h => by rw [h]; rfl

end Fits

end Expr

/-! ## Agreement -/

/-- Evaluation finds on `w'` what it finds on `w`: they differ in the random source, in the entries of
the journal and in variables without a name at most. -/
structure Workspace.Coincides (w w' : Workspace) : Prop where
  sound : w.Sound → w'.Sound
  reading : w.Sound → ∀ y, w'.reading y = w.reading y
  functions : w'.table.functions = w.table.functions
  debug : w'.journal.enabled = w.journal.enabled

namespace Workspace.Coincides

variable {w w' : Workspace}

theorem of_eq (hm : w'.memory = w.memory) (hs : w'.table.scope = w.table.scope)
    (hf : w'.table.functions = w.table.functions)
    (hd : w'.journal.enabled = w.journal.enabled) : w.Coincides w' where
  sound hw x id hx := by
    rw [hm]
    exact hw x id (hs ▸ hx)
  reading _ := reading_of_eq hm hs
  functions := hf
  debug := hd

theorem push (w : Workspace) (v : Variable) : w.Coincides { w with memory := w.memory.push v } where
  sound hw := Memory.Grows.sound (.push v) rfl hw
  reading hw := hw.reading_push v
  functions := rfl
  debug := rfl

theorem trans {w'' : Workspace} (h : w.Coincides w') (h' : w'.Coincides w'') :
    w.Coincides w'' where
  sound hw := h'.sound (h.sound hw)
  reading hw y := (h'.reading (h.sound hw) y).trans (h.reading hw y)
  functions := h'.functions.trans h.functions
  debug := h'.debug.trans h.debug

theorem of_frame (h : Frame (fun _ => False) (fun _ => False) w w')
    (hd : w'.journal.enabled = w.journal.enabled) : w.Coincides w' where
  sound := h.sound
  reading hw _ := h.reading hw id id
  functions := h.functions
  debug := hd

end Workspace.Coincides

/-- The tables read the names in `N` alike. A hidden name has its number on the first table and is no
constant on the second one. -/
structure Mirrors (h : Option (String × Number)) (N : String → Prop) (debug : Bool)
    (w u : Workspace) : Prop where
  left : w.Sound
  right : u.Sound
  functions : ∀ f, w.table.functions.get? f = u.table.functions.get? f
  builtin : ∀ f c, w.table.functions.get? f = some c → EvalM.builtins.get? f = some c
  leftDebug : w.journal.enabled = debug
  rightDebug : u.journal.enabled = debug
  agree : ∀ y, N y → (∀ z, h ≠ some (y, z)) → w.reading y = u.reading y
  hidden : ∀ k z, h = some (k, z) →
    w.reading k = some (.number z, false) ∧ u.Assignable k

namespace Mirrors

variable {h : Option (String × Number)} {N : String → Prop} {d : Bool} {w u w' u' : Workspace}
  {x : String} {a : Value}

theorem congr (hwu : Mirrors h N d w u) (hw : w.Coincides w') (hu : u.Coincides u') :
    Mirrors h N d w' u' where
  left := hw.sound hwu.left
  right := hu.sound hwu.right
  functions f := by rw [hw.functions, hu.functions, hwu.functions]
  builtin := hw.functions.symm ▸ hwu.builtin
  leftDebug := hw.debug.trans hwu.leftDebug
  rightDebug := hu.debug.trans hwu.rightDebug
  agree y hy hne := by
    rw [hw.reading hwu.left, hu.reading hwu.right]
    exact hwu.agree y hy hne
  hidden k z hk := by
    rw [hw.reading hwu.left, Workspace.assignable_iff, hu.reading hwu.right,
      ← Workspace.assignable_iff]
    exact hwu.hidden k z hk

theorem enter (hwu : Mirrors h N d w u) (e e' : Expr) : Mirrors h N d (e.enter w) (e'.enter u) :=
  hwu.congr (.of_eq (by simp) (by simp) (by simp) (by simp))
    (.of_eq (by simp) (by simp) (by simp) (by simp))

/-- A name that is written on both tables is not hidden any more. -/
theorem written (hwu : Mirrors h N d w u) (hw : Written x a w w') (hu : Written x a u u') :
    Mirrors (Expr.hiddenIn x h) N d w' u' where
  left := hw.sound
  right := hu.sound
  functions f := by rw [hw.functions, hu.functions, hwu.functions]
  builtin := hw.functions.symm ▸ hwu.builtin
  leftDebug := hw.journal.symm ▸ hwu.leftDebug
  rightDebug := hu.journal.symm ▸ hwu.rightDebug
  agree y hy hne := by
    by_cases hyx : y = x
    · rw [hyx, hw.self, hu.self]
    · rw [hw.others y hyx, hu.others y hyx]
      exact hwu.agree y hy fun z hz => hne z (Expr.hiddenIn_eq_some.2 ⟨hz, hyx⟩)
  hidden k z hk := by
    obtain ⟨hk, hkx⟩ := Expr.hiddenIn_eq_some.1 hk
    rw [hw.others k hkx, Workspace.assignable_iff, hu.others k hkx, ← Workspace.assignable_iff]
    exact hwu.hidden k z hk

/-- A constant is one on both tables. -/
theorem assignable_iff (hwu : Mirrors h N d w u) (hx : N x) : w.Assignable x ↔ u.Assignable x := by
  by_cases hhidden : ∃ z, h = some (x, z)
  · obtain ⟨z, hz⟩ := hhidden
    obtain ⟨hw, hu⟩ := hwu.hidden x z hz
    exact iff_of_true (Workspace.assignable_of_reading hw) hu
  · have hreading := hwu.agree x hx fun z hz => hhidden ⟨z, hz⟩
    rw [Workspace.assignable_iff, Workspace.assignable_iff, hreading]

theorem assign (hx : N x) (hvisible : ∀ z, h ≠ some (x, z)) (a : Value) :
    Alike (Mirrors h N d) (EvalM.assign x a) (EvalM.assign x a) := by
  intro w u hwu
  have hiff := hwu.assignable_iff hx
  rcases assign_reading hwu.left x a with ⟨hconst, hw⟩ | ⟨hvar, w', hw, hwritten⟩
  · rcases assign_reading hwu.right x a with ⟨-, hu⟩ | ⟨hvar, -⟩
    · rw [hw, hu]
      exact ⟨rfl, hwu⟩
    · exact absurd (hiff.2 hvar) hconst
  · rcases assign_reading hwu.right x a with ⟨hconst, -⟩ | ⟨-, u', hu, hwritten'⟩
    · exact absurd (hiff.1 hvar) hconst
    · rw [hw, hu]
      have hmirrors := hwu.written hwritten hwritten'
      rw [Expr.hiddenIn_of_visible hvisible] at hmirrors
      exact ⟨rfl, hmirrors⟩

theorem sumLoop {body body' : EvalM Value} (hx : N x) (hvisible : ∀ z, h ≠ some (x, z))
    (hbody : Alike (Mirrors h N d) body body') (count : Nat) (i : Int) (total : Number) :
    Alike (Mirrors h N d) (Rule.sumLoop x body count i total) (Rule.sumLoop x body' count i total) := by
  induction count generalizing i total with
  | zero => exact .pure _
  | succ count ih =>
    exact (assign hx hvisible _).bind fun _ => hbody.expectNumber.bind fun z => ih (i + 1) (total + z)

/-- What the scopes of two sums leave outside of them agrees if the tables agreed before. -/
theorem leave {w₁ w₂ u₁ u₂ : Workspace} {t t' : Table} (hwu : Mirrors h N d w u)
    (hmem : w₁.memory = w.memory.push ⟨x, a, false⟩)
    (hscope : w₁.table.scope = w.table.scope.bind x w.memory.size)
    (hframe : Frame (fun _ => True) (fun _ => True) w₁ w₂)
    (hmem' : u₁.memory = u.memory.push ⟨x, a, false⟩)
    (hscope' : u₁.table.scope = u.table.scope.bind x u.memory.size)
    (hframe' : Frame (fun _ => True) (fun _ => True) u₁ u₂)
    (ht : t.scope = w.table.scope) (ht' : t'.scope = u.table.scope)
    (hf : t.functions = w.table.functions) (hf' : t'.functions = u.table.functions)
    (hinner : Mirrors (Expr.hiddenIn x h) N d w₂ u₂) :
    Mirrors h N d { w₂ with table := t } { u₂ with table := t' } := by
  obtain ⟨hsound, hself, hothers⟩ := leave_reading hwu.left hmem hscope hframe ht
  obtain ⟨hsound', hself', hothers'⟩ := leave_reading hwu.right hmem' hscope' hframe' ht'
  refine ⟨hsound, hsound', ?_, ?_, hinner.leftDebug, hinner.rightDebug, fun y hy hne => ?_,
    fun k z hk => ?_⟩
  · rw [hf, hf']
    exact hwu.functions
  · rw [hf]
    exact hwu.builtin
  · by_cases hyx : y = x
    · rw [hyx, hself, hself', ← hyx, hwu.agree y hy hne]
    · have hy₂ := hinner.agree y hy fun z hz => hne z (Expr.hiddenIn_eq_some.1 hz).1
      rw [hothers y hyx, hothers' y hyx, hwu.agree y hy hne, hy₂]
  · obtain ⟨hw, hu⟩ := hwu.hidden k z hk
    rw [Workspace.assignable_iff] at hu ⊢
    by_cases hkx : k = x
    · rw [hkx, hself, hself', ← hkx]
      exact ⟨hw, hu⟩
    · obtain ⟨hw₂, hu₂⟩ := hinner.hidden k z (Expr.hiddenIn_eq_some.2 ⟨hk, hkx⟩)
      rw [hothers k hkx, hothers' k hkx, hw, hw₂]
      refine ⟨rfl, fun b hb => ?_⟩
      obtain ⟨_, -, hb⟩ := Option.bind_eq_some_iff.1 hb
      exact Workspace.assignable_iff.1 hu₂ b hb

theorem scopedLoop {body body' : EvalM Value} (hx : N x)
    (hbody : Alike (Mirrors (Expr.hiddenIn x h) N d) body body')
    (hkeeps : ∀ w, Keeps (fun _ => True) (fun _ => True) body w)
    (hkeeps' : ∀ w, Keeps (fun _ => True) (fun _ => True) body' w) (i j : Int) :
    Alike (Mirrors h N d) (Rule.scopedLoop x body i j) (Rule.scopedLoop x body' i j) := by
  have hvisible : ∀ z, Expr.hiddenIn x h ≠ some (x, z) := fun z hz =>
    (Expr.hiddenIn_eq_some.1 hz).2 rfl
  have hloop : Alike (Mirrors (Expr.hiddenIn x h) N d)
      (do return Value.number (← Rule.sumLoop x body (j - i).toNat i .zero))
      (do return Value.number (← Rule.sumLoop x body' (j - i).toNat i .zero)) :=
    (sumLoop hx hvisible hbody _ i .zero).bind fun _ => .pure _
  have hframe : ∀ {body : EvalM Value} {w : Workspace},
      (∀ w, Keeps (fun _ => True) (fun _ => True) body w) →
      Keeps (fun _ => True) (fun _ => True)
        (do return Value.number (← Rule.sumLoop x body (j - i).toNat i .zero)) w := fun hbody =>
    (sumLoop_keeps (fun w' _ => hbody w') trivial trivial).bind fun _ _ _ => .pure _
  intro w u hwu
  obtain ⟨random, source, hcopy⟩ := EvalM.copy_apply w
  obtain ⟨random', source', hcopy'⟩ := EvalM.copy_apply u
  unfold Rule.scopedLoop
  rw [Action.bind_ok hcopy, Action.bind_ok hcopy', EvalM.inTable_apply, EvalM.inTable_apply]
  -- The scopes have the names of the tables that they are copies of.
  have hscopes : Mirrors h N d { w with table := { w.table with random := source } }
      { u with table := { u.table with random := source' } } :=
    hwu.congr (.of_eq rfl rfl rfl rfl) (.of_eq rfl rfl rfl rfl)
  have hiff := hscopes.assignable_iff hx
  rcases define_reading hscopes.left x (.number (.ofInt i)) with
    ⟨hconst, hw⟩ | ⟨hvar, w₁, hw, hmem, hscope, hwritten⟩
  · rcases define_reading hscopes.right x (.number (.ofInt i)) with ⟨-, hu⟩ | ⟨hvar, -⟩
    · rw [Action.bind_error hw, Action.bind_error hu]
      exact ⟨rfl, (hwu.congr (.push w _) (.push u _)).congr (.of_eq rfl rfl rfl rfl)
        (.of_eq rfl rfl rfl rfl)⟩
    · exact absurd (hiff.2 hvar) hconst
  · rcases define_reading hscopes.right x (.number (.ofInt i)) with
      ⟨hconst, -⟩ | ⟨-, u₁, hu, hmem', hscope', hwritten'⟩
    · exact absurd (hiff.1 hvar) hconst
    · have hinner := hscopes.written hwritten hwritten'
      rw [Action.bind_ok hw, Action.bind_ok hu]
      obtain ⟨hresult, hinner⟩ := hloop w₁ u₁ hinner
      exact ⟨hresult, hwu.leave hmem hscope (hframe hkeeps hwritten.sound) hmem' hscope'
        (hframe hkeeps' hwritten'.sound) rfl rfl rfl rfl hinner⟩

end Mirrors

/-! ## Evaluations -/

section Evaluations
variable {s : Settings} {h : Option (String × Number)} {N : String → Prop} {d : Bool}

theorem Alike.eval {e e' : Expr} (hrule : Alike (Mirrors h N d) (e.rule s) (e'.rule s)) :
    Alike (Mirrors h N d) (e.eval s) (e'.eval s) := by
  intro w u hwu
  obtain ⟨hresult, hend⟩ := hrule _ _ (hwu.enter e e')
  obtain ⟨hw, hmem, htable⟩ := Expr.eval_apply s e w
  obtain ⟨hu, hmem', htable'⟩ := Expr.eval_apply s e' u
  refine ⟨?_, hend.congr ?_ ?_⟩
  · rw [hw, hu, hresult, hwu.leftDebug, hwu.rightDebug]
  · exact .of_eq hmem (by rw [htable]) (by rw [htable]) (Expr.enabled_eval e w)
  · exact .of_eq hmem' (by rw [htable']) (by rw [htable']) (Expr.enabled_eval e' u)

theorem name_alike {x : String} (hx : N x) :
    Alike (Mirrors h N d) ((Expr.name x).rule s) (((Expr.name x).under h).rule s) := by
  intro w u hwu
  have hw : (Expr.name x).rule s w = _ := name_apply x w
  by_cases hhidden : ∃ z, h = some (x, z)
  · obtain ⟨z, rfl⟩ := hhidden
    rw [Expr.under_some, Expr.substitute_name_self, hw, (hwu.hidden x z rfl).1]
    exact ⟨rfl, hwu⟩
  · have hvisible : ∀ z, h ≠ some (x, z) := fun z hz => hhidden ⟨z, hz⟩
    have hu : (Expr.name x).rule s u = _ := name_apply x u
    rw [Expr.under_name hvisible, hw, hu, hwu.agree x hx hvisible]
    exact ⟨rfl, hwu⟩

theorem call_alike {f : String} {args args' : List Expr}
    (happly : ∀ c, EvalM.builtins.get? f = some c →
      Alike (Mirrors h N d) (Rule.apply s.math c (args.map (Expr.argument s)))
        (Rule.apply s.math c (args'.map (Expr.argument s)))) :
    Alike (Mirrors h N d) ((Expr.call f args).eval s) ((Expr.call f args').eval s) := by
  refine .eval fun w u hwu => ?_
  unfold Expr.rule Rule.call
  dsimp only
  rw [Action.bind_ok (EvalM.findFunction?_apply w f), Action.bind_ok (EvalM.findFunction?_apply u f),
    ← hwu.functions]
  rcases hc : w.table.functions.get? f with - | c
  · exact Alike.refuse _ w u hwu
  · exact happly c (hwu.builtin f c hc) w u hwu

/-- The arguments of `sum` are replaced but for its loop variable, which hides the name in the body. -/
theorem sum_alike {args : List Expr} (he : (Expr.call "sum" args).Fits h N)
    (ih : ∀ a ∈ args, ∀ {h}, a.Fits h N → Alike (Mirrors h N d) (a.eval s) ((a.under h).eval s)) :
    ∃ args', (Expr.call "sum" args).under h = .call "sum" args' ∧
      Alike (Mirrors h N d) (Rule.sum (args.map (Expr.argument s)))
        (Rule.sum (args'.map (Expr.argument s))) := by
  have hpart : ∀ a ∈ args, Alike (Mirrors h N d) (a.eval s) ((a.under h).eval s) := fun a ha =>
    ih a ha (he.part (Expr.parts_subset_call ha))
  by_cases hlen : args.length = 4
  swap
  · obtain ⟨args', hlen', hunder⟩ := Expr.under_call (h := h) "sum" args
    exact ⟨args', hunder, .sum_of_length (by simp [hlen']) (by simpa using hlen)⟩
  match args, hlen with
  | [l, r, n, b], _ =>
    have hl := hpart l (by simp)
    have hr := hpart r (by simp)
    rcases hn : n.name? with - | x
    · have hunnamed : ∀ {e : Expr}, e.name? = none → (e.argument s).name = Argument.unnamed := by
        intro e he
        simp [Expr.argument, he]
      refine ⟨_, Expr.under_call_of_visible fun _ k z _ hk => ?_, .sum hl hr ?_ fun x i j hx => ?_⟩
      · cases Option.some.inj hk
        cases hn
      · rw [hunnamed hn, hunnamed (Expr.name?_under hn)]
      · rw [hunnamed hn] at hx
        cases hx
    · obtain rfl : n = .name x := by
        cases n <;> cases hn
        rfl
      refine ⟨_, Expr.under_sum l r x b, .sum hl hr rfl fun y i j hy => ?_⟩
      cases hy
      have hx : N x := he.names x (.inl (Expr.parts_subset_call (by simp) (Expr.mem_parts_self _)))
      have hb := ih b (by simp) ((he.part (Expr.parts_subset_call (by simp))).hiddenIn x)
      exact Mirrors.scopedLoop hx hb (eval_keeps_all b) (eval_keeps_all _) i j

/-- Evaluations of an expression on tables that agree on its names are alike, where a hidden name is
replaced by its number on the second table. -/
theorem eval_alike (e : Expr) (he : e.Fits h N) :
    Alike (Mirrors h N d) (e.eval s) ((e.under h).eval s) := by
  induction e using Expr.induct generalizing h with
  | num z =>
    rw [Expr.under_num]
    exact .eval (.pure _)
  | name x => exact .eval (name_alike (he.names x (.inl (Expr.mem_parts_self _))))
  | assign x v ih =>
    have hnone : h = none := he.assigns.resolve_right fun h => h x v (Expr.mem_parts_self _)
    subst hnone
    have hv := ih (he.part fun _ h => List.mem_cons_of_mem _ h)
    have hx : N x := he.names x (.inr ⟨v, Expr.mem_parts_self _⟩)
    exact .eval (hv.bind fun a => (Mirrors.assign hx (by simp) a).bind fun _ => .pure _)
  | unary op a ih =>
    rw [Expr.under_unary]
    exact .eval ((ih (he.part fun _ h => List.mem_cons_of_mem _ h)).unary op)
  | binary op l r ihl ihr =>
    rw [Expr.under_binary]
    have hl := ihl (he.part fun _ h => List.mem_cons_of_mem _ (List.mem_append_left _ h))
    have hr := ihr (he.part fun _ h => List.mem_cons_of_mem _ (List.mem_append_right _ h))
    exact .eval (hl.binary s.math op hr)
  | call f args ih =>
    by_cases hf : f = "sum"
    · subst hf
      obtain ⟨args', hunder, hsum⟩ := sum_alike he ih
      rw [hunder]
      refine call_alike fun c hc => ?_
      rw [(EvalM.builtins_sum hc).1 rfl]
      exact hsum
    · rw [Expr.under_call_of_visible fun h => absurd h hf]
      refine call_alike fun c hc => ?_
      have hargs : ∀ a ∈ args, Alike (Mirrors h N d) (a.argument s).value
          ((a.under h).argument s).value := fun a ha => ih a ha (he.part (Expr.parts_subset_call ha))
      have hdraws := he.draws args
      rw [List.map_map]
      rcases EvalM.builtins_cases hc with ⟨g, -, rfl⟩ | ⟨-, rfl⟩ | ⟨rfl, -⟩ | ⟨rfl, -⟩ | ⟨rfl, -⟩
      · exact .elementary s.math g hargs
      · exact .polar s.math hargs
      · exact absurd (Expr.mem_parts_self _) hdraws.1
      · exact absurd (Expr.mem_parts_self _) hdraws.2
      · exact absurd rfl hf

end Evaluations

end ComplexCalc
