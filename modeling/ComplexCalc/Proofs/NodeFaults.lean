import ComplexCalc.Proofs.NodeShapes
import ComplexCalc.Proofs.TypedErrors
/-!
# Trees that evaluate as they are built

The evaluation of a node takes its items as they come: it may find a tag without a rule, a field too few
or too many, or an item that is no node where it needs one. An expression has no such parts, and so the
evaluation of the node that it stands for never ends like this, whatever functions a host adds. What is
parsed is an expression throughout.
-/
namespace ComplexCalc

/-! ## Faults of what is built wrongly -/

/-- The fault is about how a tree is built, and not about what is computed. -/
def Fault.OfBuild : Fault → Prop
  | .notNode _ | .notName _ | .fieldCount | .missingField | .fieldRange | .fixedTag | .noProperty
  | .badNode => True
  | .overflow | .integerTooLarge | .zeroDivision | .operands => False

theorem Native.real?_ne {x : Fault} (hx : x.OfBuild) (r : Native) : r.real? ≠ .error (.fault x) := by
  intro h
  unfold real? at h
  split at h
  · split at h
    · cases h
    · cases h
      exact hx
  all_goals
    cases h
    try exact hx

/-- The result of a host's function may be no value, but it is not a tree. -/
theorem Value.ofNative_ne {x : Fault} (hx : x.OfBuild) (r : Native) :
    Value.ofNative r ≠ .error (.fault x) := by
  intro h
  unfold ofNative at h
  split at h
  · cases h
  · cases h
  · cases h
  · cases h
  · rcases bind_eq_error.1 h with h | ⟨k, -, h⟩
    · exact Native.real?_ne hx _ h
    · cases h

/-! ## Expressions -/

section Expressions
variable {s : Settings} {e : Expr} {w : Workspace} {x : Fault}

theorem Fault.other (x : Fault) : (Failure.fault x).Other := fun e h => by cases h

/-- A call of a host's function fails so only in an argument. -/
theorem failsInPart_of_host {f : String} {args : List Expr} {c : Callable}
    (hc : w.table.functions.get? f = some c) (hhost : ¬c.IsOwn) (hx : x.OfBuild)
    (h : FailsWith (Rule.apply s.math c (args.map (Expr.argument s))) w (.fault x)) :
    FailsInPart s (.call f args) w (.fault x) := by
  rw [failsInPart_call x.other hc]
  refine .inl ?_
  cases c with
  | native arity g builtin =>
    rcases failsWith_bind.1 h with h | ⟨_, w₀, hcount, h⟩
    · exact absurd h (not_failsWith_checkCount x.other arity)
    obtain ⟨hlen, rfl⟩ := checkCount_eq_ok hcount
    rcases failsWith_bind.1 h with h | ⟨zs, w₁, -, h⟩
    · exact ⟨congrArg some (by simpa using hlen.symm), h⟩
    · exact absurd h (Value.ofNative_ne hx _)
  | unary g builtin =>
    rcases failsWith_bind.1 h with h | ⟨_, w₀, hcount, h⟩
    · exact absurd h (not_failsWith_checkCount x.other 1)
    obtain ⟨hlen, rfl⟩ := checkCount_eq_ok hcount
    obtain ⟨a, ha⟩ := List.length_eq_one_iff.1 hlen
    have harity : some args.length = some 1 := congrArg some (by simpa using hlen)
    rw [ha] at h ⊢
    rcases failsWith_bind.1 h with h | ⟨b, w₁, hat, h⟩
    · exact absurd h (not_failsWith_argumentAt x.other 0)
    obtain ⟨hb, rfl⟩ := argumentAt_eq_ok (k := 0) hat
    cases hb
    rcases failsWith_bind.1 h with h | ⟨v, w₁, -, h⟩
    · exact ⟨harity.symm, (failsWith_numberArguments_singleton x.other).2 h⟩
    · exact absurd h (Value.ofNative_ne hx _)
  | _ => exact absurd trivial hhost

theorem failsInPart_of_rule (hx : x.OfBuild) (h : FailsWith (e.rule s) w (.fault x)) :
    FailsInPart s e w (.fault x) := by
  by_cases hown : ∀ f args c, e = .call f args → w.table.functions.get? f = some c → c.IsOwn
  · rcases (failsWith_rule x.other e hown).1 h with h | ⟨y, hy, hbreaks⟩
    · exact h
    · cases hy
      rcases hbreaks.fault_cases with rfl | rfl <;> exact hx.elim
  · push Not at hown
    obtain ⟨f, args, c, rfl, hc, hhost⟩ := hown
    refine failsInPart_of_host hc hhost hx ?_
    rw [Expr.rule, Rule.call, failsWith_bind_ok (EvalM.findFunction?_apply _ _), hc] at h
    exact h

/-- The evaluation of an expression never fails because of how a tree is built. -/
theorem not_failsWith_eval (hx : x.OfBuild) (e : Expr) (w : Workspace) :
    ¬FailsWith (e.eval s) w (.fault x) := by
  intro h
  rcases failsWith_eval.1 h with h | ⟨-, v, -, h⟩
  -- The induction is on the expression: a rule begins with smaller parts only.
  · obtain ⟨loops, e', w', hstart, h⟩ := failsInPart_of_rule hx h
    have hlt := hstart.sizeOf_lt
    exact not_failsWith_eval hx e' w' h
  · cases Display.value_eq_error h
    exact hx
termination_by e

end Expressions

/-! ## Trees -/

/-- The evaluation of a tree whose nodes all have their shapes never fails because of how it is built. -/
theorem Item.WellShaped.not_failsWith_eval {y : Item} (h : y.WellShaped) (s : Settings) (w : Workspace)
    {x : Fault} (hx : x.OfBuild) : ¬FailsWith (y.eval s) w (.fault x) := by
  obtain ⟨e, rfl⟩ := h.exists_toItem
  rw [Expr.eval_toItem]
  exact ComplexCalc.not_failsWith_eval hx e w

/-- The expression that a text begins with stands for a tree. -/
theorem wellShaped_of_parsePrefix {text rest : List Char} {e : Expr} {journal : Journal}
    (h : (Parser.parsePrefix (Parser.ofChars text journal)).1 = .ok (e, rest)) :
    e.toItem.WellShaped := by
  obtain ⟨ts, z, hl, -⟩ := exists_lexes 0 text
  have hs := Parser.stream_ofChars hl journal
  have hb := Nat.le_of_lt (Parser.length_lt_bound hl journal)
  rcases Parser.parse_cases hl.final hs hb none with
    ⟨w, later, d, t, p', rfl, hd, hx, -, hp', hlv⟩ | ⟨u, later, d, p', rfl, -, -, -, hp'⟩
  · obtain ⟨q, hq⟩ := Parser.parsePrefix_of_parse hp' hlv hx
    rw [hq] at h
    cases h
    exact hd.wellShaped fun t ht => hl.isLexeme t (List.mem_append_left _ ht)
  · rw [Parser.parsePrefix, Action.bind_error hp'] at h
    cases h

/-- Every node of a parsed tree has the fields that its tag asks for, and a tag that nodes may be built
with. The evaluation of the tree is that of the expression: in any state and with whatever functions, it
fails by nothing that is missing or out of place in a node. -/
theorem parsed_tree_wellShaped {text rest : List Char} {e : Expr} {journal : Journal}
    (h : (Parser.parsePrefix (Parser.ofChars text journal)).1 = .ok (e, rest)) :
    (∃ items, e.toItem = .node items) ∧
      (∀ items, Item.Within (.node items) e.toItem →
        Item.HasShape items ∧ Item.node? items = .ok (.node items)) ∧
      ∀ s : Settings, e.toItem.eval s = e.eval s ∧ ∀ (w : Workspace) (x : Fault),
        (e.toItem.eval s w).1 = .error (.fault x) → ¬x.OfBuild := by
  have hshaped := wellShaped_of_parsePrefix h
  refine ⟨hshaped.isNode, fun items hitems => ?_, fun s => ⟨e.eval_toItem s, fun w x hfault hx => ?_⟩⟩
  · have hshape := hshaped.shape items hitems
    exact ⟨hshape, hshape.node?_eq⟩
  · exact hshaped.not_failsWith_eval s w hx hfault

/-- A call with two arguments: its node, and the node of the number in its first argument. -/
theorem parsed_call_wellShaped :
    (Parser.parsePrefix (Parser.ofChars ['f', '(', '-', '2', 'i', ',', 'a', ')'] (.fresh false))).1 =
      .ok (.call "f" [.unary .neg (.num ⟨0.0, 2.0⟩), .name "a"], []) ∧
    Item.HasShape [.text "CALL", .text "f",
      .node [.text "NEG", .node [.text "NUM", .value (.number ⟨0.0, 2.0⟩)]],
      .node [.text "NAME", .text "a"]] ∧
    Item.HasShape [.text "NUM", .value (.number ⟨0.0, 2.0⟩)] := by
  have hlexes : Lexes 0 ['f', '(', '-', '2', 'i', ',', 'a', ')']
      [⟨.identifier, ['f'], 0⟩, ⟨.leftParen, ['('], 1⟩, ⟨.minus, ['-'], 2⟩, ⟨.literal, ['2', 'i'], 3⟩,
        ⟨.comma, [','], 5⟩, ⟨.identifier, ['a'], 6⟩, ⟨.rightParen, [')'], 7⟩] (.ok ⟨.eof, [], 8⟩) :=
    .token rfl (by decide) (.token rfl (by decide) (.token rfl (by decide) (.token rfl (by decide)
      (.token rfl (by decide) (.token rfl (by decide) (.token rfl (by decide) (.ending rfl rfl)))))))
  have hnumber : Derives .signed [⟨.literal, ['2', 'i'], 3⟩] (.num ⟨0.0, 2.0⟩) :=
    (Derives.literal rfl rfl).loosen (by decide)
  have hnegation := hnumber.negation (t := ⟨.minus, ['-'], 2⟩) rfl
  have hname : Derives .assignment [⟨.identifier, ['a'], 6⟩] (.name "a") :=
    (Derives.name rfl).loosen (by decide)
  have hcall := Derives.callWith (n := [⟨.identifier, ['f'], 0⟩]) (o := ⟨.leftParen, ['('], 1⟩)
    (c := ⟨.rightParen, [')'], 7⟩) (.name rfl) rfl (hnegation.loosen (by decide))
    (.cons (t := ⟨.comma, [','], 5⟩) rfl hname .nil) rfl
  obtain ⟨p, hp⟩ := hlexes.parsePrefix_whole (hcall.loosen (by decide)) (.fresh false)
  have hparsed := congrArg Prod.fst hp
  obtain ⟨-, hshape, -⟩ := parsed_tree_wellShaped hparsed
  refine ⟨hparsed, (hshape _ .here).1, (hshape _ (.node (List.mem_cons_of_mem _
    (List.mem_cons_of_mem _ (List.mem_cons_self ..))) ?_)).1⟩
  exact .node (List.mem_cons_of_mem _ (List.mem_cons_self ..)) .here

end ComplexCalc
