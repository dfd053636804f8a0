import ComplexCalc.Proofs.Agreement
import ComplexCalc.Proofs.Composition
/-!
# What is written to a journal

Parsing and evaluation never turn debugging on or off, and they write to the journal only while it is
on. So an expression is evaluated with debugging on exactly if its text was parsed with debugging on, and
while it is off a line leaves the journal as it was.
-/
namespace ComplexCalc

/-- The second journal may come after the first one: debugging is on in both, or the journals are the
same. -/
def Journal.Before (j k : Journal) : Prop := if j.enabled then k.enabled = true else k = j

namespace Journal.Before

variable {j k l : Journal}

theorem refl (j : Journal) : Before j j := by
  unfold Before
  split
  · assumption
  · rfl

theorem of_enabled (hj : j.enabled = true) (hk : k.enabled = true) : Before j k :=
  (if_pos hj).mpr hk

theorem enabled_eq (h : Before j k) : k.enabled = j.enabled := by
  unfold Before at h
  split at h
  · rename_i hj
    rw [h, hj]
  · rw [h]

theorem eq_of_disabled (h : Before j k) (hj : j.enabled = false) : k = j := by
  unfold Before at h
  rwa [if_neg (by simp [hj])] at h

theorem trans (h : Before j k) (h' : Before k l) : Before j l := by
  by_cases hj : j.enabled = true
  · exact .of_enabled hj (by rw [h'.enabled_eq, h.enabled_eq, hj])
  · obtain rfl := h.eq_of_disabled (Bool.eq_false_iff.2 hj)
    exact h'

end Journal.Before

/-- A state whose journal is the one that it was given last. -/
class LawfulJournaled (σ : Type) [Journaled σ] : Prop where
  journal_withJournal : ∀ (s : σ) (j : Journal), Journaled.journal (Journaled.withJournal s j) = j

instance : LawfulJournaled Parser := ⟨fun _ _ => rfl⟩

instance : LawfulJournaled Workspace := ⟨fun _ _ => rfl⟩

/-- The journal is a part of the state like any other: giving the state its own journal changes nothing,
and of two journals given one after the other the last one counts. -/
class JournalIsField (σ : Type) [Journaled σ] : Prop extends LawfulJournaled σ where
  withJournal_journal : ∀ s : σ, Journaled.withJournal s (Journaled.journal s) = s
  withJournal_withJournal : ∀ (s : σ) (j k : Journal),
    Journaled.withJournal (Journaled.withJournal s j) k = Journaled.withJournal s k

instance : JournalIsField Parser := ⟨fun _ => rfl, fun _ _ _ => rfl⟩

instance : JournalIsField Workspace := ⟨fun _ => rfl, fun _ _ _ => rfl⟩

@[simp] theorem Journaled.journal_update {σ : Type} [Journaled σ] [LawfulJournaled σ]
    (f : Journal → Journal) (s : σ) :
    Journaled.journal (Journaled.update f s) = f (Journaled.journal s) :=
  LawfulJournaled.journal_withJournal s _

/-- The state in which a traced step begins: the journal has an entry for it. -/
def entered {σ : Type} [Journaled σ] (signature : σ → String) (s : σ) : σ :=
  if (Journaled.journal s).enabled then
    Journaled.update (fun j => (j.record (.call (signature s))).deeper) s
  else s

theorem Expr.enter_eq_entered (e : Expr) (w : Workspace) : e.enter w =
    entered (fun w => "eval_tree(" ++ e.debugText ++ ", " ++ w.table.debugText ++ ")") w := rfl

/-! ## Steps -/

/-- The step writes to the journal only while debugging is on, and leaves it on or off. -/
def Quiet {σ ε α : Type} [Journaled σ] (m : Action σ ε α) : Prop :=
  ∀ s, Journal.Before (Journaled.journal s) (Journaled.journal (m s).2)

namespace Quiet

variable {σ ε α β : Type} [Journaled σ] {m : Action σ ε α}

theorem of_eq (h : ∀ s, Journaled.journal (m s).2 = Journaled.journal s) : Quiet m := fun s => by
  rw [h s]
  exact .refl _

theorem pure (a : α) : Quiet (pure a : Action σ ε α) := of_eq fun _ => rfl

theorem throw (e : ε) : Quiet (throw e : Action σ ε α) := of_eq fun _ => rfl

theorem bind {f : α → Action σ ε β} (hm : Quiet m) (hf : ∀ a, Quiet (f a)) : Quiet (m >>= f) := by
  intro s
  have h := hm s
  rcases hr : m s with ⟨e | a, t⟩ <;> rw [hr] at h
  · rw [Action.bind_error hr]
    exact h
  · rw [Action.bind_ok hr]
    exact h.trans (hf a t)

end Quiet

section Traced
variable {σ ε α : Type} [Journaled σ] {m : Action σ ε α}

/-- A traced step writes to the journal only while debugging is on, if the step does after the entry for
the call. -/
theorem before_traced [LawfulJournaled σ] {signature : σ → String} {s : σ}
    (h : Journal.Before (Journaled.journal (entered signature s))
      (Journaled.journal (m (entered signature s)).2))
    (explain : ε → String) (describe : α → Except ε String) :
    Journal.Before (Journaled.journal s)
      (Journaled.journal (traced signature explain describe m s).2) := by
  by_cases hs : (Journaled.journal s).enabled = true
  · rw [entered, if_pos hs] at h
    rcases hr : m (Journaled.update (fun j => (j.record (.call (signature s))).deeper) s) with
      ⟨e | a, t⟩ <;> rw [hr] at h <;>
      have ht : (Journaled.journal t).enabled = true :=
        h.enabled_eq.trans (by simpa [Journal.deeper] using hs) <;>
      simp only [traced, if_pos hs, hr]
    · exact .of_enabled hs (by simpa [Journal.shallower] using ht)
    · split <;> exact .of_enabled hs (by simpa [Journal.shallower] using ht)
  · rw [entered, if_neg hs] at h
    rwa [traced_of_disabled (Bool.eq_false_iff.2 hs)]

/-- A step that does not touch the journal leaves it as it is. -/
theorem Oblivious.journal_eq [JournalIsField σ] (hm : Oblivious m) (s : σ) :
    Journaled.journal (m s).2 = Journaled.journal s := by
  have h := hm s (Journaled.journal s)
  rw [JournalIsField.withJournal_journal] at h
  rw [congrArg Prod.snd h]
  exact LawfulJournaled.journal_withJournal _ _

theorem Oblivious.quiet [JournalIsField σ] (hm : Oblivious m) : Quiet m := .of_eq hm.journal_eq

end Traced

/-! ## Parsing -/

namespace Parser

theorem oblivious_pullMany (n : Nat) : Oblivious (pullMany n : ParserM Unit) := by
  have hpull : Oblivious pull := fun p j => by
    simp only [pull, Journaled.withJournal]
    split <;> rfl
  induction n with
  | zero => exact .pure ()
  | succ n ih => exact hpull.bind fun _ => ih

theorem oblivious_lookAhead (distance : Nat) : Oblivious (lookAhead distance : ParserM Token) := by
  intro p j
  -- The queue, which is all that it reads, is the same with another journal.
  have hqueue : ∀ q : Parser, (Journaled.withJournal q j).pending = q.pending := fun _ => rfl
  have hpull := oblivious_pullMany (distance + 1 - p.pending.length) p j
  simp only [lookAhead, Action.bind_apply, Action.get_apply, parser_eq, hqueue, hpull]
  rcases pullMany (distance + 1 - p.pending.length) p with ⟨e | u, q⟩
  · rfl
  · simp only [hqueue]
    cases q.pending[distance]? <;> rfl

theorem oblivious_consume : Oblivious (consume : ParserM Token) :=
  (oblivious_lookAhead 0).bind fun _ => Oblivious.bind (fun _ _ => rfl) fun _ => .pure _

theorem quiet_closed : Closed fun _ (m : ParserM _) => Quiet m where
  look := (oblivious_lookAhead 0).quiet
  consume := oblivious_consume.quiet
  pure := .pure
  throw := .throw
  bind := .bind
  traced _ explain _ h _ := before_traced (h _) explain _

theorem parsePrefix_quiet : Quiet parsePrefix := by
  have hrecord : ∀ e, Quiet (modify (recordParsed e) : ParserM Unit) := by
    intro e p
    change Journal.Before p.journal (recordParsed e p).journal
    unfold recordParsed
    split
    · rename_i hp
      exact .of_enabled hp ((Journal.enabled_record _ _).trans hp)
    · exact .refl _
  refine Quiet.bind (fun p => quiet_closed.expression _ none p) fun e => ?_
  exact quiet_closed.look.bind fun t => (hrecord e).bind fun _ => .of_eq fun _ => rfl

end Parser

/-- Parsing a text writes to the journal only while debugging is on. -/
theorem EvalM.parse_quiet (text : String) : Quiet (parse text) := by
  have hprefix : Quiet (EvalM.parsePrefix text) := by
    intro w
    have h := Parser.parsePrefix_quiet (Parser.ofChars text.toList w.journal)
    unfold EvalM.parsePrefix
    split <;> rename_i hp <;> rw [hp] at h <;> exact h
  refine hprefix.bind fun (e, rest) => ?_
  dsimp only
  split
  · exact .pure _
  · exact .throw _

/-- Parsing a text leaves debugging on or off. -/
theorem EvalM.enabled_parse (text : String) (w : Workspace) :
    (parse text w).2.journal.enabled = w.journal.enabled := (parse_quiet text w).enabled_eq

/-! ## Evaluation -/

theorem EvalM.quiet_closed :
    Closed fun _ m w => Journal.Before (Journaled.journal w) (Journaled.journal (m w).2) where
  oblivious hm := hm.quiet _
  bind {α β m f w} hm hf := by
    rcases hr : m w with ⟨e | a, w'⟩ <;> rw [hr] at hm
    · rw [Action.bind_error hr]
      exact hm
    · rw [Action.bind_ok hr]
      exact hm.trans (hf a w' hr)
  inTable h := h

/-- An evaluation writes to the journal only while debugging is on. -/
theorem Expr.eval_quiet (s : Settings) (e : Expr) : Quiet (e.eval s) := by
  intro w
  refine EvalM.quiet_closed.eval fun loops e' w' _ hrule => ?_
  rw [Expr.enter_eq_entered] at hrule
  rw [eval_eq_visit]
  exact before_traced hrule _ _

/-- A line writes to the journal only while debugging is on. -/
theorem EvalM.evalText_quiet (s : Settings) (text : String) : Quiet (evalText s text) := by
  refine (parse_quiet text).bind fun e => (e.eval_quiet s).bind fun v => ?_
  exact (oblivious_assign "Ans" v).quiet.bind fun _ => .pure _

end ComplexCalc
