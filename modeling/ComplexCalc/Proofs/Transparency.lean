import ComplexCalc.Proofs.Debugging
import ComplexCalc.Proofs.Nesting
import ComplexCalc.Proofs.Spelling
/-!
# Debugging changes nothing but the journal

With debugging on, a line gives what it gives with debugging off and leaves the same variables, as long
as the values that it comes to can be shown. All that it adds is in the journal, which is back at its
column when the line ends, however it ends: the calls of parsing and evaluation lie within each other,
each with its end.
-/
namespace ComplexCalc

/-! ## Journals -/

namespace Journal

variable (j : Journal) (es fs : List Entry)

/-- The journal with more entries. -/
def extend : Journal := { j with entries := j.entries ++ es.toArray }

@[simp] theorem indent_extend : (j.extend es).indent = j.indent := rfl

theorem extend_nil : j.extend [] = j := by simp [extend]

theorem extend_extend : (j.extend es).extend fs = j.extend (es ++ fs) := by simp [extend]

theorem record_of_enabled {j : Journal} (h : j.enabled = true) (event : Event) :
    j.record event = j.extend [⟨j.indent, event⟩] := by
  simp [record, h, extend]

/-- The entries for a call and its end surround what lies between them, and the column is the one before
again. -/
theorem shallower_record {j : Journal} (h : j.enabled = true) (call ending : Event)
    (es : List Entry) : (((j.record call).deeper.extend es).shallower).record ending =
      j.extend (⟨j.indent, call⟩ :: es ++ [⟨j.indent, ending⟩]) := by
  simp [record, h, extend, deeper, shallower]

end Journal

/-! ## Steps -/

section Steps
variable {σ ε α β : Type} [Journaled σ] {m : Action σ ε α} {s : σ}

/-- The state with debugging off. -/
def muted (s : σ) : σ := Journaled.withJournal s (.fresh false)

/-- Begun with debugging on, the step gives the same as with debugging off and leaves the same state but
for the journal, to which it adds calls and their ends at the column at which it is. -/
def Transparent (m : Action σ ε α) (s : σ) : Prop :=
  (Journaled.journal s).enabled = true →
    m (muted s) = ((m s).1, muted (m s).2) ∧ ∃ es, Bracketed (Journaled.journal s).indent es ∧
      Journaled.journal (m s).2 = (Journaled.journal s).extend es

theorem Transparent.bind {f : α → Action σ ε β} (hm : Transparent m s)
    (hf : ∀ a t, m s = (.ok a, t) → Transparent (f a) t) : Transparent (m >>= f) s := by
  intro hs
  obtain ⟨hmuted, es, hes, hj⟩ := hm hs
  rcases hr : m s with ⟨e | a, t⟩ <;> rw [hr] at hmuted hj
  · rw [Action.bind_error hr, Action.bind_error hmuted]
    exact ⟨rfl, es, hes, hj⟩
  · obtain ⟨hmuted', fs, hfs, hj'⟩ := hf a t hr (by rw [hj]; exact hs)
    rw [Action.bind_ok hr, Action.bind_ok hmuted]
    rw [hj, Journal.indent_extend] at hfs
    exact ⟨hmuted', es ++ fs, hes.append hfs, by rw [hj', hj, Journal.extend_extend]⟩

variable [JournalIsField σ]

theorem muted_update (f : Journal → Journal) (s : σ) : muted (Journaled.update f s) = muted s :=
  JournalIsField.withJournal_withJournal _ _ _

theorem Oblivious.transparent (hm : Oblivious m) (s : σ) : Transparent m s := fun _ =>
  ⟨hm s _, [], .nil, by rw [hm.journal_eq, Journal.extend_nil]⟩

/-- Between the entries for a call and its end, which stands at the column of the call, lies what the
step itself adds. -/
theorem Transparent.traced {signature : σ → String} {describe : α → Except ε String}
    (hm : Transparent m (entered signature s)) (explain : ε → String)
    (hshow : ∀ a, (m (entered signature s)).1 = .ok a → ∃ text, describe a = .ok text) :
    Transparent (traced signature explain describe m) s := by
  intro hs
  rw [entered, if_pos hs] at hm hshow
  obtain ⟨hmuted, es, hes, hj⟩ := hm (by simpa [Journal.deeper] using hs)
  rw [muted_update] at hmuted
  have hoff : (Journaled.journal (muted s)).enabled = false := by
    rw [muted, LawfulJournaled.journal_withJournal]
    rfl
  rw [traced_of_disabled hoff, hmuted]
  rw [Journaled.journal_update] at hes hj
  have hcolumn : ((Journaled.journal s).record (.call (signature s))).deeper.indent =
      (Journaled.journal s).indent + 2 := by
    simp [Journal.deeper, Journal.record_of_enabled hs]
  rw [hcolumn] at hes
  rcases hr : m (Journaled.update (fun j => (j.record (.call (signature s))).deeper) s) with
    ⟨e | a, t⟩ <;> rw [hr] at hj <;> simp only [ComplexCalc.traced, if_pos hs, hr]
  · have hends : (Event.failed (signature s) (explain e)).Ends (signature s) := rfl
    refine ⟨by rw [muted_update], _, .call hends hes .nil, ?_⟩
    rw [Journaled.journal_update, hj, Journal.shallower_record hs]
  · obtain ⟨text, htext⟩ := hshow a (by rw [hr])
    have hends : (Event.returned (signature s) text).Ends (signature s) := rfl
    rw [htext]
    refine ⟨by rw [muted_update, muted_update], _, .call hends hes .nil, ?_⟩
    rw [Journaled.journal_update, Journaled.journal_update, hj, Journal.shallower_record hs]

end Steps

/-! ## Parsing -/

namespace Parser

theorem transparent_closed : Closed fun _ (m : ParserM _) => ∀ p, Transparent m p where
  look := (oblivious_lookAhead 0).transparent
  consume := oblivious_consume.transparent
  pure a := (Oblivious.pure a).transparent
  throw _ := Oblivious.transparent fun _ _ => rfl
  bind hm hf _ := (hm _).bind fun a t _ => hf a t
  traced _ explain _ hm _ := (hm _).traced explain fun _ _ => ⟨_, rfl⟩

/-- The bound on the tokens that are left does not depend on the journal. -/
theorem parse_transparent (limit : Option Nat) (p : Parser) : Transparent (parse limit) p := by
  intro hp
  have hparse : ∀ q : Parser, parse limit q = expression (q.bound + 1) limit q := fun _ => rfl
  have hbound : (muted p).bound = p.bound := rfl
  rw [hparse, hparse, hbound]
  exact transparent_closed.expression (p.bound + 1) limit p hp

theorem parsePrefix_transparent (p : Parser) : Transparent parsePrefix p := by
  have hrecord : ∀ e (q : Parser), Transparent (modify (recordParsed e) : ParserM Unit) q := by
    intro e q hq
    have hon : q.journal.enabled = true := hq
    have hoff : (muted q).journal.enabled = false := rfl
    simp only [Action.modify_apply, recordParsed, if_pos hon, hoff, Bool.false_eq_true, if_false]
    exact ⟨rfl, _, .note .nil, Journal.record_of_enabled hon _⟩
  refine (parse_transparent none p).bind fun e q _ => (transparent_closed.look q).bind fun t q _ => ?_
  exact (hrecord e q).bind fun _ q _ => Oblivious.transparent (fun _ _ => rfl) q

end Parser

namespace EvalM

theorem parse_transparent (text : String) (w : Workspace) : Transparent (parse text) w := by
  have hprefix : Transparent (EvalM.parsePrefix text) w := by
    intro hw
    obtain ⟨hmuted, es, hes, hj⟩ :=
      Parser.parsePrefix_transparent (Parser.ofChars text.toList w.journal) hw
    have hstart : muted (Parser.ofChars text.toList w.journal) =
        Parser.ofChars text.toList (muted w).journal := rfl
    rw [hstart] at hmuted
    unfold EvalM.parsePrefix
    rw [hmuted]
    rcases hr : Parser.parsePrefix (Parser.ofChars text.toList w.journal) with ⟨e | r, p⟩ <;>
      rw [hr] at hj <;> exact ⟨rfl, es, hes, hj⟩
  refine hprefix.bind fun (e, rest) w' _ => ?_
  dsimp only
  split
  · exact (Oblivious.pure _).transparent w'
  · exact Oblivious.transparent (fun _ _ => rfl) w'

/-! ## Evaluation -/

theorem transparent_closed : Closed fun _ m w => Transparent m w where
  oblivious hm := hm.transparent _
  bind hm hf := hm.bind hf
  inTable {α m t w} hm hw := by
    obtain ⟨hmuted, hentries⟩ := hm hw
    refine ⟨?_, hentries⟩
    rw [inTable_apply, inTable_apply]
    have hstart : ({ muted w with table := t } : Workspace) = muted { w with table := t } := rfl
    rw [hstart, hmuted]
    rfl

end EvalM

/-- Every value that the evaluation of the expression comes to can be shown. -/
def Showable (s : Settings) (e : Expr) (w : Workspace) : Prop :=
  ∀ loops e' w' v, Visits s e w loops e' w' → (e'.rule s (e'.enter w')).1 = .ok v →
    ∃ text, Display.value s.math s.precision v = .ok text

theorem Expr.eval_transparent {s : Settings} {e : Expr} {w : Workspace} (h : Showable s e w) :
    Transparent (e.eval s) w := by
  refine EvalM.transparent_closed.eval fun loops e' w' hv hrule => ?_
  rw [eval_eq_visit]
  exact Transparent.traced hrule _ fun v => h loops e' w' v hv

theorem EvalM.evalText_transparent {s : Settings} {text : String} {w : Workspace}
    (h : ∀ e w₁, parse text w = (.ok e, w₁) → Showable s e w₁) :
    Transparent (evalText s text) w := by
  refine (parse_transparent text w).bind fun e w₁ hp => ?_
  refine (Expr.eval_transparent (h e w₁ hp)).bind fun v w₂ _ => ?_
  exact (Oblivious.bind (oblivious_assign "Ans" v) fun _ => .pure v).transparent w₂

/-! ## Lines -/

/-- The workspace after some lines. -/
def afterLines (s : Settings) (w : Workspace) (lines : List String) : Workspace :=
  lines.foldl (fun w line => (EvalM.evalText s line w).2) w

theorem afterLines_cons (s : Settings) (w : Workspace) (line : String) (lines : List String) :
    afterLines s w (line :: lines) = afterLines s (EvalM.evalText s line w).2 lines := rfl

/-- Every value that the line comes to can be shown. -/
def LineShowable (s : Settings) (line : String) (w : Workspace) : Prop :=
  ∀ e w₁, EvalM.parse line w = (.ok e, w₁) → Showable s e w₁

/-- With debugging on the line gives what it gives with debugging off and leaves the same variables. The
journal is back at its first column, and what the line has added to it is well nested. -/
structure ChangesOnlyJournal (s : Settings) (line : String) (on off : Workspace) : Prop where
  result : (EvalM.evalText s line on).1 = (EvalM.evalText s line off).1
  memory : (EvalM.evalText s line on).2.memory = (EvalM.evalText s line off).2.memory
  table : (EvalM.evalText s line on).2.table = (EvalM.evalText s line off).2.table
  column : (EvalM.evalText s line on).2.journal.indent = 0
  entries : ∃ es : List Entry, WellNested es ∧
    (EvalM.evalText s line on).2.journal.entries = on.journal.entries ++ es.toArray

section Lines
variable {s : Settings} {w : Workspace}

theorem evalText_muted {line : String} (hon : w.journal.enabled = true) (hcolumn : w.journal.indent = 0)
    (hshow : LineShowable s line w) :
    (EvalM.evalText s line (muted w)).2 = muted (EvalM.evalText s line w).2 ∧
      (EvalM.evalText s line w).2.journal.enabled = true ∧
      ChangesOnlyJournal s line w (muted w) := by
  obtain ⟨hmuted, es, hes, hj⟩ := EvalM.evalText_transparent hshow hon
  have hj' : (EvalM.evalText s line w).2.journal = w.journal.extend es := hj
  have hes' : Bracketed 0 es := hcolumn ▸ hes
  refine ⟨by rw [hmuted], by rw [hj']; exact hon, ?_⟩
  constructor
  · rw [hmuted]
  · rw [hmuted]
    rfl
  · rw [hmuted]
    rfl
  · rw [hj']
    exact hcolumn
  · exact ⟨es, hes'.wellNested, by rw [hj']; rfl⟩

/-- Debugging changes nothing but the journal: run with it on and with it off, lines give the same values
and errors and leave the same variables, provided that every value that they come to can be shown. -/
theorem debugging_changes_only_journal (hon : w.journal.enabled = true)
    (hcolumn : w.journal.indent = 0) {lines : List String}
    (hshow : ∀ before line later, lines = before ++ line :: later →
      LineShowable s line (afterLines s w before)) :
    ∀ before line later, lines = before ++ line :: later →
      ChangesOnlyJournal s line (afterLines s w before) (afterLines s (muted w) before) := by
  induction lines generalizing w with
  | nil => simp
  | cons first lines ih =>
    obtain ⟨hmuted, hon', hchanges⟩ := evalText_muted hon hcolumn (hshow [] first lines rfl)
    intro before line later heq
    cases before with
    | nil =>
      cases heq
      exact hchanges
    | cons b before =>
      obtain ⟨rfl, hlines⟩ := List.cons.inj heq
      rw [afterLines_cons, afterLines_cons, hmuted]
      refine ih hon' hchanges.column (fun before line later h => ?_) before line later hlines
      rw [← afterLines_cons]
      exact hshow (first :: before) line later (congrArg (first :: ·) h)

end Lines

/-- The rule of the expression gives no value, or one that can be shown. -/
def shows (s : Settings) (e : Expr) (w : Workspace) : Bool :=
  (e.rule s (e.enter w)).1.toOption.all fun v => (Display.value s.math s.precision v).toOption.isSome

theorem exists_text_of_shows {s : Settings} {e : Expr} {w : Workspace} {v : Value}
    (h : shows s e w = true) (hv : (e.rule s (e.enter w)).1 = .ok v) :
    ∃ text, Display.value s.math s.precision v = .ok text := by
  have hsome : (Display.value s.math s.precision v).toOption.isSome = true := by rwa [shows, hv] at h
  rcases hd : Display.value s.math s.precision v with f | text
  · rw [hd] at hsome
    cases hsome
  · exact ⟨text, rfl⟩

theorem parse_assignment_of_unit (w : Workspace) :
    (EvalM.parse "x = i" w).1 = .ok (.assign "x" (.name "i")) := by
  have hspace : Text.AllBlank [' '] := List.forall_mem_singleton.2 rfl
  have hi := Spells.nil.token (t := ⟨.identifier, ['i'], 0⟩) (by decide)
  have hassign := (hi.gap hspace).token (t := ⟨.assign, ['='], 0⟩) (by decide)
  have hx : Spells [⟨.identifier, ['x'], 0⟩, ⟨.assign, ['='], 0⟩, ⟨.identifier, ['i'], 0⟩]
      "x = i".toList :=
    (hassign.gap hspace).token (t := ⟨.identifier, ['x'], 0⟩) (by decide)
  have hname : Derives .primary [⟨.identifier, ['x'], 0⟩] (.name "x") := .name rfl
  exact hx.parse (.assign hname rfl ((Derives.name rfl).loosen (by decide))) w

theorem lineShowable_assignment :
    LineShowable .standard "x = i" (.fresh default true (.fresh true)) := by
  intro e w₁ hp loops e' w' v hv hrule
  have he := parse_assignment_of_unit (.fresh default true (.fresh true))
  have hw := congrArg Prod.snd hp
  rw [hp] at he
  cases he
  dsimp only at hw
  subst hw
  cases hv with
  | here => exact exists_text_of_shows (by decide +kernel) hrule
  | part hstart hv =>
    cases hstart
    cases hv with
    | here => exact exists_text_of_shows (by decide +kernel) hrule
    | part hstart _ => cases hstart

/-- A text that is no expression comes to no values. -/
theorem lineShowable_of_parse_error {s : Settings} {line : String} {w : Workspace} {e : SyntaxError}
    (h : syntaxErrorOf (EvalM.parse line w).1 = some e) : LineShowable s line w := by
  intro e' w₁ hp
  rw [hp] at h
  cases h

/-- An assignment, and a text that ends too early. -/
theorem debugging_changes_only_journal_in_session :
    ChangesOnlyJournal .standard "x = i" (.fresh default true (.fresh true))
        (.fresh default true (.fresh false)) ∧
      ChangesOnlyJournal .standard "x +"
        (afterLines .standard (.fresh default true (.fresh true)) ["x = i"])
        (afterLines .standard (.fresh default true (.fresh false)) ["x = i"]) := by
  have hchanges : ∀ before line later, ["x = i", "x +"] = before ++ line :: later →
      ChangesOnlyJournal .standard line (afterLines .standard (.fresh default true (.fresh true)) before)
        (afterLines .standard (.fresh default true (.fresh false)) before) := by
    refine debugging_changes_only_journal (by decide +kernel) (by decide +kernel) ?_
    rintro (- | ⟨a, - | ⟨b, - | ⟨c, before⟩⟩⟩) line later hlines
    · cases hlines
      exact lineShowable_assignment
    · cases hlines
      exact lineShowable_of_parse_error (e := .noExpression [] 3) (by decide +kernel)
    · simp at hlines
    · simp at hlines
  exact ⟨hchanges [] _ _ rfl, hchanges ["x = i"] _ [] rfl⟩

end ComplexCalc
