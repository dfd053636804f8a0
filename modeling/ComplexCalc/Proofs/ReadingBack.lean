import ComplexCalc.Proofs.Constants
import ComplexCalc.Proofs.LineFrame
import ComplexCalc.Proofs.NumberTexts
/-!
# The text of a number reads back

The text of a number is evaluated to an equal number, on a table that has its constants, and nothing but
`Ans` is bound. With debugging on the values on the way are shown as well, which may fail; that is the
only way for the line to fail.
-/
namespace ComplexCalc

/-- A line with the text gives a number that is equal to `z`, and binds `Ans` to it. No other name is
bound, and the variable of no other name changes. -/
def ReadsBack (s : Settings) (text : String) (w : Workspace) (z : Number) : Prop :=
  ∃ v w' id, EvalM.evalText s text w = (.ok (.number v), w') ∧ (v == z) = true ∧
    w'.table.locate? w'.memory "Ans" = some (id, ⟨"Ans", .number v, false⟩) ∧
    Frame (· = "Ans") (· = "Ans") w w'

/-! ## New tables -/

section NewTables
variable (random : RandomSource) (journal : Journal)

theorem Workspace.assignable_fresh : (fresh random true journal).Assignable "Ans" := by
  have hnone : (fresh random true journal).table.scope.get? "Ans" = none := by
    rw [Bindings.get?_eq_none, (fresh_standard random journal).2]
    decide
  exact assignable_of_unbound (reading_of_unbound hnone)

theorem Workspace.reading_fresh : (fresh random true journal).reading "i" = some (.number .i, true) := by
  obtain ⟨id, hid⟩ := (Pristine.fresh random journal).constants "i" (.number .i) (by simp [EvalM.constants])
  rw [reading, hid]
  rfl

end NewTables

/-! ## Lines -/

/-- On a new table a line with a text of a number reads back, unless debugging is on and a value on the
way cannot be shown. -/
theorem Phrase.readsBack {p : Float → Prop} {text : String} {v z : Number}
    (h : Phrase p .sum text.toList v) (hv : (v == z) = true) (s : Settings) (random : RandomSource)
    (journal : Journal) :
    ReadsBack s text (.fresh random true journal) z ∨ journal.enabled = true ∧
      (EvalM.evalText s text (.fresh random true journal)).1 = .error (.fault .zeroDivision) ∧
      ∃ y : Number, p y.re ∧ p y.im ∧ ∀ t, Display.value s.math s.precision (.number y) ≠ .ok t := by
  have hstandard := (Workspace.fresh_standard random journal).1
  have hans := Workspace.assignable_fresh random journal
  have hi := Workspace.reading_fresh random journal
  have hjournal := Workspace.journal_fresh random journal
  generalize Workspace.fresh random true journal = w at *
  obtain ⟨ts, e, hs, hd, hr⟩ := h
  have hspells : Spells ts text.toList := by
    simpa using hs [] [] (fun c hc => by cases hc) .nil
  have hparse := hspells.parse (hd.loosen (by decide)) w
  obtain ⟨hm₁, ht₁⟩ := EvalM.parse_touches text w
  have hdebug := EvalM.enabled_parse text w
  rcases hp : EvalM.parse text w with ⟨r, w₁⟩
  rw [hp] at hparse hm₁ ht₁ hdebug
  dsimp only at hparse
  subst hparse
  obtain ⟨hm₂, ht₂, -, hresult⟩ := hr.eval s (w := w₁) (by rw [Workspace.reading_congr hm₁ ht₁, hi])
  rcases he : e.eval s w₁ with ⟨r, w₂⟩
  rw [he] at hm₂ ht₂ hresult
  have hm := hm₂.trans hm₁
  have ht := ht₂.trans ht₁
  have hframe : Frame (· = "Ans") (· = "Ans") w w₂ := .of_eq hm (by rw [ht]) (by rw [ht])
  have hsound := hframe.sound hstandard.sound
  unfold ReadsBack EvalM.evalText EvalM.keepAnswer
  rw [Action.bind_ok hp]
  rcases hresult with hvalue | ⟨hfault, hd, hfail⟩
  · cases hvalue
    obtain ⟨w', id, ha, hl⟩ := EvalM.assign_of_assignable
      (hans.of_frame hstandard.sound hframe) hsound (.number v)
    have hkeeps : Keeps (· = "Ans") (· = "Ans") (EvalM.assign "Ans" (.number v)) w₂ :=
      .assign fun _ _ => ⟨rfl, rfl⟩
    refine .inl ⟨v, w', id, ?_, hv, hl, hframe.trans (hkeeps.frame ha hsound)⟩
    rw [Action.bind_ok he, Action.bind_ok ha]
    rfl
  · cases hfault
    refine .inr ⟨?_, ?_, hfail⟩
    · rw [← hjournal, ← hdebug, hd]
    · rw [Action.bind_error he]

/-! ## Texts -/

theorem Number.plain_beq {z : Number} (hre : z.re.isFinite = true) (him : z.im.isFinite = true) :
    ((⟨Double.plain z.re, Double.plain z.im⟩ : Number) == z) = true := by
  change (_ && _) = true
  rw [Double.plain_beq hre, Double.plain_beq him]
  rfl

/-- The text of a number with finite components is read as the number, where a zero is positive. -/
theorem Number.text_phrase {z : Number} (hre : z.re.isFinite = true) (him : z.im.isFinite = true) :
    Phrase (fun _ => True) .sum z.text.toList ⟨Double.plain z.re, Double.plain z.im⟩ := by
  have hreal : Part (fun _ => True) .ofReal z.re (Decimal.realText z.re).toList :=
    .real (Decimal.realText_written hre) trivial trivial
  unfold text
  split
  · rename_i hzero
    rw [Double.plain_of_zero hzero]
    exact hreal.phrase Part.neg_real trivial trivial
  · have himaginary : Part (fun _ => True) .ofImaginary z.im ((Decimal.realText z.im).toList ++ ['i']) :=
      .imaginary (Decimal.realText_written him) trivial trivial
    have h := hreal.sum himaginary trivial trivial trivial
    cases hsign : Double.isNegative z.im <;> rw [hsign] at h <;> simpa using h

/-- The text of a number with finite components reads back as the number, and binds nothing but `Ans`.
With debugging on, the line may instead fail to show a value on the way. -/
theorem text_reads_back (s : Settings) (random : RandomSource) (journal : Journal) {z : Number}
    (hre : z.re.isFinite = true) (him : z.im.isFinite = true) :
    ReadsBack s z.text (.fresh random true journal) z ∨ journal.enabled = true ∧
      (EvalM.evalText s z.text (.fresh random true journal)).1 = .error (.fault .zeroDivision) :=
  ((Number.text_phrase hre him).readsBack (Number.plain_beq hre him) s random journal).imp_right
    fun ⟨hdebug, hfault, _⟩ => ⟨hdebug, hfault⟩

/-- Two negative components with exponents, one of which ends before the sign of the other. -/
theorem text_with_exponents_reads_back :
    Number.text ⟨-1e-5, -1e16⟩ = "-1e-05-1e+16i" ∧
    ReadsBack .standard (Number.text ⟨-1e-5, -1e16⟩) (.fresh default true (.fresh false)) ⟨-1e-5, -1e16⟩ := by
  refine ⟨by decide +kernel, ?_⟩
  rcases text_reads_back .standard default (.fresh false) (z := ⟨-1e-5, -1e16⟩) rfl rfl with h | ⟨h, -⟩
  · exact h
  · cases h

end ComplexCalc
