import ComplexCalc.Proofs.Blanks
import ComplexCalc.Proofs.Spelling
/-!
# Tokens apart

Tokens may stand in a text with any gaps between them, as long as no gap is empty: a token that is found
in its own text is found before any blank.
-/
namespace ComplexCalc

/-- The texts, each with a gap before it, and a last gap behind them. -/
def Text.spaced (gaps texts : List (List Char)) (after : List Char) : List Char :=
  (List.zipWith (· ++ ·) gaps texts).flatten ++ after

/-- Gaps for `n` texts and one gap behind them, of which only the first and the last may be empty. -/
structure Text.Gaps (gaps : List (List Char)) (after : List Char) (n : Nat) : Prop where
  length : gaps.length = n
  blank : ∀ gap ∈ gaps, Text.AllBlank gap
  between : ∀ gap ∈ gaps.tail, gap ≠ []
  after : Text.AllBlank after

/-- What begins with a blank, if it is anything. -/
def BlankFirst (cs : List Char) : Prop := ∀ c ∈ cs.head?, Text.isBlank c = true

theorem blankFirst_of_allBlank {cs : List Char} (h : Text.AllBlank cs) : BlankFirst cs :=
  fun _ hc => h _ (List.mem_of_mem_head? hc)

/-- A token does not depend on what begins with a blank behind it. -/
theorem Token.IsLexeme.firstAmong_append {t : Token} (h : t.IsLexeme) {cs : List Char}
    (hcs : BlankFirst cs) :
    TokenKind.firstAmong TokenKind.all (t.text ++ cs) = some (t.kind, t.text.length) := by
  cases cs with
  | nil => rwa [List.append_nil]
  | cons b cs =>
    rw [TokenKind.firstAmong_append_blank (hcs b rfl)]
    exact h

section Spaced
variable {gap after : List Char} {gaps texts : List (List Char)}

@[simp] theorem Text.spaced_nil : Text.spaced gaps [] after = after := by simp [spaced]

@[simp] theorem Text.spaced_cons (text : List Char) :
    Text.spaced (gap :: gaps) (text :: texts) after =
      gap ++ (text ++ Text.spaced gaps texts after) := by
  simp [spaced]

theorem Text.Gaps.tail {n : Nat} (h : Text.Gaps (gap :: gaps) after (n + 1)) :
    Text.Gaps gaps after n where
  length := Nat.succ.inj h.length
  blank := (List.forall_mem_cons.1 h.blank).2
  between g hg := h.between g (List.mem_of_mem_tail hg)
  after := h.after

/-- Behind a text comes the gap that is before the next one. -/
theorem Text.Gaps.blankFirst (h : Text.Gaps (gap :: gaps) after (texts.length + 1)) :
    BlankFirst (Text.spaced gaps texts after) := by
  rcases texts with - | ⟨text, texts⟩
  · rw [Text.spaced_nil]
    exact blankFirst_of_allBlank h.after
  · obtain ⟨g, gs, rfl⟩ := List.exists_cons_of_length_eq_add_one h.tail.length
    obtain ⟨b, g, rfl⟩ := List.exists_cons_of_ne_nil (h.between g (List.mem_cons_self ..))
    intro c hc
    obtain rfl : b = c := by simpa using hc
    exact h.tail.blank _ (List.mem_cons_self ..) b (List.mem_cons_self ..)

end Spaced

/-- Tokens that are found in their own texts are spelled with any gaps between them. -/
theorem Spells.spaced {ts : List Token} {gaps : List (List Char)} {after : List Char}
    (h : ∀ t ∈ ts, t.IsLexeme) (hgaps : Text.Gaps gaps after ts.length) :
    Spells ts (Text.spaced gaps (ts.map Token.text) after) := by
  induction ts generalizing gaps with
  | nil =>
    have hafter := Spells.nil.gap hgaps.after
    rw [List.append_nil] at hafter
    rwa [List.map_nil, Text.spaced_nil]
  | cons t ts ih =>
    obtain ⟨gap, gaps, rfl⟩ := List.exists_cons_of_length_eq_add_one hgaps.length
    obtain ⟨ht, hts⟩ := List.forall_mem_cons.1 h
    rw [List.map_cons, Text.spaced_cons]
    refine ((ih hts hgaps.tail).token (ht.firstAmong_append ?_)).gap (hgaps.blank gap (by simp))
    apply Text.Gaps.blankFirst
    rwa [List.length_map]

theorem Text.intercalate_eq_spaced (text : List Char) (texts : List (List Char)) :
    [' '].intercalate (text :: texts) =
      Text.spaced ([] :: List.replicate texts.length [' ']) (text :: texts) [] := by
  induction texts generalizing text with
  | nil => simp
  | cons u us ih =>
    rw [List.intercalate_cons_cons, ih]
    simp [List.replicate_succ]

/-- Tokens that are found in their own texts are spelled with single spaces between them. -/
theorem Spells.intercalated {ts : List Token} (h : ∀ t ∈ ts, t.IsLexeme) :
    Spells ts ([' '].intercalate (ts.map Token.text)) := by
  cases ts with
  | nil => exact .nil
  | cons t ts =>
    rw [List.map_cons, Text.intercalate_eq_spaced, ← List.map_cons (f := Token.text)]
    refine Spells.spaced h ⟨by simp, ?_, fun gap hgap => ?_, by simp [Text.AllBlank]⟩
    · refine List.forall_mem_cons.2 ⟨by simp [Text.AllBlank], fun gap hgap => ?_⟩
      rw [List.eq_of_mem_replicate hgap]
      exact List.forall_mem_singleton.2 rfl
    · rw [List.eq_of_mem_replicate hgap]
      exact List.cons_ne_nil _ _

end ComplexCalc
