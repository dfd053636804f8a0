import ComplexCalc.Proofs.Cuts
/-!
# Tokens and the gaps before them

A text is its tokens with a gap of blanks before each of them and before its end. Scanning passes over
the gap, so it finds the same tokens in every text that is put together in this way, and a text that
ends behind some of its tokens has just these tokens.
-/
namespace ComplexCalc

/-- All characters are blanks. -/
def Text.AllBlank (cs : List Char) : Prop := ∀ c ∈ cs, isBlank c = true

instance Text.decidableAllBlank (cs : List Char) : Decidable (AllBlank cs) :=
  decidable_of_iff (cs.all isBlank = true) List.all_eq_true

/-! ## Scanning over gaps -/

section Scanning
variable {k : Nat} {cs gap rest : List Char} {t : Token}

theorem scan_gap (hgap : Text.AllBlank gap) (k : Nat) (cs : List Char) :
    scan k (gap ++ cs) = scan (k + gap.length) cs := by
  induction gap generalizing k with
  | nil => rfl
  | cons b gap ih =>
    obtain ⟨hb, hgap⟩ := List.forall_mem_cons.1 hgap
    have hstep : scan k (b :: gap ++ cs) = scan (k + 1) (gap ++ cs) := by
      rw [List.cons_append, scan, scanWith, TokenKind.firstAmong_of_isBlank hb]
      exact if_pos hb
    rw [hstep, ih hgap, List.length_cons, Nat.add_right_comm, Nat.add_assoc]

theorem scan_nil (k : Nat) : scan k [] = .ok (⟨.eof, [], k⟩, []) := rfl

theorem scan_token {kind : TokenKind} {text : List Char}
    (h : TokenKind.firstAmong TokenKind.all (text ++ rest) = some (kind, text.length)) (k : Nat) :
    scan k (text ++ rest) = .ok (⟨kind, text, k⟩, rest) := by
  obtain ⟨c, cs, rfl⟩ := List.exists_cons_of_length_pos (TokenKind.pos_of_firstAmong h)
  rw [List.cons_append] at h ⊢
  rw [scan, scanWith, h]
  simp

/-- What a scan finds: the end of a text of blanks, or a token behind a gap. -/
inductive Behind (k : Nat) (cs : List Char) : Token → List Char → Prop
  | ending : Text.AllBlank cs → Behind k cs ⟨.eof, [], k + cs.length⟩ []
  | token {gap text rest : List Char} {kind : TokenKind} : Text.AllBlank gap →
      TokenKind.firstAmong TokenKind.all (text ++ rest) = some (kind, text.length) →
      cs = gap ++ (text ++ rest) → Behind k cs ⟨kind, text, k + gap.length⟩ rest

theorem behind_iff : scan k cs = .ok (t, rest) ↔ Behind k cs t rest := by
  constructor
  · intro h
    induction cs generalizing k with
    | nil =>
      cases h
      exact .ending (by simp [Text.AllBlank])
    | cons c cs ih =>
      rw [scan, scanWith] at h
      split at h
      · rename_i kind n hn
        have htake : ((c :: cs).take n).length = n :=
          List.length_take_of_le (TokenKind.le_length_of_firstAmong hn)
        cases h
        have hfirst : TokenKind.firstAmong TokenKind.all ((c :: cs).take n ++ (c :: cs).drop n) =
            some (kind, ((c :: cs).take n).length) := by rwa [List.take_append_drop, htake]
        have hnil : Text.AllBlank [] := by simp [Text.AllBlank]
        exact .token hnil hfirst (by rw [List.nil_append, List.take_append_drop])
      · split at h
        · rename_i hblank
          cases ih h with
          | ending hcs =>
            have := Behind.ending (k := k) (List.forall_mem_cons.2 ⟨hblank, hcs⟩)
            rwa [List.length_cons, Nat.add_comm cs.length, ← Nat.add_assoc] at this
          | @token gap text rest kind hgap htext hcs =>
            have := Behind.token (k := k) (List.forall_mem_cons.2 ⟨hblank, hgap⟩) htext
              (congrArg (c :: ·) hcs)
            rwa [List.length_cons, Nat.add_comm gap.length, ← Nat.add_assoc] at this
        · cases h
  · rintro (hcs | ⟨hgap, htext, rfl⟩)
    · have := scan_gap hcs k []
      rwa [List.append_nil, scan_nil] at this
    · rw [scan_gap hgap, scan_token htext]

end Scanning

/-! ## Texts that end behind a token -/

/-- A text that ends before one of its tokens has the tokens before that one. -/
theorem Lexes.cut {k : Nat} {cs : List Char} {w rest : List Token} {t : Token} {z : Reply}
    (h : Lexes k cs (w ++ rest) z) (ht : Parser.next rest z = .ok t) :
    ∃ before after, cs = before ++ after ∧ t.offset = k + before.length ∧
      Lexes k before w (.ok ⟨.eof, [], k + before.length⟩) ∧
      (after = [] ∧ t.kind = .eof ∨
        ∃ later, after = t.text ++ later ∧ TokenKind.firstAmong TokenKind.all (t.text ++ later) =
          some (t.kind, t.text.length)) := by
  induction w generalizing k cs with
  | nil =>
    obtain ⟨later, hscan⟩ : ∃ later, scan k cs = .ok (t, later) := by
      cases h with
      | ending hs =>
        cases ht
        exact ⟨_, hs⟩
      | stuck => cases ht
      | token hs =>
        cases ht
        exact ⟨_, hs⟩
    cases behind_iff.1 hscan with
    | ending hcs =>
      exact ⟨cs, [], (List.append_nil cs).symm, rfl, .ending (behind_iff.2 (.ending hcs)) rfl,
        .inl ⟨rfl, rfl⟩⟩
    | @token gap text _ kind hgap htext hcs =>
      exact ⟨gap, text ++ later, hcs, rfl, .ending (behind_iff.2 (.ending hgap)) rfl,
        .inr ⟨later, rfl, htext⟩⟩
  | cons u w ih =>
    cases h with
    | token hs hu hrest =>
      cases behind_iff.1 hs with
      | ending => exact absurd rfl hu
      | @token gap text cs' kind hgap htext hcs =>
        obtain ⟨before, after, rfl, hoffset, hlexes, hafter⟩ := ih hrest
        have hlength : k + (gap ++ (text ++ before)).length =
            k + gap.length + text.length + before.length := by
          simp only [List.length_append]
          omega
        refine ⟨gap ++ (text ++ before), after, by simp [hcs], hlength ▸ hoffset, ?_, hafter⟩
        rw [hlength]
        rw [← List.append_assoc] at htext
        have hcut := TokenKind.firstAmong_of_append htext (by simp)
        exact .token (behind_iff.2 (.token hgap hcut rfl)) hu hlexes

/-- The tokens of a text are found in their own texts. -/
theorem Lexes.isLexeme {k : Nat} {cs : List Char} {w : List Token} {z : Reply}
    (h : Lexes k cs w z) : ∀ t ∈ w, t.IsLexeme := by
  induction h with
  | ending | stuck => simp
  | token hs ht _ ih =>
    refine List.forall_mem_cons.2 ⟨?_, ih⟩
    cases behind_iff.1 hs with
    | ending => exact absurd rfl ht
    | token _ htext => exact TokenKind.firstAmong_of_append htext (Nat.le_refl _)

end ComplexCalc
