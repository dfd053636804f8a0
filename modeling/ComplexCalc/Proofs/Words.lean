import ComplexCalc.Proofs.Coverage
import ComplexCalc.Proofs.FirstCharacters
import Mathlib.Data.List.TakeWhile
/-!
# Words

A word is a text of letters and underscores. No operator and no literal begins with such a character,
so a word is one name, except where it begins with the keyword of the remainder: the keyword is tried
before the names and needs no end of the word after it, and splits what follows off.
-/
namespace ComplexCalc

/-- A text of letters and underscores in which an underscore that leads has another one of these
characters after it. -/
structure IsWord (w : List Char) : Prop where
  nonempty : w ≠ []
  letters : ∀ c ∈ w, Match.isNameChar c
  lead : ∀ cs, w = '_' :: cs → cs ≠ []

/-- The keyword of the remainder. -/
def remainderWord : List Char := ['m', 'o', 'd']

/-! ## Which kinds a word matches -/

namespace Match

theorem name_of_isWord {w : List Char} (h : IsWord w) : name w = w.length := by
  have hrun : ∀ cs : List Char, (∀ c ∈ cs, isNameChar c) →
      (cs.takeWhile isNameChar).length = cs.length :=
    fun cs hcs => by rw [List.takeWhile_eq_self_iff.2 hcs]
  unfold name
  split
  · rename_i cs
    obtain ⟨d, ds, rfl⟩ := List.exists_cons_of_ne_nil (h.lead cs rfl)
    have hcs : ∀ c ∈ d :: ds, isNameChar c := fun c hc => h.letters c (List.mem_cons_of_mem _ hc)
    dsimp only
    rw [if_pos (hcs d (List.mem_cons_self ..)), hrun _ hcs]
    exact Nat.add_comm 1 _
  · exact hrun w h.letters

end Match

theorem TokenKind.length_mod (cs : List Char) :
    TokenKind.mod.length cs = if remainderWord <+: cs then 3 else 0 := by
  simp only [length, Match.word, List.isPrefixOf_iff_prefix]
  rfl

/-- A word begins with the keyword of the remainder, or it is a name. -/
theorem IsWord.firstAmong {w : List Char} (h : IsWord w) :
    TokenKind.firstAmong TokenKind.all w =
      some (if remainderWord <+: w then (.mod, 3) else (.identifier, w.length)) := by
  have hname : TokenKind.identifier.length w = w.length := Match.name_of_isWord h
  have hpos := List.length_pos_iff.2 h.nonempty
  obtain ⟨c, cs, rfl⟩ := List.exists_cons_of_ne_nil h.nonempty
  have hother : ∀ k : TokenKind, k ≠ .mod → k ≠ .identifier → k.length (c :: cs) = 0 := fun k =>
    TokenKind.length_of_isNameChar (h.letters c (List.mem_cons_self ..)) cs
  simp only [TokenKind.firstAmong, TokenKind.all, List.findSome?_cons, TokenKind.length_mod, hname]
  by_cases hmod : remainderWord <+: c :: cs <;> simp [hother, hmod]

/-! ## What the lexer makes of a word -/

theorem tokensWith_of_scan {k : Nat} {cs rest : List Char} {t : Token}
    (h : scan k cs = .ok (t, rest)) (ht : t.kind ≠ .eof) :
    tokensWith TokenKind.all k cs =
      (t :: (tokensWith TokenKind.all (t.offset + t.text.length) rest).1,
        (tokensWith TokenKind.all (t.offset + t.text.length) rest).2) := by
  conv => lhs; unfold tokensWith
  split
  · rename_i heq
    cases h.symm.trans heq
  · rename_i heq
    cases h.symm.trans heq
    exact dif_neg ht

theorem IsWord.scan {w : List Char} (h : IsWord w) :
    scan 0 w = if remainderWord <+: w then .ok (⟨.mod, remainderWord, 0⟩, w.drop 3)
      else .ok (⟨.identifier, w, 0⟩, []) := by
  have hfirst := h.firstAmong
  obtain ⟨c, cs, rfl⟩ := List.exists_cons_of_ne_nil h.nonempty
  rw [ComplexCalc.scan, scanWith, hfirst]
  by_cases hmod : remainderWord <+: c :: cs
  · obtain ⟨rest, hrest⟩ := hmod
    simp [← hrest, remainderWord]
  · simp [hmod]

/-- A word is one name and nothing else exactly if it does not begin with the keyword of the remainder.
If it does, the keyword is the first token and the lexer goes on behind it. -/
theorem word_is_one_name_iff {w : List Char} (h : IsWord w) :
    ((Lexer.ofChars w).Yields [⟨.identifier, w, 0⟩, .ending w] none ↔ ¬ remainderWord <+: w) ∧
      (remainderWord <+: w → ∀ ts stop, (Lexer.ofChars w).Yields ts stop ↔
        ∃ us, ts = ⟨.mod, remainderWord, 0⟩ :: us ∧
          tokensWith TokenKind.all 3 (w.drop 3) = (us, stop)) := by
  have hyields := Lexer.yields_iff w
  have hscan := h.scan
  by_cases hmod : remainderWord <+: w
  · rw [if_pos hmod] at hscan
    have htokens : tokens w = (⟨.mod, remainderWord, 0⟩ ::
        (tokensWith TokenKind.all 3 (w.drop 3)).1, (tokensWith TokenKind.all 3 (w.drop 3)).2) :=
      tokensWith_of_scan hscan (by decide)
    rw [htokens] at hyields
    refine ⟨⟨fun hname => ?_, fun hnot => absurd hmod hnot⟩, fun _ ts stop => ?_⟩
    · have heq := (hyields _ _).1 hname
      simp at heq
    · rw [hyields, Prod.mk.injEq]
      constructor
      · rintro ⟨rfl, rfl⟩
        exact ⟨_, rfl, rfl⟩
      · rintro ⟨us, rfl, hrest⟩
        rw [hrest]
        exact ⟨rfl, rfl⟩
  · rw [if_neg hmod] at hscan
    have hend : tokensWith TokenKind.all w.length [] = ([.ending w], none) := by
      simp [tokensWith, scanWith, Token.ending]
    have htokens : tokens w = ([⟨.identifier, w, 0⟩, .ending w], none) := by
      rw [tokens, tokensWith_of_scan hscan TokenKind.noConfusion, Nat.zero_add, hend]
    exact ⟨⟨fun _ => hmod, fun _ => (hyields _ _).2 htokens⟩, fun hyes => absurd hyes hmod⟩

/-- A keyword within a word or at its end leaves the word whole. -/
theorem mod_inside_word_is_name :
    IsWord ['a', 'm', 'o', 'd'] ∧
      (Lexer.ofChars ['a', 'm', 'o', 'd']).Yields
        [⟨.identifier, ['a', 'm', 'o', 'd'], 0⟩, ⟨.eof, [], 4⟩] none := by
  have hword : IsWord ['a', 'm', 'o', 'd'] := ⟨by decide, List.all_eq_true.1 rfl, by simp⟩
  exact ⟨hword, (word_is_one_name_iff hword).1.2 (by decide)⟩

/-- A word that begins with the keyword and is not the keyword comes apart. -/
theorem model_is_two_tokens :
    IsWord ['m', 'o', 'd', 'e', 'l'] ∧ ['m', 'o', 'd', 'e', 'l'] ≠ remainderWord ∧
      (Lexer.ofChars ['m', 'o', 'd', 'e', 'l']).Yields
        [⟨.mod, ['m', 'o', 'd'], 0⟩, ⟨.identifier, ['e', 'l'], 3⟩, ⟨.eof, [], 5⟩] none ∧
      ¬ (Lexer.ofChars ['m', 'o', 'd', 'e', 'l']).Yields
        [⟨.identifier, ['m', 'o', 'd', 'e', 'l'], 0⟩, ⟨.eof, [], 5⟩] none := by
  have hyields : (Lexer.ofChars ['m', 'o', 'd', 'e', 'l']).Yields
      [⟨.mod, ['m', 'o', 'd'], 0⟩, ⟨.identifier, ['e', 'l'], 3⟩, ⟨.eof, [], 5⟩] none :=
    .token rfl rfl (.token rfl rfl (.token rfl rfl (.finished rfl)))
  refine ⟨⟨by decide, List.all_eq_true.1 rfl, by simp⟩, by decide, hyields, fun hname => ?_⟩
  have heq := (hname.unique hyields).1
  simp at heq

end ComplexCalc
