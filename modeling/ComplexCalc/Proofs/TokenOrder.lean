import ComplexCalc.Proofs.Words
import Mathlib.Tactic.TFAE
/-!
# The order of the kinds

The lexer takes the first kind that matches. Since only the keyword of the remainder and the names
match at one place, any order of the kinds that tries the keyword before the names gives the same
tokens and the same error, and no other order does.
-/
namespace ComplexCalc

/-- Two kinds match at one place exactly at the keyword of the remainder, of which one is then the
keyword and the other one a name. -/
theorem TokenKind.both_match_iff {j k : TokenKind} (hne : j ≠ k) {cs : List Char} :
    (0 < j.length cs ∧ 0 < k.length cs) ↔
      remainderWord <+: cs ∧ (j = .mod ∧ k = .identifier ∨ j = .identifier ∧ k = .mod) := by
  constructor
  · rintro ⟨hj, hk⟩
    have hkinds := (eq_of_length_pos hj hk).resolve_left hne
    refine ⟨?_, hkinds⟩
    have hmod : 0 < TokenKind.mod.length cs := by
      rcases hkinds with ⟨rfl, -⟩ | ⟨-, rfl⟩ <;> assumption
    by_contra hstart
    rw [length_mod, if_neg hstart] at hmod
    exact absurd hmod (Nat.lt_irrefl 0)
  · rintro ⟨hstart, hkinds⟩
    have hmod : 0 < TokenKind.mod.length cs := by
      rw [length_mod, if_pos hstart]
      decide
    have hname : 0 < TokenKind.identifier.length cs := by
      obtain ⟨rest, rfl⟩ := hstart
      simp [length, remainderWord, Match.name, show Match.isNameChar 'm' = true by decide]
    rcases hkinds with ⟨rfl, rfl⟩ | ⟨rfl, rfl⟩
    · exact ⟨hmod, hname⟩
    · exact ⟨hname, hmod⟩

/-! ## Orders that find the same kind -/

variable {kinds : List TokenKind}

theorem scanWith_congr {kinds' : List TokenKind}
    (h : TokenKind.firstAmong kinds = TokenKind.firstAmong kinds') :
    scanWith kinds = scanWith kinds' := by
  funext offset cs
  induction cs generalizing offset with
  | nil => rfl
  | cons c cs ih => simp only [scanWith, h, ih]

theorem tokensWith_congr {kinds' : List TokenKind} (h : scanWith kinds = scanWith kinds')
    (offset : Nat) (cs : List Char) : tokensWith kinds offset cs = tokensWith kinds' offset cs := by
  -- The induction follows the tokens. Each of them is found at the same place with both lists.
  fun_induction tokensWith kinds offset cs with
  | case1 _ _ _ hscan | case2 _ _ _ _ hscan _ | case3 _ _ _ _ hscan =>
    rw [h] at hscan
    unfold tokensWith
    split <;> simp_all

/-- Where the keyword of the remainder is tried before the names, no name is tried before it. -/
theorem pairwise_of_sublist (hnodup : kinds.Nodup)
    (horder : [.mod, .identifier].Sublist kinds) :
    kinds.Pairwise fun j k => ¬(j = .identifier ∧ k = .mod) := by
  obtain ⟨earlier, later, rfl, hmod, hname⟩ := List.cons_sublist_iff.1 horder
  rw [List.singleton_sublist] at hname
  obtain ⟨-, -, hdisjoint⟩ := List.nodup_append.1 hnodup
  have hearlier : ∀ j ∈ earlier, j ≠ .identifier := fun j hj => hdisjoint j hj _ hname
  have hlater : ∀ k ∈ later, k ≠ .mod := fun k hk => (hdisjoint _ hmod k hk).symm
  refine List.pairwise_append.2 ⟨?_, ?_, fun j hj k _ h => hearlier j hj h.1⟩
  · exact List.pairwise_of_forall_mem_list fun j hj k _ h => hearlier j hj h.1
  · exact List.pairwise_of_forall_mem_list fun j _ k hk h => hlater k hk h.2

theorem sublist_of_firstAmong (hall : ∀ k, k ∈ kinds) {n : Nat}
    (h : TokenKind.firstAmong kinds remainderWord = some (.mod, n)) :
    [.mod, .identifier].Sublist kinds := by
  obtain ⟨-, -, earlier, later, rfl, hearlier⟩ := TokenKind.firstAmong_eq_some h
  have hname : TokenKind.identifier ∈ later := by
    rcases List.mem_append.1 (hall .identifier) with hmem | hmem
    · exact absurd (hearlier _ hmem) (by decide)
    · simpa using hmem
  exact (List.cons_sublist_cons.2 (List.singleton_sublist.2 hname)).trans
    (List.sublist_append_right ..)

/-- The first token is of the kind that is found first, unless a blank comes before it. -/
theorem firstAmong_of_tokensWith {offset : Nat} {c : Char} {cs : List Char} {t : Token}
    {ts : List Token} {stop : Option SyntaxError} (hc : Text.isBlank c = false)
    (h : tokensWith kinds offset (c :: cs) = (t :: ts, stop)) :
    ∃ n, TokenKind.firstAmong kinds (c :: cs) = some (t.kind, n) := by
  have hscan : ∃ rest, scanWith kinds offset (c :: cs) = .ok (t, rest) := by
    unfold tokensWith at h
    split at h
    · cases h
    · rename_i u rest hscan
      split at h <;> cases h <;> exact ⟨rest, hscan⟩
  obtain ⟨rest, hscan⟩ := hscan
  rw [scanWith] at hscan
  split at hscan
  · rename_i kind n hfirst
    cases hscan
    exact ⟨n, hfirst⟩
  · rw [hc] at hscan
    cases hscan

/-- At most one kind matches at a place, except that the keyword of the remainder is also the beginning
of a name. So every order of the kinds that tries the keyword before the names makes the same tokens and
the same error of every text, and these orders are the only ones. -/
theorem token_order_matters_only_for_keyword :
    (∀ (cs : List Char) (j k : TokenKind), j ≠ k → ((0 < j.length cs ∧ 0 < k.length cs) ↔
      remainderWord <+: cs ∧ (j = .mod ∧ k = .identifier ∨ j = .identifier ∧ k = .mod))) ∧
    ∀ kinds : List TokenKind, kinds.Perm TokenKind.all →
      List.TFAE [
        [.mod, .identifier].Sublist kinds,
        ∀ offset text, scanWith kinds offset text = scan offset text,
        ∀ text ts stop, tokensWith kinds 0 text = (ts, stop) ↔ (Lexer.ofChars text).Yields ts stop] := by
  refine ⟨fun cs j k hne => TokenKind.both_match_iff hne, fun kinds hperm => ?_⟩
  have hall : ∀ k, k ∈ kinds := fun k => hperm.mem_iff.2 k.mem_all
  have hnodup : kinds.Nodup := hperm.nodup_iff.2 (by decide)
  tfae_have 1 → 2 := fun horder offset text => by
    refine congrFun (congrFun (scanWith_congr (funext fun cs => Option.ext fun found => ?_)) offset) text
    rw [TokenKind.firstAmong_eq_some_iff hall (pairwise_of_sublist hnodup horder),
      TokenKind.firstAmong_all_iff]
  tfae_have 2 → 3 := fun hscan text ts stop => by
    rw [Lexer.yields_iff, tokens, tokensWith_congr (funext fun k => funext fun cs => hscan k cs)]
  tfae_have 3 → 1 := fun htokens => by
    have hyields : (Lexer.ofChars remainderWord).Yields
        [⟨.mod, remainderWord, 0⟩, ⟨.eof, [], 3⟩] none :=
      .token rfl rfl (.token rfl rfl (.finished rfl))
    obtain ⟨n, hfirst⟩ := firstAmong_of_tokensWith (by decide) ((htokens ..).2 hyields)
    exact sublist_of_firstAmong hall hfirst
  tfae_finish

/-- The kinds may be tried backwards as long as the keyword comes first, and `model` begins with the
keyword as well as with a name. -/
theorem kinds_backwards_behind_keyword :
    (0 < TokenKind.mod.length ['m', 'o', 'd', 'e', 'l'] ∧
      0 < TokenKind.identifier.length ['m', 'o', 'd', 'e', 'l']) ∧
    ((TokenKind.all.erase .mod).reverse.insert .mod).Perm TokenKind.all ∧
    (∀ offset text, scanWith ((TokenKind.all.erase .mod).reverse.insert .mod) offset text =
      scan offset text) ∧
    TokenKind.all.reverse.Perm TokenKind.all ∧
    ¬ ∀ offset text, scanWith TokenKind.all.reverse offset text = scan offset text := by
  have hboth := token_order_matters_only_for_keyword.1 ['m', 'o', 'd', 'e', 'l'] .mod .identifier
  have hforth : ((TokenKind.all.erase .mod).reverse.insert .mod).Perm TokenKind.all := by decide
  have hback : TokenKind.all.reverse.Perm TokenKind.all := List.reverse_perm _
  refine ⟨(hboth (by decide)).2 ⟨by decide, by decide⟩, hforth, ?_, hback, fun hscan => ?_⟩
  · exact ((token_order_matters_only_for_keyword.2 _ hforth).out 0 1).1 (by decide)
  · exact absurd (((token_order_matters_only_for_keyword.2 _ hback).out 0 1).2 hscan) (by decide)

end ComplexCalc
