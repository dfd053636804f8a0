import ComplexCalc.Proofs.Coverage
import ComplexCalc.Proofs.Spelling
/-!
# A parsed beginning stands alone

Parsing gives the first expression of a text and what follows its tokens. What follows begins with the
first token that was not taken, and without it the text is parsed as the same expression, to its end.
-/
namespace ComplexCalc

/-- A text parts before its token `t`, where the rest of it begins: the tokens before are `w`, with or
without that rest. -/
structure PartsAt (text before rest : List Char) (w : List Token) (t : Token) : Prop where
  parts : text = before ++ rest
  offset : t.offset = before.length
  within : w ++ [t] <+: (tokens text).1
  alone : tokens before = (w ++ [.ending before], none)
  /-- The token is the end of the text, or the rest begins as the token does and not with a blank. -/
  first : rest = [] ∧ t = .ending text ∨
    t.kind ≠ .eof ∧ ∃ c, t.text.head? = some c ∧ rest.head? = some c ∧ Text.isBlank c = false

/-- A text parts before each of its tokens. -/
theorem Lexes.partsAt {text : List Char} {w rest : List Token} {t : Token} {z : Reply}
    (h : Lexes 0 text (w ++ rest) z) (ht : Parser.next rest z = .ok t) :
    ∃ before, PartsAt text before (text.drop t.offset) w t := by
  obtain ⟨before, after, rfl, hoffset, hlexes, hafter⟩ := h.cut ht
  rw [Nat.zero_add] at hoffset hlexes
  have hrest : (before ++ after).drop t.offset = after := List.drop_left' hoffset.symm
  have hwithin : w ++ [t] <+: (tokens (before ++ after)).1 := by
    rw [tokens_eq_listing_iff.2 h, listing_fst]
    cases rest with
    | nil =>
      cases ht
      rw [List.append_nil]
      exact List.prefix_rfl
    | cons u rest =>
      cases ht
      exact ⟨rest ++ z.toOption.toList, by simp⟩
  refine ⟨before, by rw [hrest], hoffset, hwithin, tokens_eq_listing_iff.2 hlexes, ?_⟩
  rw [hrest]
  rcases hafter with ⟨rfl, hk⟩ | ⟨later, rfl, hfirst⟩
  · refine .inl ⟨rfl, ?_⟩
    have hkinds := h.kind_ne_eof
    cases rest with
    | nil =>
      cases ht
      rcases h.reply (Nat.zero_le _) with heq | ⟨c, j, heq, -⟩
      · exact Except.ok.inj heq
      · cases heq
    | cons u rest =>
      cases ht
      exact absurd hk (hkinds t (by simp))
  · obtain ⟨c, cs, htext⟩ := List.exists_cons_of_length_pos (TokenKind.pos_of_firstAmong hfirst)
    refine .inr ⟨TokenKind.ne_eof_of_firstAmong hfirst, c, by simp [htext], by simp [htext], ?_⟩
    by_contra hblank
    rw [htext, List.cons_append,
      TokenKind.firstAmong_of_isBlank (by simpa using hblank)] at hfirst
    cases hfirst

/-- What parsing gives together with an expression is the text from the first token on that was not
taken. The text before it has the tokens that were taken, so it is parsed as the same expression and
nothing is left. -/
theorem parsed_prefix_stands_alone {text rest : List Char} {e : Expr} {journal : Journal}
    (h : (Parser.parsePrefix (Parser.ofChars text journal)).1 = .ok (e, rest)) :
    ∃ before w t, PartsAt text before rest w t ∧ Derives .assignment w e ∧
      (Parser.lookAhead 0 (Parser.parse none (Parser.ofChars text journal)).2).1 = .ok t ∧
      ∀ journal', (Parser.parsePrefix (Parser.ofChars before journal')).1 = .ok (e, []) := by
  obtain ⟨ts, z, hl, -⟩ := exists_lexes 0 text
  have hs := Parser.stream_ofChars hl journal
  have hb := Nat.le_of_lt (Parser.length_lt_bound hl journal)
  rcases Parser.parse_cases hl.final hs hb none with
    ⟨w, later, d, t, p', rfl, hd, hx, -, hp', hlv⟩ | ⟨u, later, d, p', rfl, -, -, -, hp'⟩
  · obtain ⟨q, hq⟩ := Parser.parsePrefix_of_parse hp' hlv hx
    rw [hq] at h
    cases h
    obtain ⟨before, hparts⟩ := hl.partsAt hx
    refine ⟨before, w, t, hparts, hd, ?_, fun journal' => ?_⟩
    · obtain ⟨s, hrest⟩ := Parser.exists_stream_eq_cons later z (.const z)
      rw [← Stream'.const_eq, hx] at hrest
      obtain ⟨r, -, hr, -⟩ := Parser.lookAhead_ok (hlv.1.trans hrest)
      rw [hp', hr]
    · obtain ⟨r, hr⟩ := (tokens_eq_listing_iff.1 hparts.alone).parsePrefix_whole hd journal'
      rw [hr]
  · rw [Parser.parsePrefix, Action.bind_error hp'] at h
    cases h

/-- Of `-b! c` all is parsed but the last name. -/
theorem last_name_is_left :
    (Parser.parsePrefix (Parser.ofChars ['-', 'b', '!', ' ', 'c'] (.fresh false))).1 =
      .ok (.unary .neg (.unary .fact (.name "b")), ['c']) ∧
    ∃ before w t, PartsAt ['-', 'b', '!', ' ', 'c'] before ['c'] w t ∧
      Derives .assignment w (.unary .neg (.unary .fact (.name "b"))) ∧
      (Parser.lookAhead 0 (Parser.parse none
        (Parser.ofChars ['-', 'b', '!', ' ', 'c'] (.fresh false))).2).1 = .ok t ∧
      ∀ journal', (Parser.parsePrefix (Parser.ofChars before journal')).1 =
        .ok (.unary .neg (.unary .fact (.name "b")), []) := by
  have hb : Derives .applied [⟨.identifier, ['b'], 1⟩] (.name "b") :=
    (Derives.name rfl).loosen (by decide)
  have hfactorial := hb.factorial (t := ⟨.exclamation, ['!'], 2⟩) rfl
  have hminus := (Derives.tighter (l := .signed) hfactorial).negation (t := ⟨.minus, ['-'], 0⟩) rfl
  have hlexes : Lexes 0 ['-', 'b', '!', ' ', 'c'] ([⟨.minus, ['-'], 0⟩, ⟨.identifier, ['b'], 1⟩,
      ⟨.exclamation, ['!'], 2⟩] ++ [⟨.identifier, ['c'], 4⟩]) (.ok ⟨.eof, [], 5⟩) :=
    .token rfl (by decide) (.token rfl (by decide) (.token rfl (by decide)
      (.token rfl (by decide) (.ending rfl rfl))))
  obtain ⟨p, hp⟩ := hlexes.parsePrefix (hminus.loosen (l := .assignment) (by decide)) rfl rfl
    (.fresh false)
  have hparsed := congrArg Prod.fst hp
  exact ⟨hparsed, parsed_prefix_stands_alone hparsed⟩

end ComplexCalc
