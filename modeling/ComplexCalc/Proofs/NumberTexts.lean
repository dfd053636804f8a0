import ComplexCalc.Proofs.Printing
import ComplexCalc.Proofs.Reckoning
/-!
# Texts of numbers

A number is written as a real part, as an imaginary part, or as both with a sign between them, and each
part is a numeral or the name `i`, perhaps after a minus sign. Such a text is an expression that is
reckoned to the components that are written, where a zero is positive.
-/
namespace ComplexCalc

variable {p : Float → Prop}

/-! ## Operands -/

/-- The text is empty or begins with a sign. -/
def Signed (rest : List Char) : Prop := ∀ c, rest.head? = some c → c = '+' ∨ c = '-'

/-- The text is a single token, up to a sign that follows it, and as an expression it has the value
`z`. -/
def Operand (p : Float → Prop) (cs : List Char) (z : Number) : Prop :=
  ∃ (t : Token) (e : Expr), t.text = cs ∧ ¬Signed cs ∧
    (∀ rest, Signed rest → TokenKind.firstAmong TokenKind.all (cs ++ rest) = some (t.kind, cs.length)) ∧
    Derives .primary [t] e ∧ Reckons p e z

theorem Signed.ends {rest : List Char} (h : Signed rest) :
    Numeral.Ends rest ∧ Match.imaginaryMark rest = 0 := by
  cases rest with
  | nil => exact ⟨Numeral.ends_nil, rfl⟩
  | cons c rest =>
    refine ⟨fun d hd => ?_, ?_⟩
    · cases hd
      rcases h c rfl with rfl | rfl <;> decide
    · rcases h c rfl with rfl | rfl <;> rfl

theorem not_signed_append {cs : List Char} (h : ¬Signed cs) (rest : List Char) :
    ¬Signed (cs ++ rest) := by
  cases cs with
  | nil => exact absurd (fun c hc => by cases hc) h
  | cons c cs => exact h

theorem Numeral.not_signed (n : Numeral) (rest : List Char) : ¬Signed (n.chars ++ rest) := by
  obtain ⟨c, cs, hcs, hc⟩ := n.exists_digit
  intro h
  rw [hcs] at h
  rcases h c rfl with rfl | rfl <;> cases hc

namespace Operand

theorem numeral (n : Numeral) (hx : p n.decimal.toFloat) (hzero : p 0.0) :
    Operand p n.chars (.ofReal n.decimal.toFloat) := by
  refine ⟨⟨.literal, n.chars, 0⟩, _, rfl, List.append_nil n.chars ▸ n.not_signed [], fun rest hrest => ?_,
    .literal rfl n.read_chars, .num hx hzero⟩
  obtain ⟨hends, hmark⟩ := hrest.ends
  rw [n.firstAmong_append hends, hmark, Nat.add_zero]

theorem imaginary (n : Numeral) (hx : p n.decimal.toFloat) (hzero : p 0.0) :
    Operand p (n.chars ++ ['i']) ⟨0.0, n.decimal.toFloat⟩ := by
  refine ⟨⟨.literal, n.chars ++ ['i'], 0⟩, _, rfl, n.not_signed ['i'], fun rest _ => ?_,
    .literal rfl n.read_imaginary, .num hzero hx⟩
  have hends : Numeral.Ends ('i' :: rest) := fun c hc => by
    cases hc
    decide
  rw [List.append_assoc, List.singleton_append, n.firstAmong_append hends, List.length_append]
  rfl

theorem unit (hzero : p 0.0) (hone : p 1.0) : Operand p ['i'] .i := by
  refine ⟨⟨.identifier, ['i'], 0⟩, _, rfl, by simp [Signed], fun rest hrest => ?_, .name rfl,
    .unit hzero hone⟩
  have hstop : rest.takeWhile Match.isNameChar = [] := by
    cases rest with
    | nil => rfl
    | cons c rest => rcases hrest c rfl with rfl | rfl <;> rfl
  have hname : Match.name ('i' :: rest) = 1 := by
    have hletter : Match.isNameChar 'i' = true := by decide
    simp [Match.name, hletter, hstop]
  have hliteral : Match.literal ('i' :: rest) = 0 := rfl
  simp [TokenKind.firstAmong, TokenKind.all, TokenKind.length, Match.char_of_ne, Match.single_of_ne,
    Match.word_of_ne, hliteral, hname]

end Operand

/-! ## Phrases -/

/-- A sign is a token of its own before anything but another sign. -/
theorem firstAmong_sign {k : TokenKind} {op : BinaryOp} (hk : Level.sum.operator? k = some op)
    {cs : List Char} (h : ¬Signed cs) :
    TokenKind.firstAmong TokenKind.all (k.symbol ++ cs) = some (k, k.symbol.length) := by
  cases cs with
  | nil => exact absurd (fun c hc => by cases hc) h
  | cons c cs =>
    have hplus : c ≠ '+' := fun hc => h fun d hd => by
      cases hd
      exact .inl hc
    have hminus : c ≠ '-' := fun hc => h fun d hd => by
      cases hd
      exact .inr hc
    cases k <;> cases hk <;>
      simp [TokenKind.symbol, TokenKind.firstAmong, TokenKind.all, TokenKind.length, Match.char,
        Match.single, hplus, hminus]

/-- The text is an expression of the layer, up to a sign that follows it, and has the value `z`. -/
def Phrase (p : Float → Prop) (l : Level) (cs : List Char) (z : Number) : Prop :=
  ∃ (ts : List Token) (e : Expr),
    (∀ us rest, Signed rest → Spells us rest → Spells (ts ++ us) (cs ++ rest)) ∧
    Derives l ts e ∧ Reckons p e z

namespace Phrase

variable {cs ds : List Char} {y z : Number}

theorem operand (h : Operand p cs z) : Phrase p .primary cs z := by
  obtain ⟨t, e, rfl, -, ht, hd, hr⟩ := h
  exact ⟨[t], e, fun us rest hrest hus => hus.token (ht rest hrest), hd, hr⟩

theorem loosen {l m : Level} (hl : l.rank ≤ m.rank) (h : Phrase p m cs z) : Phrase p l cs z := by
  obtain ⟨ts, e, hs, hd, hr⟩ := h
  exact ⟨ts, e, hs, hd.loosen hl, hr⟩

/-- A minus sign before an operand. -/
theorem neg (h : Operand p cs z) (hre : p (-z).re) (him : p (-z).im) :
    Phrase p .signed ('-' :: cs) (-z) := by
  obtain ⟨t, e, rfl, hsigned, ht, hd, hr⟩ := h
  refine ⟨[.symbol .minus, t], _, fun us rest hrest hus => ?_,
    .negation rfl (hd.loosen (by decide)), hr.neg hre him⟩
  have hk : Level.sum.operator? .minus = some .sub := rfl
  exact (hus.token (ht rest hrest)).token (firstAmong_sign hk (not_signed_append hsigned rest))

/-- A sign between a sum and an operand. -/
theorem sum {k : TokenKind} {op : BinaryOp} (hk : Level.sum.operator? k = some op)
    (hy : Phrase p .sum cs y) (hz : Operand p ds z) {v : Number}
    (hv : ∀ d e, Reckons p d y → Reckons p e z → Reckons p (.binary op d e) v) :
    Phrase p .sum (cs ++ (k.symbol ++ ds)) v := by
  obtain ⟨ts, d, hs, hd, hy⟩ := hy
  obtain ⟨t, e, rfl, hsigned, ht, he, hz⟩ := hz
  refine ⟨ts ++ [.symbol k, t], _, fun us rest hrest hus => ?_,
    hd.chain hk (he.loosen (by decide)), hv _ _ hy hz⟩
  have hspelled : Spells (.symbol k :: t :: us) (k.symbol ++ (t.text ++ rest)) :=
    (hus.token (ht rest hrest)).token (firstAmong_sign hk (not_signed_append hsigned rest))
  have hsign : Signed (k.symbol ++ (t.text ++ rest)) := by
    cases k <;> cases hk <;> rintro c hc <;> cases hc
    · exact .inl rfl
    · exact .inr rfl
  simpa using hs _ _ hsign hspelled

end Phrase

/-! ## Parts of numbers -/

/-- A number on the imaginary axis. -/
def Number.ofImaginary (y : Float) : Number := ⟨0.0, y⟩

/-- The text is an operand that has the absolute value of `x` on the axis `f`, after a minus sign if `x`
is negative. -/
def Part (p : Float → Prop) (f : Float → Number) (x : Float) (cs : List Char) : Prop :=
  ∃ us, cs = (if Double.isNegative x then ['-'] else []) ++ us ∧ Operand p us (f x.abs)

namespace Part

variable {f : Float → Number} {x y : Float} {cs ds : List Char}

theorem real (h : Double.Written x cs) (hx : p x.abs) (hzero : p 0.0) : Part p .ofReal x cs := by
  obtain ⟨n, hcs, hn⟩ := h
  rw [← hn] at hx
  exact ⟨n.chars, hcs, hn ▸ .numeral n hx hzero⟩

theorem imaginary (h : Double.Written x cs) (hx : p x.abs) (hzero : p 0.0) :
    Part p .ofImaginary x (cs ++ ['i']) := by
  obtain ⟨n, hcs, hn⟩ := h
  rw [← hn] at hx
  exact ⟨n.chars ++ ['i'], by rw [hcs, List.append_assoc], hn ▸ .imaginary n hx hzero⟩

theorem neg_real (x : Float) : -Number.ofReal x = .ofReal (0.0 - x) := by
  have hzero : (0.0 - 0.0 : Float) = 0.0 := rfl
  exact congrArg (Number.mk (0.0 - x)) hzero

theorem neg_imaginary (x : Float) : -Number.ofImaginary x = .ofImaginary (0.0 - x) := by
  have hzero : (0.0 - 0.0 : Float) = 0.0 := rfl
  exact congrArg (Number.mk · (0.0 - x)) hzero

/-- A part alone is read as its number, where a zero is positive. -/
theorem phrase (h : Part p f x cs) (hneg : ∀ a, -f a = f (0.0 - a)) (hre : p (f (Double.plain x)).re)
    (him : p (f (Double.plain x)).im) : Phrase p .sum cs (f (Double.plain x)) := by
  obtain ⟨us, rfl, hus⟩ := h
  cases hx : Double.isNegative x with
  | true =>
    have hvalue : -f x.abs = f (Double.plain x) := by rw [hneg, Double.zero_sub_abs hx]
    rw [← hvalue] at hre him ⊢
    exact (Phrase.neg hus hre him).loosen (by decide)
  | false =>
    rw [Double.abs_of_not_negative hx] at hus
    rw [Double.plain_of_not_negative hx]
    exact (Phrase.operand hus).loosen (by decide)

/-- A real part and an imaginary one, with a plus sign between them unless the imaginary part brings a
sign of its own, are read as the number of both. -/
theorem sum (hx : Part p .ofReal x cs) (hy : Part p .ofImaginary y ds) (hzero : p 0.0)
    (hre : p (Double.plain x)) (him : p (Double.plain y)) :
    Phrase p .sum (cs ++ ((if Double.isNegative y then [] else ['+']) ++ ds))
      ⟨Double.plain x, Double.plain y⟩ := by
  have hreal := hx.phrase neg_real hre hzero
  obtain ⟨us, rfl, hus⟩ := hy
  cases hy : Double.isNegative y with
  | true =>
    have hvalue : Number.ofReal (Double.plain x) - .ofImaginary y.abs =
        ⟨Double.plain x, Double.plain y⟩ :=
      congrArg₂ Number.mk (Double.sub_positive_zero _) (Double.zero_sub_abs hy)
    have hminus : Level.sum.operator? .minus = some .sub := rfl
    refine Phrase.sum hminus hreal hus fun d e hd he => hvalue ▸ hd.sub he ?_ ?_
    · rwa [hvalue]
    · rwa [hvalue]
  | false =>
    rw [Double.abs_of_not_negative hy, ← Double.plain_of_not_negative hy] at hus
    have hvalue : Number.ofReal (Double.plain x) + .ofImaginary (Double.plain y) =
        ⟨Double.plain x, Double.plain y⟩ :=
      congrArg₂ Number.mk (Double.plain_add_zero _) (Double.zero_add_plain _)
    have hplus : Level.sum.operator? .plus = some .add := rfl
    refine Phrase.sum hplus hreal hus fun d e hd he => hvalue ▸ hd.add he ?_ ?_
    · rwa [hvalue]
    · rwa [hvalue]

end Part
end ComplexCalc
