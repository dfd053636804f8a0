import ComplexCalc.Proofs.RealTexts
import ComplexCalc.Proofs.Spacing
/-!
# Printed expressions parse back

An expression is printed with single spaces between its tokens, and with parentheses around an operand
exactly where the outermost operator of the operand binds too weakly for its place. Each tree whose
numbers and names can be written is the only one that its printed text is parsed as.
-/
namespace ComplexCalc

/-! ## Tokens -/

namespace Token

/-- The token of a kind that is an operator or a bracket. -/
def symbol (k : TokenKind) : Token := ⟨k, k.symbol, 0⟩

/-- The token of a name. -/
def ofName (x : String) : Token := ⟨.identifier, x.toList, 0⟩

theorem isLexeme_symbol {k : TokenKind} (h : k.symbol ≠ []) : (symbol k).IsLexeme := by
  unfold IsLexeme
  cases k <;> first | decide | exact absurd rfl h

end Token

/-! ## Printing -/

/-- The literal of a number on one of the axes. -/
def Number.literal (z : Number) : List Char :=
  if z.im == 0.0 then (Decimal.realText z.re).toList else (Decimal.realText z.im).toList ++ ['i']

namespace BinaryOp

def kind : BinaryOp → TokenKind
  | add => .plus
  | sub => .minus
  | mul => .asterisk
  | div => .slash
  | pow => .exponent
  | mod => .mod

/-- The layer of the expressions that an operator makes. -/
def level : BinaryOp → Level
  | add | sub => .sum
  | mul | div | mod => .product
  | pow => .power

/-- The layer of a left operand. -/
def leftLevel : BinaryOp → Level
  | add | sub => .sum
  | mul | div | mod => .product
  | pow => .signed

/-- The layer of a right operand. -/
def rightLevel : BinaryOp → Level
  | add | sub => .product
  | mul | div | mod => .power
  | pow => .power

end BinaryOp

namespace Expr

/-- The layer of the outermost operator. -/
def level : Expr → Level
  | num _ | name _ | unary .abs _ => .primary
  | assign _ _ => .assignment
  | unary .neg _ => .signed
  | unary .fact _ | call _ _ => .applied
  | binary op _ _ => op.level

/-- The tokens of an expression of the layer `l` in a place for the layer `m`: parentheses are around
them where the expression binds too weakly for its place. -/
def placed (l m : Level) (ts : List Token) : List Token :=
  if l.rank < m.rank then .symbol .leftParen :: ts ++ [.symbol .rightParen] else ts

mutual

/-- The tokens that an expression is printed with. -/
def tokens : Expr → List Token
  | num z => [⟨.literal, z.literal, 0⟩]
  | name x => [.ofName x]
  | assign x e => .ofName x :: .symbol .assign :: e.tokens
  | unary .neg e => .symbol .minus :: placed e.level .signed e.tokens
  | unary .abs e => .symbol .pipe :: e.tokens ++ [.symbol .pipe]
  | unary .fact e => placed e.level .applied e.tokens ++ [.symbol .exclamation]
  | binary op d e =>
    placed d.level op.leftLevel d.tokens ++
      .symbol op.kind :: placed e.level op.rightLevel e.tokens
  | call f [] => [.ofName f, .symbol .leftParen, .symbol .rightParen]
  | call f (e :: es) =>
    .ofName f :: .symbol .leftParen :: (e.tokens ++ furtherTokens es ++ [.symbol .rightParen])

/-- The tokens of further arguments, each after a comma. -/
def furtherTokens : List Expr → List Token
  | [] => []
  | e :: es => .symbol .comma :: e.tokens ++ furtherTokens es

end

/-- The text of an expression: its tokens with single spaces between them. -/
def printed (e : Expr) : List Char := [' '].intercalate (e.tokens.map Token.text)

end Expr

/-! ## What can be printed -/

/-- The name is one token. -/
def IsName (x : String) : Prop := (Token.ofName x).IsLexeme

/-- The number is a finite double without a sign on one of the axes: nothing below zero, and not the
negative zero. -/
def Number.IsLiteral (z : Number) : Prop :=
  ∃ v : Float, (z = ⟨v, 0.0⟩ ∨ z = ⟨0.0, v⟩) ∧ v.isFinite = true ∧ Double.isNegative v = false

/-- The numbers of an expression are those that literals write, and its names are those that are one
token. -/
inductive Expr.Printable : Expr → Prop
  | num {z : Number} : z.IsLiteral → Printable (.num z)
  | name {x : String} : IsName x → Printable (.name x)
  | assign {x : String} {e : Expr} : IsName x → Printable e → Printable (.assign x e)
  | unary (op : UnaryOp) {e : Expr} : Printable e → Printable (.unary op e)
  | binary (op : BinaryOp) {d e : Expr} : Printable d → Printable e → Printable (.binary op d e)
  | call {f : String} {es : List Expr} : IsName f → (∀ e ∈ es, Printable e) → Printable (.call f es)

/-! ## Literals -/

namespace Numeral

/-- A numeral is one token. -/
theorem isLexeme_chars (n : Numeral) : Token.IsLexeme ⟨.literal, n.chars, 0⟩ := by
  have h := n.firstAmong_append ends_nil
  rwa [List.append_nil] at h

/-- A numeral with an imaginary mark is one token. -/
theorem isLexeme_imaginary (n : Numeral) : Token.IsLexeme ⟨.literal, n.chars ++ ['i'], 0⟩ := by
  have h := n.firstAmong_append ends_mark
  rwa [Token.IsLexeme, List.length_append]

end Numeral

/-- A literal is one token, and it is read as its number. -/
theorem Number.IsLiteral.spec {z : Number} (h : z.IsLiteral) :
    Token.IsLexeme ⟨.literal, z.literal, 0⟩ ∧ Literal.read z.literal = .ok z := by
  obtain ⟨v, hz, hfinite, hsign⟩ := h
  obtain ⟨n, hn, hvalue⟩ := Decimal.realText_written hfinite
  rw [Double.abs_of_not_negative hsign] at hvalue
  rw [hsign] at hn
  have hreal : Token.IsLexeme ⟨.literal, n.chars, 0⟩ ∧ Literal.read n.chars = .ok ⟨v, 0.0⟩ :=
    ⟨n.isLexeme_chars, hvalue ▸ n.read_chars⟩
  have himaginary : Token.IsLexeme ⟨.literal, n.chars ++ ['i'], 0⟩ ∧
      Literal.read (n.chars ++ ['i']) = .ok ⟨0.0, v⟩ :=
    ⟨n.isLexeme_imaginary, hvalue ▸ n.read_imaginary⟩
  have hchars : (Decimal.realText v).toList = n.chars := hn
  unfold literal
  rcases hz with rfl | rfl
  · have hzero : ((0.0 : Float) == 0.0) = true := rfl
    rwa [if_pos hzero, hchars]
  · dsimp only
    split
    -- The zero on the imaginary axis is the one on the real axis.
    · rename_i hzero
      have hv : v = 0.0 := by
        rw [← Double.plain_of_not_negative hsign]
        exact Double.plain_of_zero hzero
      subst hv
      rwa [hchars]
    · rwa [hchars]

namespace Expr

/-! ## Parsing -/

/-- An operand is an expression of the layer of its place. -/
theorem derives_placed {e : Expr} {ts : List Token} (h : Derives e.level ts e) (m : Level) :
    Derives m (placed e.level m ts) e := by
  unfold placed
  split
  · exact (Derives.group rfl (h.loosen (Nat.zero_le _)) rfl).loosen m.rank_le_primary
  · rename_i hle
    exact h.loosen (Nat.le_of_not_lt hle)

theorem derives_binary (op : BinaryOp) {v w : List Token} {d e : Expr}
    (hv : Derives op.leftLevel v d) (hw : Derives op.rightLevel w e) :
    Derives op.level (v ++ .symbol op.kind :: w) (.binary op d e) := by
  cases op with
  | pow => exact hv.power rfl hw
  | _ => exact hv.chain rfl hw

theorem further_tokens {es : List Expr} (h : ∀ e ∈ es, Derives e.level e.tokens e) :
    Further (Derives .assignment) (furtherTokens es) es := by
  induction es with
  | nil =>
    exact .nil
  | cons e es ih =>
    exact .cons rfl ((h e (by simp)).loosen (Nat.zero_le _)) (ih fun e he => h e (by simp [he]))

theorem derives_name (x : String) (m : Level) : Derives m [.ofName x] (.name x) := by
  have h := Derives.name (t := .ofName x) rfl
  rw [Token.ofName, String.ofList_toList] at h
  exact h.loosen m.rank_le_primary

/-- The tokens of an expression form it. -/
theorem Printable.derives {e : Expr} (h : e.Printable) : Derives e.level e.tokens e := by
  induction h with
  | num hz =>
    exact .literal rfl hz.spec.2
  | name hx =>
    exact derives_name _ _
  | assign hx _ ih =>
    exact .assign (derives_name _ _) rfl (ih.loosen (Nat.zero_le _))
  | unary op _ ih =>
    cases op with
    | neg =>
      exact .negation rfl (derives_placed ih _)
    | abs =>
      exact .absolute rfl (ih.loosen (Nat.zero_le _)) rfl
    | fact =>
      exact .factorial (derives_placed ih _) rfl
  | binary op _ _ ihd ihe =>
    exact derives_binary op (derives_placed ihd _) (derives_placed ihe _)
  | @call f es hf _ ih =>
    cases es with
    | nil =>
      exact .call (derives_name _ _) rfl rfl
    | cons e es =>
      exact .callWith (derives_name _ _) rfl ((ih e (by simp)).loosen (Nat.zero_le _))
        (further_tokens fun e he => ih e (by simp [he])) rfl

/-! ## Lexing -/

theorem lexemes_placed {l m : Level} {ts : List Token} (h : ∀ t ∈ ts, t.IsLexeme) :
    ∀ t ∈ placed l m ts, t.IsLexeme := by
  unfold placed
  split
  · refine List.forall_mem_append.2 ⟨List.forall_mem_cons.2 ⟨?_, h⟩, List.forall_mem_singleton.2 ?_⟩
    · exact Token.isLexeme_symbol (by decide)
    · exact Token.isLexeme_symbol (by decide)
  · exact h

theorem lexemes_further {es : List Expr} (h : ∀ e ∈ es, ∀ t ∈ e.tokens, t.IsLexeme) :
    ∀ t ∈ furtherTokens es, t.IsLexeme := by
  induction es with
  | nil => exact List.forall_mem_nil _
  | cons e es ih =>
    obtain ⟨he, hes⟩ := List.forall_mem_cons.1 h
    refine List.forall_mem_append.2 ⟨List.forall_mem_cons.2 ⟨?_, he⟩, ih hes⟩
    exact Token.isLexeme_symbol (by decide)

/-- The tokens of an expression are tokens of their own. -/
theorem Printable.lexemes {e : Expr} (h : e.Printable) : ∀ t ∈ e.tokens, t.IsLexeme := by
  have hsymbol : ∀ k : TokenKind, k.symbol ≠ [] → (Token.symbol k).IsLexeme := fun k =>
    Token.isLexeme_symbol
  induction h with
  | num hz =>
    exact List.forall_mem_singleton.2 hz.spec.1
  | name hx =>
    exact List.forall_mem_singleton.2 hx
  | assign hx _ ih =>
    exact List.forall_mem_cons.2 ⟨hx, List.forall_mem_cons.2 ⟨hsymbol _ (by decide), ih⟩⟩
  | unary op _ ih =>
    cases op with
    | neg =>
      exact List.forall_mem_cons.2 ⟨hsymbol _ (by decide), lexemes_placed ih⟩
    | abs =>
      exact List.forall_mem_append.2 ⟨List.forall_mem_cons.2 ⟨hsymbol _ (by decide), ih⟩,
        List.forall_mem_singleton.2 (hsymbol _ (by decide))⟩
    | fact =>
      exact List.forall_mem_append.2 ⟨lexemes_placed ih,
        List.forall_mem_singleton.2 (hsymbol _ (by decide))⟩
  | binary op _ _ ihd ihe =>
    exact List.forall_mem_append.2 ⟨lexemes_placed ihd,
      List.forall_mem_cons.2 ⟨hsymbol _ (by cases op <;> decide), lexemes_placed ihe⟩⟩
  | @call f es hf _ ih =>
    have hopen := hsymbol .leftParen (by decide)
    have hclose := List.forall_mem_singleton.2 (hsymbol .rightParen (by decide))
    cases es with
    | nil =>
      exact List.forall_mem_cons.2 ⟨hf, List.forall_mem_cons.2 ⟨hopen, hclose⟩⟩
    | cons e es =>
      obtain ⟨he, hes⟩ := List.forall_mem_cons.1 ih
      refine List.forall_mem_cons.2 ⟨hf, List.forall_mem_cons.2 ⟨hopen, ?_⟩⟩
      exact List.forall_mem_append.2 ⟨List.forall_mem_append.2 ⟨he, lexemes_further hes⟩, hclose⟩

end Expr

/-- A printed expression is parsed as itself, and nothing is left of its text. -/
theorem parsePrefix_printed {e : Expr} (h : e.Printable) (journal : Journal) :
    (Parser.parsePrefix (Parser.ofChars e.printed journal)).1 = .ok (e, []) := by
  obtain ⟨p, hp⟩ := (Spells.intercalated h.lexemes).parsePrefix (h.derives.loosen (Nat.zero_le _)) journal
  rw [Expr.printed, hp]

/-- Of the operands of a power, a power on the left is in parentheses and one on the right is not. -/
theorem parsePrefix_printed_powers :
    Expr.printed (.binary .pow (.binary .pow (.name "x") (.num ⟨2.0, 0.0⟩))
      (.binary .pow (.unary .neg (.name "y")) (.num ⟨0.0, 0.5⟩))) =
      "( x ** 2.0 ) ** - y ** 0.5i".toList ∧
    (Parser.parsePrefix (Parser.ofChars (Expr.printed
      (.binary .pow (.binary .pow (.name "x") (.num ⟨2.0, 0.0⟩))
        (.binary .pow (.unary .neg (.name "y")) (.num ⟨0.0, 0.5⟩)))) (.fresh false))).1 =
      .ok (.binary .pow (.binary .pow (.name "x") (.num ⟨2.0, 0.0⟩))
        (.binary .pow (.unary .neg (.name "y")) (.num ⟨0.0, 0.5⟩)), []) := by
  have htwo : Number.IsLiteral ⟨2.0, 0.0⟩ := ⟨2.0, .inl rfl, rfl, rfl⟩
  have hhalf : Number.IsLiteral ⟨0.0, 0.5⟩ := ⟨0.5, .inr rfl, rfl, rfl⟩
  have hx : IsName "x" := by
    unfold IsName Token.IsLexeme
    decide
  have hy : IsName "y" := by
    unfold IsName Token.IsLexeme
    decide
  refine ⟨?_, parsePrefix_printed ?_ _⟩
  · decide +kernel
  · exact .binary _ (.binary _ (.name hx) (.num htwo)) (.binary _ (.unary _ (.name hy)) (.num hhalf))

end ComplexCalc
