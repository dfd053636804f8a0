import ComplexCalc.Error
import ComplexCalc.Text.Blank
/-!
# Lexer

`scan` finds the next token of a text after any blanks, and `tokens` all of them. A `Lexer` walks
over the same tokens one by one: it may look at the next token before it takes it, it repeats the
end of the text as often as it is asked, and a character that begins no token stops it for good.
-/
namespace ComplexCalc

/-- The next token of a text, and the characters after it. -/
abbrev Scan := Except SyntaxError (Token × List Char)

/-- The next token of a text that stands at an offset, its kind the first of `kinds` that
matches. -/
def scanWith (kinds : List TokenKind) (offset : Nat) : List Char → Scan
  | [] => .ok (⟨.eof, [], offset⟩, [])
  | c :: cs =>
    match TokenKind.firstAmong kinds (c :: cs) with
    | some (kind, n) => .ok (⟨kind, (c :: cs).take n, offset⟩, (c :: cs).drop n)
    | none =>
      if Text.isBlank c then scanWith kinds (offset + 1) cs
      else .error (.unknownCharacter c offset)

/-- The next token of a text that stands at an offset. -/
def scan (offset : Nat) (cs : List Char) : Scan := scanWith TokenKind.all offset cs

theorem TokenKind.pos_of_firstAmong {kinds : List TokenKind} {cs : List Char} {kind : TokenKind}
    {n : Nat} (h : firstAmong kinds cs = some (kind, n)) : 0 < n := by
  obtain ⟨k, -, hk⟩ := List.exists_of_findSome?_eq_some h
  split at hk
  · rename_i hpos
    simp only [Option.some.injEq, Prod.mk.injEq] at hk
    rw [← hk.2]
    exact hpos
  · simp at hk

/-- What follows a token is shorter than the text, unless the token is the end of the text. -/
theorem scanWith_length {kinds : List TokenKind} {offset : Nat} {cs : List Char} {t : Token}
    {rest : List Char} (h : scanWith kinds offset cs = .ok (t, rest)) :
    t.kind = .eof ∨ rest.length < cs.length := by
  induction cs generalizing offset with
  | nil =>
    simp only [scanWith, Except.ok.injEq, Prod.mk.injEq] at h
    exact .inl (by rw [← h.1])
  | cons c cs ih =>
    simp only [scanWith] at h
    split at h
    · rename_i kind n hk
      have := TokenKind.pos_of_firstAmong hk
      simp only [Except.ok.injEq, Prod.mk.injEq] at h
      rw [← h.2, List.length_drop, List.length_cons]
      omega
    · split at h
      · exact (ih h).imp_right fun h => Nat.lt_succ_of_lt h
      · simp at h

/-- The tokens of a text that stands at an offset, the end of the text last, and the error that
stops them short. -/
def tokensWith (kinds : List TokenKind) (offset : Nat) (cs : List Char) :
    List Token × Option SyntaxError :=
  match _scanned : scanWith kinds offset cs with
  | .error e => ([], some e)
  | .ok (t, rest) =>
    if _ends : t.kind = .eof then ([t], none)
    else
      let (ts, stop) := tokensWith kinds (t.offset + t.text.length) rest
      (t :: ts, stop)
termination_by cs.length
decreasing_by exact (scanWith_length _scanned).resolve_left _ends

/-- The tokens of a text, the end of the text last, and the error that stops them short. -/
def tokens (text : List Char) : List Token × Option SyntaxError :=
  tokensWith TokenKind.all 0 text

/-! ## The lexer as a cursor -/

/-- A position in a text, with the token that was looked at but not taken. -/
structure Lexer where
  source : List Char
  rest : List Char
  offset : Nat
  peeked : Option Token
  /-- Whether the end of the text has been taken. -/
  finished : Bool
deriving Repr

namespace Lexer

/-- A lexer at the start of a text. -/
def ofChars (source : List Char) : Lexer := ⟨source, source, 0, none, false⟩

/-- Back to the start. -/
def restart (l : Lexer) : Lexer := ofChars l.source

/-- Whether there is a token to take before the end of the text is taken. -/
def hasNext (l : Lexer) : Bool := !l.finished

/-- Past the blanks before the next token. -/
def skipBlanks (l : Lexer) : Lexer :=
  { l with
    rest := l.rest.dropWhile Text.isBlank
    offset := l.offset + (l.rest.takeWhile Text.isBlank).length }

/-- The next token, which stays in place. A character that begins no token is met behind the
blanks. -/
def peek (l : Lexer) : Except SyntaxError Token × Lexer :=
  match l.peeked with
  | some t => (.ok t, l)
  | none =>
    match scan l.offset l.rest with
    | .ok (t, rest) =>
      (.ok t, { l with rest := rest, offset := t.offset + t.text.length, peeked := some t })
    | .error e => (.error e, l.skipBlanks)

/-- Takes the next token. The end of the text stays in place. -/
def next (l : Lexer) : Except SyntaxError Token × Lexer :=
  match l.peek with
  | (.ok t, l) =>
    if t.kind = .eof then (.ok t, { l with finished := true })
    else (.ok t, { l with peeked := none })
  | (.error e, l) => (.error e, l)

end Lexer
end ComplexCalc
