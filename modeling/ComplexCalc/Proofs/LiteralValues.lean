import ComplexCalc.Parser
import ComplexCalc.Proofs.LiteralGrammar
import ComplexCalc.Proofs.NearestValue
import ComplexCalc.Proofs.Numerals
/-!
# What literals mean

A literal of a base is an integer if it has a digit and fits 63 bits, and a decimal literal is a number
unless it has an exponent without digits. The value is that of the digits alone, rounded to the nearest
double: separators never matter. Every other literal is refused as an error at its offset.
-/
namespace ComplexCalc

open Computability Match Double

/-! ## Digits -/

/-- The digits of all bases, each at the place that is its value. -/
def hexDigits : List Char :=
  ['0', '1', '2', '3', '4', '5', '6', '7', '8', '9', 'a', 'b', 'c', 'd', 'e', 'f']

/-- The value of a digit, a small letter or a capital. -/
def placeOf (c : Char) : Nat := hexDigits.idxOf c.toLower

/-- The number that digits write, the first one being the most significant. -/
def number (radix : Nat) (cs : List Char) : Nat := Nat.ofDigits radix (cs.reverse.map placeOf)

theorem number_append (radix : Nat) (cs ds : List Char) :
    number radix (cs ++ ds) = number radix cs * radix ^ ds.length + number radix ds := by
  rw [number, List.reverse_append, List.map_append, Nat.ofDigits_append, List.length_map,
    List.length_reverse, number, number]
  ring

/-- Reading digits from the left, one after the other. -/
theorem foldl_eq_number {value : Char → Nat} (radix : Nat) {cs : List Char}
    (h : ∀ c ∈ cs, value c = placeOf c) :
    cs.foldl (fun n c => radix * n + value c) 0 = number radix cs := by
  induction cs using List.reverseRecOn with
  | nil => rfl
  | append_singleton cs c ih =>
    have hc : number radix [c] = placeOf c := by simp [number]
    rw [List.foldl_append, ih fun d hd => h d (List.mem_append_left _ hd), number_append, hc,
      List.length_singleton, pow_one, List.foldl_cons, List.foldl_nil, h c (by simp), Nat.mul_comm]

theorem digitValue_eq_placeOf {b : Base} {c : Char} (hc : c ∈ b.letters) (hsep : c ≠ '_') :
    Literal.digitValue c = placeOf c :=
  Text.forall_mem_of_all (P := fun c => c ≠ '_' → Literal.digitValue c = placeOf c)
    (by cases b <;> decide) c hc hsep

theorem digitsValue_eq_number {cs : List Char} (h : ∀ c ∈ cs, c ∈ digits) :
    Decimal.digitsValue cs = number 10 cs := by
  have hvalue : ∀ c ∈ digits, c.toNat - '0'.toNat = placeOf c :=
    Text.forall_mem_of_all (by decide)
  exact foldl_eq_number 10 fun c hc => hvalue c (h c hc)

/-! ## Separators -/

section Separators
variable {A B : Language Char} {ls : List Char}

/-- Words stay in the language without their separators. -/
def Closed (A : Language Char) : Prop := ∀ w ∈ A, w.filter (· ≠ '_') ∈ A

theorem closed_oneOf (h : '_' ∉ ls) : Closed (oneOf ls) := by
  rintro w ⟨c, hc, rfl⟩
  have hne : c ≠ '_' := fun heq => h (heq ▸ hc)
  rw [List.filter_singleton, decide_eq_true hne]
  exact ⟨c, hc, rfl⟩

theorem closed_kstar : Closed (oneOf ls)∗ := fun _ hw =>
  mem_kstar_oneOf.2 fun c hc => mem_kstar_oneOf.1 hw c (List.mem_filter.1 hc).1

theorem Closed.mul (hA : Closed A) (hB : Closed B) : Closed (A * B) := by
  intro w hw
  obtain ⟨u, hu, v, hv, rfl⟩ := Language.mem_mul.1 hw
  rw [List.filter_append]
  exact Language.mem_mul.2 ⟨_, hA u hu, _, hB v hv, rfl⟩

theorem Closed.add (hA : Closed A) (hB : Closed B) : Closed (A + B) := by
  rintro w (hw | hw)
  · exact .inl (hA w hw)
  · exact .inr (hB w hw)

theorem closed_one : Closed 1 := by
  intro w hw
  rw [(Language.mem_one w).1 hw]
  exact (Language.mem_one _).2 rfl

theorem closed_runs : Closed runs := (closed_oneOf (by decide)).mul closed_kstar

theorem closed_fractions : Closed fractions :=
  (closed_oneOf (by decide)).mul (closed_one.add closed_runs)

theorem closed_exponents : Closed exponents :=
  ((closed_oneOf (by decide)).mul (closed_one.add (closed_oneOf (by decide)))).mul closed_kstar

theorem closed_decimals : Closed decimals :=
  ((closed_runs.mul (closed_one.add closed_fractions)).mul (closed_one.add closed_exponents)).mul
    (closed_one.add (closed_oneOf (by decide)))

theorem closed_based (b : Base) : Closed b.literals := by
  refine Closed.mul ?_ closed_kstar
  intro w hw
  obtain rfl : w = ['0', b.marker] := hw
  cases b <;> rfl

/-- A literal without its separators is a literal. -/
theorem closed_literals : Closed literals :=
  (((closed_based _).add (closed_based _)).add (closed_based _)).add closed_decimals

end Separators

/-! ## Literals in a base -/

/-- A marker and what comes after it. -/
structure BasedLiteral where
  base : Base
  run : List Char
  mem : run ∈ (oneOf base.letters)∗

namespace BasedLiteral

variable (l : BasedLiteral)

def chars : List Char := '0' :: l.base.marker :: l.run

def digits : List Char := l.run.filter (· ≠ '_')

/-- The integer that the digits write. -/
def value : Nat := number l.base.radix l.digits

/-- There is an integer, and it fits a signed word of 64 bits. -/
def IsNumber : Prop := l.digits ≠ [] ∧ l.value < 2 ^ 63

theorem filter_chars : l.chars.filter (· ≠ '_') = '0' :: l.base.marker :: l.digits := by
  unfold chars digits
  cases l.base <;> rfl

theorem ofInt_natCast (n : Nat) : Number.ofInt n = ⟨ofRat n, 0.0⟩ := by
  have hinteger : Float.ofInt n = Decimal.toFloat ⟨n, 0⟩ := rfl
  have hvalue : Decimal.value ⟨n, 0⟩ = n := by rw [Decimal.value, zpow_zero, mul_one]
  rw [Number.ofInt, Number.ofReal, hinteger, Decimal.toFloat_eq_ofRat, hvalue]

theorem read_chars : l.IsNumber ∧ Literal.read l.chars = .ok ⟨ofRat l.value, 0.0⟩ ∨
    ¬l.IsNumber ∧ ∃ cause, Literal.read l.chars = .error cause := by
  have hbase : base? ('0' :: l.base.marker :: l.digits) = some l.base :=
    base?_eq_some_iff.2 ⟨l.digits, rfl⟩
  have hvalue : Literal.digitsValue l.base.radix l.digits = l.value := by
    refine foldl_eq_number _ fun c hc => ?_
    obtain ⟨hmem, hsep⟩ := List.mem_filter.1 hc
    exact digitValue_eq_placeOf (mem_kstar_oneOf.1 l.mem c hmem) (of_decide_eq_true hsep)
  have hread : Literal.read l.chars = Literal.readBased l.base l.digits := by
    simp only [Literal.read, filter_chars, hbase]
    rfl
  simp only [hread, Literal.readBased, hvalue, ofInt_natCast]
  by_cases hdigits : l.digits = []
  · exact .inr ⟨fun h => h.1 hdigits, .noDigits, if_pos hdigits⟩
  rw [if_neg hdigits]
  rcases Nat.lt_or_ge l.value (2 ^ 63) with hrange | hrange
  · exact .inl ⟨⟨hdigits, hrange⟩, if_neg (Nat.not_le.2 hrange)⟩
  · exact .inr ⟨fun h => Nat.not_lt.2 hrange h.2, .outOfRange, if_pos hrange⟩

end BasedLiteral

/-! ## Decimal literals -/

/-- The parts of a decimal literal, the last three of which may be empty. -/
structure DecimalLiteral where
  whole : List Char
  fraction : List Char
  exponent : List Char
  mark : List Char
  whole_mem : whole ∈ runs
  fraction_mem : fraction ∈ 1 + fractions
  exponent_mem : exponent ∈ 1 + exponents
  mark_mem : mark ∈ 1 + oneOf ['i']

namespace DecimalLiteral

/-- The digits among the characters of a part. -/
def digitsOf (cs : List Char) : List Char := cs.filter Char.isDigit

theorem isDigit_of_mem_digitsOf {cs : List Char} (c : Char) (h : c ∈ digitsOf cs) : c.isDigit = true :=
  (List.mem_filter.1 h).2

variable (l : DecimalLiteral)

def chars : List Char := l.whole ++ l.fraction ++ l.exponent ++ l.mark

/-- The power of ten that the exponent writes. -/
def scale : ℤ :=
  if '-' ∈ l.exponent then -number 10 (digitsOf l.exponent) else number 10 (digitsOf l.exponent)

/-- The exact value, without the mark. -/
def value : ℚ :=
  (number 10 (digitsOf l.whole) +
    number 10 (digitsOf l.fraction) / 10 ^ (digitsOf l.fraction).length) * 10 ^ l.scale

/-- An exponent has a digit. -/
def IsNumber : Prop := l.exponent = [] ∨ digitsOf l.exponent ≠ []

/-! ### Its parts without separators -/

theorem filter_of_run {cs : List Char} (h : ∀ c ∈ cs, c ∈ runLetters) :
    cs.filter (· ≠ '_') = digitsOf cs := by
  have hclass : ∀ c ∈ runLetters, decide (c ≠ '_') = c.isDigit :=
    Text.forall_mem_of_all (by decide)
  exact List.filter_congr fun c hc => hclass c (h c hc)

theorem filter_runs {w : List Char} (h : w ∈ runs) :
    w.filter (· ≠ '_') = digitsOf w ∧ digitsOf w ≠ [] := by
  constructor
  · refine filter_of_run fun c hc => ?_
    have hletters : ∀ c ∈ Match.digits ++ runLetters, c ∈ runLetters :=
      Text.forall_mem_of_all (by decide)
    exact hletters c (within_runs w h c hc)
  · obtain ⟨d, hd, cs, -, rfl⟩ := Language.mem_mul.1 h
    obtain ⟨c, hc, rfl⟩ := mem_oneOf.1 hd
    exact List.ne_nil_of_mem (List.mem_filter.2 ⟨List.mem_cons_self .., isDigit_iff.2 hc⟩)

theorem filter_fraction : l.fraction.filter (· ≠ '_') = '.' :: digitsOf l.fraction ∨
    l.fraction.filter (· ≠ '_') = [] ∧ digitsOf l.fraction = [] := by
  rcases l.fraction_mem with h | h
  · rw [(Language.mem_one _).1 h]
    exact .inr ⟨rfl, rfl⟩
  · obtain ⟨d, ⟨c, hc, rfl⟩, cs, hcs, heq⟩ := Language.mem_mul.1 h
    obtain rfl := List.mem_singleton.1 hc
    rw [← heq]
    have hrun : cs.filter (· ≠ '_') = digitsOf cs := by
      rcases hcs with hcs | hcs
      · rw [(Language.mem_one cs).1 hcs]
        rfl
      · exact (filter_runs hcs).1
    exact .inl (congrArg ('.' :: ·) hrun)

theorem exponentDigits?_digitsOf (cs : List Char) : Decimal.exponentDigits? (digitsOf cs) =
    if digitsOf cs = [] then none else some (number 10 (digitsOf cs)) := by
  have hall : (digitsOf cs).all Char.isDigit = true := List.all_eq_true.2 isDigit_of_mem_digitsOf
  have hvalue : Decimal.digitsValue (digitsOf cs) = number 10 (digitsOf cs) :=
    digitsValue_eq_number fun c hc => isDigit_iff.1 (isDigit_of_mem_digitsOf c hc)
  by_cases h : digitsOf cs = []
  · rw [if_pos h, Decimal.exponentDigits?, if_neg fun h' => h'.1 h]
  · rw [if_neg h, Decimal.exponentDigits?, if_pos ⟨h, hall⟩, hvalue]

/-- The exponent that a run with its sign writes. -/
theorem exponent?_append {sign : List Char} (hsign : sign ∈ 1 + oneOf ['+', '-']) (cs : List Char) :
    Decimal.exponent? (sign ++ digitsOf cs) = if digitsOf cs = [] then none
      else some (if '-' ∈ sign then -(number 10 (digitsOf cs) : ℤ) else number 10 (digitsOf cs)) := by
  have hdigits := exponentDigits?_digitsOf cs
  have hhead : ∀ c ds, digitsOf cs = c :: ds → c.isDigit = true := fun c ds h =>
    isDigit_of_mem_digitsOf c (h ▸ List.mem_cons_self ..)
  rcases hsign with h | ⟨c, hc, rfl⟩
  · rw [(Language.mem_one _).1 h, List.nil_append]
    have hother : Decimal.exponent? (digitsOf cs) =
        (Decimal.exponentDigits? (digitsOf cs)).map Int.ofNat := by
      unfold Decimal.exponent?
      split
      · cases hhead _ _ ‹_›
      · cases hhead _ _ ‹_›
      · rfl
    rw [hother, hdigits]
    split <;> simp
  · rw [List.singleton_append]
    simp only [List.mem_cons, List.not_mem_nil, or_false] at hc
    rcases hc with rfl | rfl <;> rw [Decimal.exponent?, hdigits] <;> split <;> simp

/-- The parts of an exponent: its mark, perhaps a sign, and a run. -/
theorem exponent_cases : l.exponent = [] ∨ l.exponent ≠ [] ∧ ∃ c sign cs, (c = 'e' ∨ c = 'E') ∧
    sign ∈ 1 + oneOf ['+', '-'] ∧ l.exponent.filter (· ≠ '_') = c :: (sign ++ digitsOf cs) ∧
      digitsOf l.exponent = digitsOf cs ∧ ('-' ∈ l.exponent ↔ '-' ∈ sign) := by
  rcases l.exponent_mem with h | h
  · exact .inl ((Language.mem_one _).1 h)
  obtain ⟨head, hhead, cs, hcs, heq⟩ := Language.mem_mul.1 h
  obtain ⟨mark, ⟨c, hc, rfl⟩, sign, hsign, rfl⟩ := Language.mem_mul.1 hhead
  have hrun : ∀ d ∈ cs, d ∈ runLetters := mem_kstar_oneOf.1 hcs
  have hmark : c ≠ '-' ∧ (c = 'e' ∨ c = 'E') :=
    Text.forall_mem_of_all (P := fun c => c ≠ '-' ∧ (c = 'e' ∨ c = 'E')) (by decide) c hc
  have hhead : ∀ d ∈ [c] ++ sign, d ≠ '_' ∧ d.isDigit = false := fun d hd =>
    Text.forall_mem_of_all (P := fun d => d ≠ '_' ∧ d.isDigit = false) (by decide) d
      (within_oneOf.mul within_oneOf.optional _ hhead d hd)
  rw [← heq]
  refine .inr ⟨List.cons_ne_nil _ _, c, sign, cs, hmark.2, hsign, ?_, ?_, ?_⟩
  · rw [List.filter_append, filter_of_run hrun,
      List.filter_eq_self.2 fun d hd => decide_eq_true (hhead d hd).1]
    rfl
  · rw [digitsOf, List.filter_append, List.filter_eq_nil_iff.2 fun d hd => by simp [(hhead d hd).2]]
    rfl
  · have hcs : '-' ∉ cs := fun h => absurd (hrun _ h) (by decide)
    simp [hcs, hmark.1.symm]

theorem exponentPart?_filter :
    l.IsNumber ∧ Decimal.exponentPart? (l.exponent.filter (· ≠ '_')) = some l.scale ∨
      ¬l.IsNumber ∧ Decimal.exponentPart? (l.exponent.filter (· ≠ '_')) = none := by
  rcases l.exponent_cases with hnil | ⟨hne, c, sign, cs, hmark, hsign, hfilter, hdigits, hminus⟩
  · have hscale : l.scale = 0 := by
      rw [scale, hnil]
      rfl
    rw [hscale, hnil]
    exact .inl ⟨.inl hnil, rfl⟩
  · rw [hfilter, Decimal.exponentPart?, if_pos hmark, exponent?_append hsign]
    by_cases hnil : digitsOf cs = []
    · exact .inr ⟨fun h => h.elim hne fun h => h (hdigits.trans hnil), if_pos hnil⟩
    · refine .inl ⟨.inr (hdigits ▸ hnil), ?_⟩
      simp only [scale, hdigits, hminus, if_neg hnil]

/-! ### Reading -/

/-- The literal without its separators and without its mark. -/
def body : List Char := (l.whole ++ l.fraction ++ l.exponent).filter (· ≠ '_')

/-- The decimal that the digits write. -/
def decimal : Decimal :=
  ⟨Decimal.digitsValue (digitsOf l.whole ++ digitsOf l.fraction),
    l.scale - (digitsOf l.fraction).length⟩

theorem value_decimal : l.decimal.value = l.value := by
  have hdigits : ∀ c ∈ digitsOf l.whole ++ digitsOf l.fraction, c ∈ Match.digits := fun c hc =>
    isDigit_iff.1 ((List.mem_append.1 hc).elim (isDigit_of_mem_digitsOf c) (isDigit_of_mem_digitsOf c))
  have hpow : (10 : ℚ) ^ (digitsOf l.fraction).length ≠ 0 := by positivity
  rw [Decimal.value, value, decimal, digitsValue_eq_number hdigits, number_append,
    zpow_sub₀ (by norm_num), zpow_natCast]
  push_cast
  field_simp

theorem ofChars?_body : l.IsNumber ∧ Decimal.ofChars? l.body = some l.decimal ∨
    ¬l.IsNumber ∧ Decimal.ofChars? l.body = none := by
  have hrest : ∀ c, (l.exponent.filter (· ≠ '_')).head? = some c → c.isDigit = false ∧ c ≠ '.' := by
    intro c hc
    rcases l.exponent_cases with hnil | ⟨-, d, sign, cs, hmark, -, hfilter, -, -⟩
    · rw [hnil] at hc
      cases hc
    · rw [hfilter] at hc
      cases hc
      rcases hmark with rfl | rfl <;> decide
  have hread := Numeral.ofChars?_append (filter_runs l.whole_mem).2 isDigit_of_mem_digitsOf
    isDigit_of_mem_digitsOf l.filter_fraction hrest
  rw [← (filter_runs l.whole_mem).1, ← List.filter_append, ← List.filter_append,
    ← List.append_assoc] at hread
  rw [body, hread]
  rcases l.exponentPart?_filter with ⟨h, hexponent⟩ | ⟨h, hexponent⟩ <;> rw [hexponent]
  · exact .inl ⟨h, by rw [(filter_runs l.whole_mem).1]; rfl⟩
  · exact .inr ⟨h, rfl⟩

/-- The parts before the mark have neither this mark nor that of a base. -/
theorem not_mem_body {c : Char} (hc : c ∈ ['i', 'b', 'o', 'x']) : c ∉ l.body := by
  intro hmem
  have hletters := ((within_runs.mul within_fractions.optional).mul within_exponents.optional) _
    (Language.mem_mul.2 ⟨_, Language.mem_mul.2 ⟨_, l.whole_mem, _, l.fraction_mem, rfl⟩, _,
      l.exponent_mem, rfl⟩) c (List.mem_filter.1 hmem).1
  exact absurd hletters (Text.forall_mem_of_all (P := fun c => c ∉ _) (by decide) c hc)

theorem mark_cases : l.mark = [] ∨ l.mark = ['i'] := by
  rcases l.mark_mem with h | ⟨c, hc, h⟩
  · exact .inl ((Language.mem_one _).1 h)
  · exact .inr (h.trans (congrArg ([·]) (List.mem_singleton.1 hc)))

theorem filter_chars : l.chars.filter (· ≠ '_') = l.body ++ l.mark := by
  rw [chars, List.filter_append, body]
  rcases l.mark_cases with h | h <;> rw [h] <;> rfl

theorem read_eq_readDecimal : Literal.read l.chars = Literal.readDecimal (l.body ++ l.mark) := by
  have hbase : base? (l.body ++ l.mark) = none := by
    rw [Option.eq_none_iff_forall_not_mem]
    intro b hb
    have hstart := base?_eq_some_iff.1 hb
    have hmem : b.marker ∈ l.body ++ l.mark := hstart.subset (by simp)
    rcases List.mem_append.1 hmem with hmem | hmem
    · exact l.not_mem_body (by cases b <;> decide) hmem
    · rcases l.mark_cases with h | h <;> rw [h] at hmem
      · cases hmem
      · cases b <;> exact absurd hmem (by decide)
  simp only [Literal.read, filter_chars, hbase]

/-- The literal with this value, on the axis that the mark tells. -/
def onAxis (x : Float) : Number := if l.mark = [] then ⟨x, 0.0⟩ else ⟨0.0, x⟩

theorem readDecimal_eq : Literal.readDecimal (l.body ++ l.mark) =
    (Decimal.ofChars? l.body).elim (.error (.notDecimal l.body)) fun d => .ok (l.onAxis d.toFloat) := by
  have hlast : l.body.getLast? ≠ some 'i' := fun h =>
    l.not_mem_body (by simp) (List.mem_of_getLast? h)
  unfold onAxis
  rcases l.mark_cases with h | h <;> rw [h] <;> cases hbody : Decimal.ofChars? l.body
  · simp only [List.append_nil, Literal.readDecimal, hlast, if_false, hbody, Option.elim_none]
  · simp only [List.append_nil, Literal.readDecimal, hlast, if_false, hbody, Option.elim_some,
      if_true, Number.ofReal]
  · simp only [Literal.readDecimal, List.getLast?_concat, List.dropLast_concat, if_true, hbody,
      Option.elim_none]
  · simp only [Literal.readDecimal, List.getLast?_concat, List.dropLast_concat, if_true, hbody,
      Option.elim_some, List.cons_ne_nil, if_false]

theorem read_chars : l.IsNumber ∧ Literal.read l.chars = .ok (l.onAxis (ofRat l.value)) ∨
    ¬l.IsNumber ∧ ∃ cause, Literal.read l.chars = .error cause := by
  rw [read_eq_readDecimal, readDecimal_eq]
  rcases l.ofChars?_body with ⟨h, hbody⟩ | ⟨h, hbody⟩ <;> rw [hbody]
  · refine .inl ⟨h, ?_⟩
    rw [Option.elim_some, Decimal.toFloat_eq_ofRat, value_decimal]
  · exact .inr ⟨h, _, rfl⟩

end DecimalLiteral

/-! ## Meanings -/

/-- The literal is a number. -/
def IsNumeral (w : List Char) : Prop :=
  (∃ l : BasedLiteral, w = l.chars ∧ l.IsNumber) ∨ ∃ l : DecimalLiteral, w = l.chars ∧ l.IsNumber

/-- The literal is this number. -/
inductive Means : List Char → Number → Prop
  | integer (l : BasedLiteral) {x : Float} (h : l.IsNumber) (hx : RoundsTo l.value x) :
      Means l.chars ⟨x, 0.0⟩
  | decimal (l : DecimalLiteral) {x : Float} (h : l.IsNumber) (hx : RoundsTo l.value x) :
      Means l.chars (l.onAxis x)

section Meanings
variable {w : List Char} {z : Number}

theorem exists_literal (hw : w ∈ literals) :
    (∃ l : BasedLiteral, w = l.chars) ∨ ∃ l : DecimalLiteral, w = l.chars := by
  have hbased : ∀ b : Base, w ∈ b.literals → ∃ l : BasedLiteral, w = l.chars := by
    intro b hb
    obtain ⟨u, hu, run, hrun, rfl⟩ := Language.mem_mul.1 hb
    obtain rfl : u = ['0', b.marker] := hu
    exact ⟨⟨b, run, hrun⟩, rfl⟩
  rcases hw with ((h | h) | h) | h
  · exact .inl (hbased _ h)
  · exact .inl (hbased _ h)
  · exact .inl (hbased _ h)
  · obtain ⟨_, hnumber, mark, hmark, rfl⟩ := Language.mem_mul.1 h
    obtain ⟨_, hmantissa, exponent, hexponent, rfl⟩ := Language.mem_mul.1 hnumber
    obtain ⟨whole, hwhole, fraction, hfraction, rfl⟩ := Language.mem_mul.1 hmantissa
    exact .inr ⟨⟨whole, fraction, exponent, mark, hwhole, hfraction, hexponent, hmark⟩, rfl⟩

theorem DecimalLiteral.value_nonneg (l : DecimalLiteral) : 0 ≤ l.value := by
  unfold DecimalLiteral.value
  positivity

theorem Means.read (h : Means w z) : Literal.read w = .ok z := by
  cases h with
  | integer l h hx =>
    rw [(roundsTo_iff (Nat.cast_nonneg _)).1 hx]
    exact (l.read_chars.resolve_right fun h' => h'.1 h).2
  | decimal l h hx =>
    rw [(roundsTo_iff l.value_nonneg).1 hx]
    exact (l.read_chars.resolve_right fun h' => h'.1 h).2

theorem IsNumeral.exists_means (h : IsNumeral w) : ∃ z, Means w z := by
  rcases h with ⟨l, rfl, h⟩ | ⟨l, rfl, h⟩
  · exact ⟨_, .integer l h (roundsTo_ofRat (Nat.cast_nonneg _))⟩
  · exact ⟨_, .decimal l h (roundsTo_ofRat l.value_nonneg)⟩

theorem Means.isNumeral (h : Means w z) : IsNumeral w := by
  cases h with
  | integer l h _ => exact .inl ⟨l, rfl, h⟩
  | decimal l h _ => exact .inr ⟨l, rfl, h⟩

/-- A literal is refused unless it is a number. -/
theorem isNumeral_or_error (hw : w ∈ literals) : IsNumeral w ∨ ∃ cause, Literal.read w = .error cause := by
  rcases exists_literal hw with ⟨l, rfl⟩ | ⟨l, rfl⟩
  · exact l.read_chars.imp (fun h => .inl ⟨l, rfl, h.1⟩) fun h => h.2
  · exact l.read_chars.imp (fun h => .inr ⟨l, rfl, h.1⟩) fun h => h.2

theorem means_iff (hw : w ∈ literals) : Means w z ↔ Literal.read w = .ok z := by
  refine ⟨Means.read, fun h => ?_⟩
  rcases isNumeral_or_error hw with hnumeral | ⟨cause, herror⟩
  · obtain ⟨z', hz'⟩ := hnumeral.exists_means
    obtain rfl : z' = z := Except.ok.inj (hz'.read.symm.trans h)
    exact hz'
  · cases herror.symm.trans h

theorem isNumeral_iff : IsNumeral w ↔ ∃ z, Means w z :=
  ⟨IsNumeral.exists_means, fun ⟨_, h⟩ => h.isNumeral⟩

/-- Separators do not count. -/
theorem means_filter (hw : w ∈ literals) : Means (w.filter (· ≠ '_')) z ↔ Means w z := by
  have hread : Literal.read (w.filter (· ≠ '_')) = Literal.read w := by
    simp only [Literal.read, List.filter_filter, Bool.and_self]
  rw [means_iff hw, means_iff (closed_literals w hw), hread]

end Meanings

theorem operand_literal (nested : Parser.Nested Parser) (w : List Char) (offset : Nat) (p : Parser) :
    Parser.operand nested ⟨.literal, w, offset⟩ p =
      match Literal.read w with
      | .ok z => (.ok (.num z), p)
      | .error cause => (.error (.literal w cause offset), p) := by
  simp only [Parser.operand]
  cases Literal.read w <;> rfl

/-- The literal that a text begins with is read as a number or refused with an error at its offset. It is
read if it is a numeral, and as the number that it means, whatever separators it has. -/
theorem literal_is_read_as_meant (nested : Parser.Nested Parser) {text w : List Char} (offset : Nat)
    (p : Parser) (htext : 0 < Match.literal text) (hw : w = text.take (Match.literal text)) :
    (IsNumeral w ∧ (∃ z, Parser.operand nested ⟨.literal, w, offset⟩ p = (.ok (.num z), p)) ∨
        ¬IsNumeral w ∧ ∃ cause,
          Parser.operand nested ⟨.literal, w, offset⟩ p = (.error (.literal w cause offset), p)) ∧
      (∀ z, Parser.operand nested ⟨.literal, w, offset⟩ p = (.ok (.num z), p) ↔ Means w z) ∧
        (IsNumeral (w.filter (· ≠ '_')) ↔ IsNumeral w) ∧
          ∀ z, Means (w.filter (· ≠ '_')) z ↔ Means w z := by
  have hmem : w ∈ literals := by
    obtain ⟨v, rest, hv, rfl, hlength⟩ := (matches_literal text).exists_word htext
    rwa [hw, ← hlength, List.take_left]
  have hmeans : ∀ z, Means (w.filter (· ≠ '_')) z ↔ Means w z := fun z => means_filter hmem
  refine ⟨?_, fun z => ?_, ?_, hmeans⟩
  · rcases isNumeral_or_error hmem with hnumeral | ⟨cause, herror⟩
    · obtain ⟨z, hz⟩ := hnumeral.exists_means
      exact .inl ⟨hnumeral, z, by rw [operand_literal, hz.read]⟩
    · refine .inr ⟨fun hnumeral => ?_, cause, by rw [operand_literal, herror]⟩
      obtain ⟨z, hz⟩ := hnumeral.exists_means
      cases hz.read.symm.trans herror
  · rw [means_iff hmem, operand_literal]
    rcases Literal.read w with cause | z'
    · exact iff_of_false (fun h => by cases h) (fun h => by cases h)
    · constructor <;> intro h <;> cases h <;> rfl
  · simp only [isNumeral_iff, hmeans]

/-- An imaginary literal with a separator in front of its point. -/
theorem separated_literal_is_read :
    0 < Match.literal ['1', '_', '.', '5', 'e', '2', 'i', '+'] ∧
      ['1', '_', '.', '5', 'e', '2', 'i'] = List.take
        (Match.literal ['1', '_', '.', '5', 'e', '2', 'i', '+'])
        ['1', '_', '.', '5', 'e', '2', 'i', '+'] ∧
      Means ['1', '_', '.', '5', 'e', '2', 'i'] ⟨0.0, 150.0⟩ ∧
        Means ['1', '.', '5', 'e', '2', 'i'] ⟨0.0, 150.0⟩ := by
  have htext : 0 < Match.literal ['1', '_', '.', '5', 'e', '2', 'i', '+'] := by decide
  have hread := literal_is_read_as_meant (Parser.expression 0) 4 (Parser.ofChars [] (.fresh false))
    htext rfl
  have hmeans := (hread.2.1 ⟨0.0, 150.0⟩).1 rfl
  exact ⟨htext, rfl, hmeans, (hread.2.2.2 _).2 hmeans⟩

end ComplexCalc
