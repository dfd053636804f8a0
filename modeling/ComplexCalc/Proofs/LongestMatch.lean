import ComplexCalc.Token
import Mathlib.Computability.Language
import Mathlib.Data.List.TakeWhile
/-!
# Longest matches

A matcher tells the length of the longest prefix of a text that is a word of a language, and zero where
there is none. Matchers of one language after the other, none of which ever goes back, give a matcher of
the product of the languages, as long as no word of the first language can be continued in it by a
character with which a word of the second one begins.
-/
namespace ComplexCalc.Match

open Computability

/-- The number is the length of the longest prefix of the text in the language, or zero and there is no
such prefix. -/
def IsLongest (A : Language Char) (cs : List Char) (n : Nat) : Prop :=
  (∃ w ∈ A, w <+: cs ∧ w.length = n ∧ ∀ v ∈ A, v <+: cs → v.length ≤ n) ∨
    n = 0 ∧ ∀ w ∈ A, ¬ w <+: cs

/-- The function tells the length of the longest prefix in the language. -/
def Matches (A : Language Char) (part : List Char → Nat) : Prop := ∀ cs, IsLongest A cs (part cs)

variable {A B : Language Char} {a b : List Char → Nat} {cs : List Char} {n : Nat}

theorem IsLongest.length_le (h : IsLongest A cs n) {w : List Char} (hw : w ∈ A)
    (hstart : w <+: cs) : w.length ≤ n := by
  rcases h with ⟨-, -, -, -, hle⟩ | ⟨-, hnone⟩
  · exact hle w hw hstart
  · exact absurd hstart (hnone w hw)

/-- A longest prefix of some length. -/
theorem IsLongest.exists_word (h : IsLongest A cs n) (hn : 0 < n) :
    ∃ w rest, w ∈ A ∧ cs = w ++ rest ∧ w.length = n := by
  rcases h with ⟨w, hw, ⟨rest, rfl⟩, hlength, -⟩ | ⟨hzero, -⟩
  · exact ⟨w, rest, hw, rfl, hlength⟩
  · exact absurd hzero (Nat.ne_of_gt hn)

/-- The words of the language are the texts that match to their ends. -/
theorem Matches.mem_iff (h : Matches A a) {w : List Char} (hw : w ≠ []) : w ∈ A ↔ a w = w.length := by
  constructor
  · intro hA
    refine Nat.le_antisymm ?_ ((h w).length_le hA List.prefix_rfl)
    rcases h w with ⟨v, -, hstart, hlength, -⟩ | ⟨hzero, -⟩
    · exact hlength ▸ hstart.length_le
    · rw [hzero]
      exact Nat.zero_le _
  · intro hlength
    obtain ⟨v, rest, hv, hparts, hv'⟩ := (h w).exists_word (hlength ▸ List.length_pos_iff.2 hw)
    have hstart : v <+: w := ⟨rest, hparts.symm⟩
    exact hstart.eq_of_length (hv'.trans hlength) ▸ hv

/-! ## Characters -/

/-- The words of one character. -/
def oneOf (letters : List Char) : Language Char := {w | ∃ c ∈ letters, w = [c]}

theorem mem_oneOf {letters w : List Char} : w ∈ oneOf letters ↔ ∃ c ∈ letters, w = [c] := Iff.rfl

theorem mem_kstar_oneOf {letters w : List Char} : w ∈ (oneOf letters)∗ ↔ ∀ c ∈ w, c ∈ letters := by
  rw [Language.mem_kstar]
  constructor
  · rintro ⟨parts, rfl, hparts⟩ c hc
    obtain ⟨part, hpart, hc⟩ := List.mem_flatten.1 hc
    obtain ⟨d, hd, rfl⟩ := hparts part hpart
    exact List.mem_singleton.1 hc ▸ hd
  · intro h
    refine ⟨w.map fun c => [c], by simp [← List.flatMap_def], fun part hpart => ?_⟩
    obtain ⟨c, hc, rfl⟩ := List.mem_map.1 hpart
    exact ⟨c, h c hc, rfl⟩

/-- One of the characters, whatever follows it. -/
def headIn (letters : List Char) : List Char → Nat
  | c :: _ => if c ∈ letters then 1 else 0
  | [] => 0

theorem matches_headIn (letters : List Char) : Matches (oneOf letters) (headIn letters) := by
  intro cs
  cases cs with
  | nil =>
    refine .inr ⟨rfl, fun w hw hstart => ?_⟩
    obtain ⟨c, -, rfl⟩ := hw
    exact absurd (List.prefix_nil.1 hstart) (List.cons_ne_nil c [])
  | cons c cs =>
    rw [headIn]
    split
    · rename_i hc
      refine .inl ⟨[c], ⟨c, hc, rfl⟩, by simp, rfl, fun v hv _ => ?_⟩
      obtain ⟨d, -, rfl⟩ := hv
      exact Nat.le_refl 1
    · rename_i hc
      refine .inr ⟨rfl, fun w hw hstart => ?_⟩
      obtain ⟨d, hd, rfl⟩ := hw
      exact hc ((List.cons_prefix_cons.1 hstart).1 ▸ hd)

theorem matches_word (w : List Char) : Matches {w} (word w) := by
  intro cs
  unfold word
  split
  · rename_i hstart
    refine .inl ⟨w, rfl, List.isPrefixOf_iff_prefix.1 hstart, rfl, fun v hv _ => ?_⟩
    obtain rfl : v = w := hv
    exact Nat.le_refl _
  · rename_i hstart
    refine .inr ⟨rfl, fun v hv hvstart => ?_⟩
    obtain rfl : v = w := hv
    exact hstart (List.isPrefixOf_iff_prefix.2 hvstart)

theorem matches_kstar {letters : List Char} {p : Char → Bool} (h : ∀ c, p c = true ↔ c ∈ letters) :
    Matches (oneOf letters)∗ fun cs => (cs.takeWhile p).length := by
  intro cs
  refine .inl ⟨cs.takeWhile p, mem_kstar_oneOf.2 fun c hc => (h c).1 (List.mem_takeWhile_imp hc),
    List.takeWhile_prefix p, rfl, fun v hv hstart => ?_⟩
  obtain ⟨rest, rfl⟩ := hstart
  dsimp only
  rw [List.takeWhile_append_of_pos fun c hc => (h c).2 (mem_kstar_oneOf.1 hv c hc)]
  simp

/-! ## One language after the other -/

/-- No character that continues a word of the first language in that language begins a word of the
second one. -/
def Apart (A B : Language Char) : Prop :=
  ∀ u c x v, u ∈ A → u ++ c :: x ∈ A → c :: v ∉ B

/-- The first language is matched and then the second one, which may match nothing, in what is left. -/
def thenMatch (a b : List Char → Nat) (cs : List Char) : Nat :=
  if a cs = 0 then 0 else a cs + b (cs.drop (a cs))

/-- Matching one language after the other matches their product. -/
theorem Matches.mul (ha : Matches A a) (hb : Matches B b) (hA : [] ∉ A) (hB : [] ∈ B)
    (hapart : Apart A B) : Matches (A * B) (thenMatch a b) := by
  intro cs
  rcases Nat.eq_zero_or_pos (a cs) with hzero | hpos
  · refine .inr ⟨if_pos hzero, fun w hw hstart => ?_⟩
    obtain ⟨u, hu, v, -, rfl⟩ := Language.mem_mul.1 hw
    have hlength := (ha cs).length_le hu ((List.prefix_append u v).trans hstart)
    rw [hzero] at hlength
    exact hA (List.eq_nil_of_length_eq_zero (Nat.eq_zero_of_le_zero hlength) ▸ hu)
  · obtain ⟨w, rest, hw, rfl, hlength⟩ := (ha cs).exists_word hpos
    have hthen : thenMatch a b (w ++ rest) = w.length + b rest := by
      rw [thenMatch, if_neg (Nat.ne_of_gt hpos), ← hlength, List.drop_left]
    obtain ⟨x, hx, hxstart, hxlength⟩ : ∃ x ∈ B, x <+: rest ∧ x.length = b rest := by
      rcases hb rest with ⟨x, hx, hstart, hxlength, -⟩ | ⟨-, hnone⟩
      · exact ⟨x, hx, hstart, hxlength⟩
      · exact absurd List.nil_prefix (hnone [] hB)
    rw [hthen]
    refine .inl ⟨w ++ x, Language.mem_mul.2 ⟨w, hw, x, hx, rfl⟩,
      (List.prefix_append_right_inj w).2 hxstart, by rw [List.length_append, hxlength],
      fun y hy hstart => ?_⟩
    obtain ⟨u, hu, v, hv, rfl⟩ := Language.mem_mul.1 hy
    have huw : u <+: w := List.prefix_of_prefix_length_le ((List.prefix_append u v).trans hstart)
      (List.prefix_append w rest) (hlength ▸ (ha _).length_le hu ((List.prefix_append u v).trans hstart))
    obtain ⟨z, rfl⟩ := huw
    rw [List.append_assoc, List.prefix_append_right_inj] at hstart
    rw [List.length_append]
    cases z with
    | nil =>
      have := (hb rest).length_le hv (by simpa using hstart)
      rw [List.append_nil]
      omega
    | cons c z =>
      -- The second word would begin within the longest first word.
      cases v with
      | nil =>
        rw [List.length_append]
        simp only [List.length_nil]
        omega
      | cons d v =>
        obtain rfl : d = c := (List.cons_prefix_cons.1 hstart).1
        exact absurd hv (hapart u d z v hu hw)

/-- A language that may be left out. -/
theorem Matches.optional (h : Matches A a) : Matches (1 + A) a := by
  intro cs
  rcases h cs with ⟨w, hw, hstart, hlength, hle⟩ | ⟨hzero, hnone⟩
  · refine .inl ⟨w, .inr hw, hstart, hlength, fun v hv hvstart => ?_⟩
    rcases hv with hv | hv
    · rw [(Language.mem_one v).1 hv]
      exact Nat.zero_le _
    · exact hle v hv hvstart
  · refine .inl ⟨[], .inl rfl, List.nil_prefix, hzero.symm, fun v hv hvstart => ?_⟩
    rcases hv with hv | hv
    · rw [(Language.mem_one v).1 hv]
      exact Nat.zero_le _
    · exact absurd hvstart (hnone v hv)

/-- The longer one of two longest prefixes. -/
theorem Matches.add (ha : Matches A a) (hb : Matches B b) :
    Matches (A + B) fun cs => max (a cs) (b cs) := by
  intro cs
  have hle : ∀ v ∈ A + B, v <+: cs → v.length ≤ max (a cs) (b cs) := by
    rintro v (hv | hv) hstart
    · exact Nat.le_trans ((ha cs).length_le hv hstart) (Nat.le_max_left ..)
    · exact Nat.le_trans ((hb cs).length_le hv hstart) (Nat.le_max_right ..)
  dsimp only
  rcases ha cs with ⟨w, hw, hstart, hlength, -⟩ | ⟨hzero, hnone⟩
  · rcases hb cs with ⟨x, hx, hxstart, hxlength, -⟩ | ⟨hzero, -⟩
    · rcases Nat.le_total (a cs) (b cs) with hab | hab
      · exact .inl ⟨x, .inr hx, hxstart, by omega, hle⟩
      · exact .inl ⟨w, .inl hw, hstart, by omega, hle⟩
    · exact .inl ⟨w, .inl hw, hstart, by omega, hle⟩
  · rcases hb cs with ⟨x, hx, hxstart, hxlength, -⟩ | ⟨hzero', hnone'⟩
    · exact .inl ⟨x, .inr hx, hxstart, by omega, hle⟩
    · refine .inr ⟨by omega, ?_⟩
      rintro w (hw | hw)
      · exact hnone w hw
      · exact hnone' w hw

/-! ## Languages apart -/

/-- All characters of all words are among these. -/
def Within (A : Language Char) (letters : List Char) : Prop := ∀ w ∈ A, ∀ c ∈ w, c ∈ letters

/-- The words begin with one of these characters, or they are empty. -/
def Begins (A : Language Char) (letters : List Char) : Prop := ∀ c v, c :: v ∈ A → c ∈ letters

variable {ls ms : List Char}

theorem apart_oneOf : Apart (oneOf ls) B := by
  intro u c x v hu hux
  obtain ⟨d, -, rfl⟩ := hu
  obtain ⟨e, -, he⟩ := hux
  simp at he

theorem apart_word {w : List Char} : Apart {w} B := by
  intro u c x v hu hux
  obtain rfl : u = w := hu
  have hlength : (u ++ c :: x).length = u.length := congrArg List.length hux
  simp at hlength

theorem Within.apart (hA : Within A ls) (hB : Begins B ms) (h : ∀ c ∈ ls, c ∉ ms) : Apart A B :=
  fun _ c x v _ hux hv => h c (hA _ hux c (by simp)) (hB c v hv)

theorem within_oneOf : Within (oneOf ls) ls := by
  rintro w ⟨c, hc, rfl⟩
  simpa using hc

theorem within_kstar : Within (oneOf ls)∗ ls := fun _ hw => mem_kstar_oneOf.1 hw

theorem Within.mul (hA : Within A ls) (hB : Within B ms) : Within (A * B) (ls ++ ms) := by
  intro w hw c hc
  obtain ⟨u, hu, v, hv, rfl⟩ := Language.mem_mul.1 hw
  rcases List.mem_append.1 hc with hc | hc
  · exact List.mem_append_left _ (hA u hu c hc)
  · exact List.mem_append_right _ (hB v hv c hc)

theorem Within.optional (hA : Within A ls) : Within (1 + A) ls := by
  rintro w (hw | hw) c hc
  · rw [(Language.mem_one w).1 hw] at hc
    cases hc
  · exact hA w hw c hc

theorem begins_oneOf : Begins (oneOf ls) ls := by
  rintro c v ⟨d, hd, heq⟩
  cases heq
  exact hd

theorem begins_kstar : Begins (oneOf ls)∗ ls := fun c v h => mem_kstar_oneOf.1 h c (by simp)

theorem Begins.optional (hA : Begins A ls) : Begins (1 + A) ls := by
  rintro c v (hv | hv)
  · cases (Language.mem_one _).1 hv
  · exact hA c v hv

theorem Begins.mul (hA : Begins A ls) (hnil : [] ∉ A) : Begins (A * B) ls := by
  intro c v h
  obtain ⟨u, hu, x, -, heq⟩ := Language.mem_mul.1 h
  cases u with
  | nil => exact absurd hu hnil
  | cons d u =>
    cases heq
    exact hA c u hu

theorem nil_not_mem_oneOf : [] ∉ oneOf ls := by
  rintro ⟨c, -, h⟩
  cases h

theorem nil_not_mem_mul (hA : [] ∉ A) : [] ∉ A * B := by
  intro h
  obtain ⟨u, hu, v, -, heq⟩ := Language.mem_mul.1 h
  exact hA ((List.append_eq_nil_iff.1 heq).1 ▸ hu)

end ComplexCalc.Match
