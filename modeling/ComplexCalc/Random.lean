/-!
# Random source

A source gives a stream of numbers that its seed starts. How a seed starts a stream is up to the
generator of the source, and laws about random functions hold for every generator.
-/
namespace ComplexCalc

/-- A generator, the seed of its stream, and how many numbers have been drawn. -/
structure RandomSource where
  /-- The streams of natural numbers that seeds start. -/
  generator : Nat → Nat → Nat
  seed : Nat
  drawn : Nat

namespace RandomSource

/-- A source that counts from its seed. -/
instance : Inhabited RandomSource := ⟨⟨fun seed n => seed + n, 0, 0⟩⟩

/-- The numbers of the source, those that have been drawn among them. -/
def stream (r : RandomSource) : Nat → Nat := r.generator r.seed

/-- A source of the same generator that starts with another seed. -/
def reseed (r : RandomSource) (seed : Nat) : RandomSource := { r with seed := seed, drawn := 0 }

/-- The next number of the stream. -/
def next (r : RandomSource) : Nat × RandomSource :=
  (r.stream r.drawn, { r with drawn := r.drawn + 1 })

/-- An integer at least `low` and below `high`. -/
def integer (r : RandomSource) (low high : Int) : Int × RandomSource :=
  let (n, r) := r.next
  (low + n % (high - low), r)

/-- A real number at least zero and below one, a multiple of `2 ^ -53`. -/
def real (r : RandomSource) : Float × RandomSource :=
  let (n, r) := r.next
  (Float.ofNat (n % 9007199254740992) / 9007199254740992.0, r)

end RandomSource
end ComplexCalc
