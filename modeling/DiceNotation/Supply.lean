/-! Supplies of draws. A draw is a natural number, and a die takes its remainder; which numbers come is up to
    the supply. The supply of a seed scrambles the draw's number with the seed. -/

namespace DiceNotation

/-- The draws to come, by number. -/
abbrev Supply := Nat → Nat

namespace Supply

/-- Spreads each bit of a word over all of it. -/
def scramble (z : UInt64) : UInt64 :=
  let z := (z ^^^ (z >>> 30)) * 0xBF58476D1CE4E5B9
  let z := (z ^^^ (z >>> 27)) * 0x94D049BB133111EB
  z ^^^ (z >>> 31)

/-- Draws of 64 bits that depend on the seed alone. -/
def ofSeed (seed : UInt64) : Supply := fun k =>
  (scramble (seed + (UInt64.ofNat k + 1) * 0x9E3779B97F4A7C15)).toNat

end Supply
end DiceNotation
