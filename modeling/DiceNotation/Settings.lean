import DiceNotation.Record

/-! Settings of the grammar, and the numbers that a notation may leave out or must not pass. -/

namespace DiceNotation

/-- The faces of a standard die when none are given. -/
def defaultSides : Nat := 6

/-- The dice that one group of a notation may hold. -/
def maxDice : Nat := 10000

/-- The inner rolls of one explosion when no limit is given. -/
def maxExplosions : Nat := 100000

/-- What every node of a parsed notation is given: the tracer, and the limit of its explosions. -/
structure Settings where
  tracer : Option Tracer := none
  explodeLimit : Nat := maxExplosions
deriving DecidableEq

end DiceNotation
