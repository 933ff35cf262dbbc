import DiceNotation.Outcome

/-! Intervals of outcomes, both ends included. -/

namespace DiceNotation

/-- The outcomes from `lo` to `hi`. -/
structure Interval where
  lo : Outcome
  hi : Outcome
deriving DecidableEq, Inhabited

namespace Interval

instance : Membership Outcome Interval := ⟨fun range a => range.lo ≤ a ∧ a ≤ range.hi⟩

instance (a : Outcome) (range : Interval) : Decidable (a ∈ range) :=
  inferInstanceAs (Decidable (range.lo ≤ a ∧ a ≤ range.hi))

/-- The totals of the lower and of the upper ends. -/
def total (ranges : List Interval) : Interval := ⟨.total (ranges.map lo), .total (ranges.map hi)⟩

end Interval
end DiceNotation
