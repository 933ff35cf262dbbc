import Mathlib.Order.Bounds.Defs
import DiceNotation.Dice.Build
import DiceNotation.Proofs.Operator.Hull

/-! The bounds of arithmetic. Over the values between two bounds, the hull of an accepted operator is as narrow as can
    be: its ends are the least and the greatest of the results, also where an even power turns at zero or the results
    stop at an end of the range. -/

namespace DiceNotation

namespace Operator
variable {op : Operator} {n : Outcome} {range : Interval}

/-- The results over the values of an interval. -/
def image (op : Operator) (n : Outcome) (range : Interval) : Set Outcome := {r | ∃ x ∈ range, r = op.apply x n}

theorem hull_lo_isLeast (accepts : op.Accepts n) (ordered : range.lo ≤ range.hi) :
    IsLeast (op.image n range) (op.hull n range).lo := by
  constructor
  · exact ⟨op.extremeValue n .minimum range, extremeValue_mem ordered _, rfl⟩
  · rintro r ⟨x, inside, rfl⟩
    exact (apply_mem_hull accepts inside).1

theorem hull_hi_isGreatest (accepts : op.Accepts n) (ordered : range.lo ≤ range.hi) :
    IsGreatest (op.image n range) (op.hull n range).hi := by
  constructor
  · exact ⟨op.extremeValue n .maximum range, extremeValue_mem ordered _, rfl⟩
  · rintro r ⟨x, inside, rfl⟩
    exact (apply_mem_hull accepts inside).2

end Operator

namespace Dice
variable {inner d : Dice} {op : Operator} {n : Outcome} {tracer : Option Tracer}

/-- The bounds of built arithmetic are the least and the greatest result of its operator over the values between the
    inner bounds. -/
theorem bounds_of_apply_exact (built : inner.apply op n tracer = .ok d) (ordered : inner.bounds.lo ≤ inner.bounds.hi) :
    IsLeast (op.image n inner.bounds) d.bounds.lo ∧ IsGreatest (op.image n inner.bounds) d.bounds.hi := by
  obtain ⟨accepts, rfl⟩ := apply_eq_ok_iff.mp built
  exact ⟨Operator.hull_lo_isLeast accepts ordered, Operator.hull_hi_isGreatest accepts ordered⟩

/-- A square over values on both sides of zero: its least result is that of zero, and its greatest is past the range. -/
theorem squaredCard_bounds :
    ∃ d, (foreign ⟨"card", [], .least, 7, false⟩).apply .power 2 = .ok d ∧
      IsLeast (Operator.power.image 2 ⟨.least, 7⟩) 0 ∧ IsGreatest (Operator.power.image 2 ⟨.least, 7⟩) .greatest := by
  have built : (foreign ⟨"card", [], .least, 7, false⟩).apply .power 2 =
      .ok (.arithmetic (.foreign ⟨"card", [], .least, 7, false⟩) .power 2 none) := by rfl
  have ends : (arithmetic (.foreign ⟨"card", [], .least, 7, false⟩) .power 2 none).bounds = ⟨0, .greatest⟩ := by
    decide +kernel
  obtain ⟨least, greatest⟩ := bounds_of_apply_exact built (by decide)
  rw [ends] at least greatest
  exact ⟨_, built, least, greatest⟩

end Dice
end DiceNotation
