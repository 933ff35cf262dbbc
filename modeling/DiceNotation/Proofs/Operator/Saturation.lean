import DiceNotation.Dice.Build
import DiceNotation.Proofs.Operator.Hull

/-! Saturation. An accepted operator gives its exact result where that is an outcome, and an end of the range where it
    is not. Which end is told by the operator and by the signs of its two sides, without the exact result: factors of
    one sign do not lead down, a negative value leads down to an odd power only, and no quotient leads down. -/

namespace DiceNotation

namespace Operator
variable {op : Operator} {a n : Outcome}

/-- Whether the exact result is below the range if it is no outcome. -/
def Sinks : Operator → Outcome → Outcome → Prop
  | add, _, operand => operand.val < 0
  | subtract, _, operand => 0 ≤ operand.val
  | multiply, value, operand => ¬(value.val < 0 ↔ operand.val < 0)
  | divide, _, _ => False
  | power, value, operand => value.val < 0 ∧ operand.val % 2 = 1

instance : (operator : Operator) → (value operand : Outcome) → Decidable (operator.Sinks value operand)
  | add, _, operand => inferInstanceAs (Decidable (operand.val < 0))
  | subtract, _, operand => inferInstanceAs (Decidable (0 ≤ operand.val))
  | multiply, value, operand => inferInstanceAs (Decidable ¬(value.val < 0 ↔ operand.val < 0))
  | divide, _, _ => .isFalse id
  | power, value, operand => inferInstanceAs (Decidable (value.val < 0 ∧ operand.val % 2 = 1))

theorem mul_nonpos_of_signs {x y : Int} (h : ¬(x < 0 ↔ y < 0)) : x * y ≤ 0 := by
  rcases Int.lt_or_le x 0 with hx | hx
  · exact Int.mul_nonpos_of_nonpos_of_nonneg (Int.le_of_lt hx) (by omega)
  · exact Int.mul_nonpos_of_nonneg_of_nonpos hx (by omega)

theorem mul_nonneg_of_signs {x y : Int} (h : x < 0 ↔ y < 0) : 0 ≤ x * y := by
  rcases Int.lt_or_le x 0 with hx | hx
  · exact Int.mul_nonneg_of_nonpos_of_nonpos (Int.le_of_lt hx) (by omega)
  · exact Int.mul_nonneg hx (by omega)

theorem Sinks.exact_le (h : op.Sinks a n) (accepts : op.Accepts n) : op.exact a.val n.val ≤ Outcome.greatest.val := by
  have := a.le_greatest
  rw [Outcome.val_greatest]
  cases op with
  | add =>
    have : n.val < 0 := h
    rw [exact]
    omega
  | subtract =>
    have : 0 ≤ n.val := h
    rw [exact]
    omega
  | multiply =>
    have := mul_nonpos_of_signs h
    rw [exact]
    omega
  | divide => exact h.elim
  | power =>
    obtain ⟨negative, parity⟩ := h
    have := accepts.1
    have odd : Odd n.val.toNat := Nat.odd_iff.mpr (by omega)
    have : power.exact a.val n.val < 0 := odd.pow_neg_iff.mpr negative
    omega

theorem le_exact_of_not_sinks (h : ¬op.Sinks a n) (accepts : op.Accepts n) :
    Outcome.least.val ≤ op.exact a.val n.val := by
  have := a.least_le
  rw [Outcome.val_least]
  cases op with
  | add =>
    have : ¬n.val < 0 := h
    rw [exact]
    omega
  | subtract =>
    have : ¬0 ≤ n.val := h
    rw [exact]
    omega
  | multiply =>
    have := mul_nonneg_of_signs (not_not.mp h)
    rw [exact]
    omega
  | divide =>
    -- A quotient is no larger in size than its value, so it can pass the upper end only.
    have := a.le_greatest
    have := Int.natAbs_tdiv_le_natAbs a.val n.val
    rw [exact]
    omega
  | power =>
    have : 0 ≤ power.exact a.val n.val := by
      rcases Int.lt_or_le a.val 0 with negative | nonneg
      · have := accepts.1
        have even : Even n.val.toNat := Nat.even_iff.mpr (by
          have : ¬n.val % 2 = 1 := fun parity => h ⟨negative, parity⟩
          omega)
        exact even.pow_nonneg a.val
      · exact pow_nonneg nonneg n.val.toNat
    omega

/-- The result of an accepted operator is the exact result held within the range: the exact result itself if it is an
    outcome, and otherwise the end of the range that the signs of the two sides tell. -/
theorem apply_exact {inner d : Dice} {tracer : Option Tracer} (built : inner.apply op n tracer = .ok d) (a : Outcome) :
    (op.apply a n).val = max Outcome.least.val (min (op.exact a.val n.val) Outcome.greatest.val) ∧
      op.apply a n =
        (Outcome.ofInt? (op.exact a.val n.val)).getD (if op.Sinks a n then .least else .greatest) := by
  obtain ⟨accepts, -⟩ := Dice.apply_eq_ok_iff.mp built
  rw [apply_eq_ofInt_exact accepts]
  exact ⟨rfl, Outcome.ofInt_eq_getD (·.exact_le accepts) (le_exact_of_not_sinks · accepts)⟩

/-- The one quotient that is no outcome. -/
theorem turnedLeast_exact : (Dice.die .fudge).apply .divide (.ofInt (-1)) =
      .ok (.arithmetic (.die .fudge) .divide (.ofInt (-1)) none) ∧
    divide.exact Outcome.least.val (-1) = 9223372036854775808 ∧
    divide.apply .least (.ofInt (-1)) = .greatest := by
  have built : (Dice.die .fudge).apply .divide (.ofInt (-1)) =
      .ok (.arithmetic (.die .fudge) .divide (.ofInt (-1)) none) := by rfl
  obtain ⟨held, -⟩ := apply_exact built .least
  exact ⟨built, rfl, Outcome.ext (held.trans (by decide))⟩

example : power.exact 0 0 = 1 := rfl

end Operator
end DiceNotation
