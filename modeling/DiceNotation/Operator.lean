import DiceNotation.Interval
import DiceNotation.Operation

/-! Operators between dice and a constant. Each computes exactly on integers and then goes to the nearest
    outcome; division drops the fraction, and gives the largest outcome if there is no quotient. `trend` says how
    the result moves with the value, which tells where over an interval the extremes lie. -/

namespace DiceNotation

/-- An operator whose right-hand side is a constant. -/
inductive Operator
  | add | subtract | multiply | divide | power
deriving DecidableEq, Repr, Inhabited

/-- How results move as values grow. -/
inductive Trend
  | rising | falling | mixed
deriving DecidableEq, Repr, Inhabited

namespace Operator

def symbol : Operator → Char
  | add => '+'
  | subtract => '-'
  | multiply => '*'
  | divide => '/'
  | power => '^'

def ofText? : String → Option Operator
  | "+" => some add
  | "-" => some subtract
  | "*" => some multiply
  | "/" => some divide
  | "^" => some power
  | _ => none

/-! ### Powers -/

/-- The exponent that an operand stands for; one outside 0 to 2^32 - 1 acts as 2^32 - 1. -/
def exponent (operand : Outcome) : Nat :=
  if 0 ≤ operand.val ∧ operand.val ≤ 4294967295 then operand.val.toNat else 4294967295

/-- A small exponent with the same powers of outcomes: past 64 only its parity counts. -/
def shortened (n : Nat) : Nat := if n ≤ 64 then n else 64 + n % 2

/-- Multiples of numbers past the range go to the same end of it. -/
theorem ofInt_mul_of_large (a : Int) {x y : Nat} (hx : 18446744073709551616 ≤ x)
    (hy : 18446744073709551616 ≤ y) : Outcome.ofInt (a * x) = Outcome.ofInt (a * y) := by
  have bound : ∀ z : Nat, 18446744073709551616 ≤ z →
      (0 < a → 18446744073709551616 ≤ a * z) ∧ (a < 0 → a * z ≤ -18446744073709551616) := by
    intro z hz
    refine ⟨fun ha => ?_, fun ha => ?_⟩
    · have := Int.mul_le_mul_of_nonneg_right (c := (z : Int)) (show 1 ≤ a by omega) (by omega)
      omega
    · have := Int.mul_le_mul_of_nonneg_right (c := (z : Int)) (show a ≤ -1 by omega) (by omega)
      omega
  obtain ⟨hx1, hx2⟩ := bound x hx
  obtain ⟨hy1, hy2⟩ := bound y hy
  apply Outcome.ext
  rw [Outcome.val_ofInt, Outcome.val_ofInt]
  rcases Int.lt_trichotomy a 0 with ha | ha | ha
  · have := hx2 ha
    have := hy2 ha
    omega
  · rw [ha, Int.zero_mul, Int.zero_mul]
  · have := hx1 ha
    have := hy1 ha
    omega

/-- A power keeps its outcome when its exponent is shortened. -/
theorem ofInt_pow_shortened (a : Int) (n : Nat) :
    Outcome.ofInt (Int.pow a (shortened n)) = Outcome.ofInt (Int.pow a n) := by
  unfold shortened
  split
  · rfl
  obtain ⟨k, hk⟩ : ∃ k, n = n % 2 + 2 * (32 + k) := ⟨(n - 64) / 2, by omega⟩
  generalize n % 2 = r at hk
  subst hk
  have even : ∀ j, Int.pow a (r + 2 * j) = Int.pow a r * ((a.natAbs ^ 2) ^ j : Nat) := fun j => by
    show a ^ (r + 2 * j) = a ^ r * _
    rw [Int.pow_add, Int.pow_mul, Int.natCast_pow, Int.natCast_pow, Int.natAbs_pow_two]
  rw [show 64 + r = r + 2 * 32 by omega, even, even]
  have small : a.natAbs ^ 2 = 0 ∨ a.natAbs ^ 2 = 1 ∨ 4 ≤ a.natAbs ^ 2 := by
    rcases Nat.lt_or_ge a.natAbs 2 with h | h
    · have : a.natAbs = 0 ∨ a.natAbs = 1 := by omega
      rcases this with h | h <;> simp [h]
    · exact .inr (.inr (Nat.pow_le_pow_left h 2))
  rcases small with h | h | h
  · rw [h, Nat.zero_pow (by omega), Nat.zero_pow (by omega)]
  · rw [h, Nat.one_pow, Nat.one_pow]
  · have large : ∀ j, 32 ≤ j → 18446744073709551616 ≤ (a.natAbs ^ 2) ^ j := fun j hj =>
      Nat.le_trans (Nat.pow_le_pow_left h 32) (Nat.pow_le_pow_right (by omega) hj)
    exact ofInt_mul_of_large _ (large 32 (Nat.le_refl _)) (large (32 + k) (by omega))

/-! ### Application -/

/-- The quotient without its fraction, unless there is none or it is no outcome. -/
def quotient? (value operand : Outcome) : Option Outcome :=
  if operand.val = 0 then none else Outcome.ofInt? (value.val.tdiv operand.val)

/-- The result for a value and an operand. A division without a quotient gives the largest outcome. -/
def apply : Operator → Outcome → Outcome → Outcome
  | add, value, operand => value + operand
  | subtract, value, operand => value - operand
  | multiply, value, operand => value * operand
  | divide, value, operand => (quotient? value operand).getD .greatest
  | power, value, operand => .ofInt (Int.pow value.val (shortened (exponent operand)))

/-- A quotient is no larger in size than its value, so it never passes the lower end of the range. -/
theorem divide_apply {operand : Outcome} (h : operand.val ≠ 0) (value : Outcome) :
    divide.apply value operand = .ofInt (value.val.tdiv operand.val) := by
  have size := Int.natAbs_tdiv_le_natAbs value.val operand.val
  have low := value.least_le
  have high := value.le_greatest
  rw [apply, quotient?, if_neg h]
  exact (Outcome.ofInt_eq_getD (fun sinks : False => sinks.elim) fun _ => by rw [Outcome.val_least]; omega).symm

/-- Whether dice can be given this operator and operand. -/
def Accepts : Operator → Outcome → Prop
  | divide, operand => operand.val ≠ 0
  | power, operand => 0 ≤ operand.val ∧ operand.val ≤ 4294967295
  | _, _ => True

instance : (operator : Operator) → (operand : Outcome) → Decidable (operator.Accepts operand)
  | add, _ => .isTrue trivial
  | subtract, _ => .isTrue trivial
  | multiply, _ => .isTrue trivial
  | divide, operand => inferInstanceAs (Decidable (operand.val ≠ 0))
  | power, operand => inferInstanceAs (Decidable (0 ≤ operand.val ∧ operand.val ≤ 4294967295))

/-! ### Extremes over an interval -/

/-- A factor or divisor below zero turns the order round, and a positive even power breaks it. -/
def trend : Operator → Outcome → Trend
  | add, _ => .rising
  | subtract, _ => .rising
  | multiply, operand => if 0 ≤ operand.val then .rising else .falling
  | divide, operand => if 0 ≤ operand.val then .rising else .falling
  | power, operand => if operand.val = 0 ∨ operand.val % 2 = 1 then .rising else .mixed

/-- The question about the values that answers a question about the results; none if no one question does. -/
def asks (operator : Operator) (operand : Outcome) (op : Operation) : Option Operation :=
  match op, operator.trend operand with
  | .roll, _ => some .roll
  | _, .rising => some op
  | _, .falling => some op.opposite
  | _, .mixed => none

/-- The values of an interval, after its lower end, at which the results can be extreme: the upper end, and
    zero if it lies strictly inside and the results do not follow the order. -/
def turningPoints (operator : Operator) (operand : Outcome) (range : Interval) : List Outcome :=
  if operator.trend operand = .mixed ∧ range.lo < 0 ∧ 0 < range.hi then [range.hi, 0] else [range.hi]

/-- Whether a result takes the place of the best so far: a smaller one as minimum, and one at least as large
    as maximum. -/
def displaces (op : Operation) (result best : Outcome) : Bool :=
  match op with
  | .minimum => decide (result < best)
  | _ => decide (best ≤ result)

/-- The value of an interval whose result is extreme: the first such for a minimum, the last for a
    maximum. -/
def extremeValue (operator : Operator) (operand : Outcome) (op : Operation) (range : Interval) : Outcome :=
  (operator.turningPoints operand range).foldl
    (fun best value =>
      if displaces op (operator.apply value operand) (operator.apply best operand) then value else best)
    range.lo

/-- From the least to the greatest result over the values of an interval. -/
def hull (operator : Operator) (operand : Outcome) (range : Interval) : Interval where
  lo := operator.apply (operator.extremeValue operand .minimum range) operand
  hi := operator.apply (operator.extremeValue operand .maximum range) operand

end Operator
end DiceNotation
