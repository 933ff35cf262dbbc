import DiceNotation.Dice.Bounds
import DiceNotation.Settings

/-! Building trees. A builder refuses what could not be evaluated: a selection of no item or of more than the
    pool has, a division by zero, an exponent out of range, and a threshold that every outcome or none
    satisfies. A node that is built carries the tracer given to it. -/

namespace DiceNotation

/-- Items that are rolled together. -/
structure Pool where
  items : List Dice
  tracer : Option Tracer := none

namespace Pool

def replicate (count : Nat) (item : Dice) (tracer : Option Tracer := none) : Pool :=
  ⟨List.replicate count item, tracer⟩

def sum (p : Pool) : Dice := .pool p.items p.tracer

/-- The sum of the items that a selector picks by rank. -/
def select (p : Pool) (selector : Selector) (count : Nat) (tracer : Option Tracer := none) :
    Except Error Dice :=
  if count = 0 then .error (.illegal (.noneSelected selector))
  else if p.items.length < count then .error (.tooManySelected count p.items.length)
  else .ok (.selection p.items p.tracer selector count tracer)

theorem select_eq_ok_iff {p : Pool} {selector : Selector} {count : Nat} {tracer : Option Tracer} {d : Dice} :
    p.select selector count tracer = .ok d ↔
      (0 < count ∧ count ≤ p.items.length) ∧ d = .selection p.items p.tracer selector count tracer := by
  unfold select
  split
  · simp; omega
  · split
    · simp; omega
    · simp only [Except.ok.injEq]
      exact ⟨fun h => ⟨by omega, h.symm⟩, fun h => h.2.symm⟩

end Pool

namespace Dice

/-- Repeats a node while its outcomes satisfy a comparison; at most `limit` times, and at least once. -/
def explode (inner : Dice) (comparison : Comparison) (threshold : Outcome) (limit : Nat := maxExplosions)
    (tracer : Option Tracer := none) : Except Error Dice :=
  if comparison.Splits threshold inner.bounds then
    .ok (.explosion inner comparison threshold (max 1 limit) tracer)
  else .error (.illegal (.idleThreshold comparison threshold inner.bounds))

theorem explode_eq_ok_iff {inner d : Dice} {comparison : Comparison} {threshold : Outcome} {limit : Nat}
    {tracer : Option Tracer} :
    inner.explode comparison threshold limit tracer = .ok d ↔
      comparison.Splits threshold inner.bounds ∧
        d = .explosion inner comparison threshold (max 1 limit) tracer := by
  unfold explode
  split
  · next h => simp only [Except.ok.injEq]; exact ⟨fun hd => ⟨h, hd.symm⟩, fun hd => hd.2.symm⟩
  · next h => simp [h]

/-- Why an operator refuses an operand that it does not accept. -/
def refusal (operator : Operator) (operand : Outcome) : Illegal :=
  match operator with
  | .power => .exponent operand
  | _ => .divisionByZero

/-- Applies an operator and a constant to every outcome of a node. -/
def apply (inner : Dice) (operator : Operator) (operand : Outcome) (tracer : Option Tracer := none) :
    Except Error Dice :=
  if operator.Accepts operand then .ok (.arithmetic inner operator operand tracer)
  else .error (.illegal (refusal operator operand))

theorem apply_eq_ok_iff {inner d : Dice} {operator : Operator} {operand : Outcome}
    {tracer : Option Tracer} :
    inner.apply operator operand tracer = .ok d ↔
      operator.Accepts operand ∧ d = .arithmetic inner operator operand tracer := by
  unfold apply
  split
  · next h => simp only [Except.ok.injEq]; exact ⟨fun hd => ⟨h, hd.symm⟩, fun hd => hd.2.symm⟩
  · next h => simp [h]

end Dice
end DiceNotation
