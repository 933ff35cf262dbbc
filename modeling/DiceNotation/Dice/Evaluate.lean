import DiceNotation.Dice.Spelling
import DiceNotation.Supply

/-! Evaluation: asking a tree for a roll, its minimum or its maximum. A roll takes draws from a supply, one
    for each leaf in order from the left; the other questions take none. A traced node emits its record after
    the records of the nodes below it. -/

namespace DiceNotation

/-- What an evaluation gives: a value, the number of the next draw, and the records emitted on the way. -/
structure Played (α : Type) where
  value : α
  next : Nat
  emitted : List Emission

namespace Played

/-- The same evaluation with another reading of its value. -/
def map (f : α → β) (p : Played α) : Played β := ⟨f p.value, p.next, p.emitted⟩

/-- Several evaluations in a row, which started at draw `start`. -/
def collect (start : Nat) (runs : List (Played α)) : Played (List α) where
  value := runs.map value
  next := (runs.getLast?.map next).getD start
  emitted := runs.flatMap emitted

/-- Repeats an evaluation from draw `next` on, at most `limit` times, until a value that need not be repeated;
    `done` holds the earlier runs, latest first. -/
def whileHolds (run : Nat → Played α) (holds : α → Bool) (next : Nat) (done : List (Played α)) :
    Nat → List (Played α)
  | 0 => done.reverse
  | limit + 1 =>
    let latest := run next
    if holds latest.value then whileHolds run holds latest.next (latest :: done) limit
    else (latest :: done).reverse

theorem whileHolds_eq_append (run : Nat → Played α) (holds : α → Bool) (next : Nat) (done : List (Played α))
    (limit : Nat) : whileHolds run holds next done limit = done.reverse ++ whileHolds run holds next [] limit := by
  induction limit generalizing next done with
  | zero => simp [whileHolds]
  | succ limit ih =>
    simp only [whileHolds]
    split
    · rw [ih _ (run next :: done), ih _ [run next]]
      simp
    · simp

/-- The first evaluation, and the others if its value is to be repeated. -/
theorem whileHolds_succ (run : Nat → Played α) (holds : α → Bool) (next limit : Nat) :
    whileHolds run holds next [] (limit + 1) =
      run next :: if holds (run next).value then whileHolds run holds (run next).next [] limit else [] := by
  simp only [whileHolds]
  split
  · rw [whileHolds_eq_append]
    rfl
  · rfl

end Played

namespace Dice

/-- A leaf takes one draw for a roll, and none for its bounds. -/
def playLeaf (face : Nat → Outcome) (range : Interval) (supply : Supply) (next : Nat) :
    Operation → Played Outcome
  | .roll => ⟨face (supply next), next + 1, []⟩
  | .minimum => ⟨range.lo, next, []⟩
  | .maximum => ⟨range.hi, next, []⟩

/-- The record of a node that was asked a question and came to its result by a derivation. -/
def record (d : Dice) (op : Operation) (derivation : Derivation) : Record :=
  .new d.nodeName op d.text derivation.text derivation.result

/-- Ends the evaluation of a node with its result, and with its record if it carries a tracer. -/
def conclude (d : Dice) (op : Operation) (p : Played Derivation) : Played Outcome where
  value := p.value.result
  next := p.next
  emitted :=
    match d.tracer? with
    | none => p.emitted
    | some tracer => p.emitted ++ [⟨tracer, d.record op p.value⟩]

/-- The outcomes that an explosion adds: of repeated rolls, or the one bound that was asked for. -/
def repeated (comparison : Comparison) (threshold : Outcome) (limit next : Nat)
    (run : Operation → Nat → Played Outcome) : Operation → Played (List Outcome)
  | .roll => .collect next (Played.whileHolds (run .roll) (comparison.holds · threshold) next [] limit)
  | .minimum => (run .minimum next).map fun lo => [comparison.lower threshold lo]
  | .maximum => (run .maximum next).map fun hi => [comparison.upper threshold hi]

mutual
/-- Asks a tree a question, with draws from number `next` on. -/
def play (supply : Supply) : Dice → Operation → Nat → Played Outcome
  | die d, op, next => playLeaf d.face ⟨d.least, d.greatest⟩ supply next op
  | foreign leaf, op, next => playLeaf leaf.face ⟨leaf.least, leaf.greatest⟩ supply next op
  | pool items tracer, op, next =>
    conclude (.pool items tracer) op ((playAll supply items op next).map .sum)
  | selection items poolTracer selector count tracer, op, next =>
    conclude (.selection items poolTracer selector count tracer) op
      ((playAll supply items op next).map fun values => .sum (selector.kept values count))
  | explosion inner comparison threshold limit tracer, op, next =>
    conclude (.explosion inner comparison threshold limit tracer) op
      ((repeated comparison threshold limit next (play supply inner) op).map .sum)
  | arithmetic inner operator operand tracer, op, next =>
    conclude (.arithmetic inner operator operand tracer) op <|
      match operator.asks operand op with
      | some asked => (play supply inner asked next).map fun value => .step value operator operand
      | none => ⟨.step (operator.extremeValue operand op inner.bounds) operator operand, next, []⟩

def playAll (supply : Supply) : List Dice → Operation → Nat → Played (List Outcome)
  | [], _, next => ⟨[], next, []⟩
  | d :: ds, op, next =>
    let first := play supply d op next
    let others := playAll supply ds op first.next
    ⟨first.value :: others.value, others.next, first.emitted ++ others.emitted⟩
end

/-- A roll of the tree with draws from number `next` on. -/
def roll (d : Dice) (supply : Supply) (next : Nat) : Outcome := (play supply d .roll next).value

def minimum (d : Dice) : Outcome := (play (fun _ => 0) d .minimum 0).value

def maximum (d : Dice) : Outcome := (play (fun _ => 0) d .maximum 0).value

end Dice
end DiceNotation
