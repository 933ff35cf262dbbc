import DiceNotation.Die
import DiceNotation.Record

/-! Trees of dice. A leaf is a die or a foreign leaf; a pool is the sum of its items; a selection sums the
    outcomes of some items of its pool; an explosion repeats a node while a comparison holds; arithmetic
    applies an operator and a constant. Every node but a leaf may carry a tracer. -/

namespace DiceNotation

/-- A tree of dice. The pool of a selection keeps a tracer of its own but leaves no records, since the
    selection asks the items itself. -/
inductive Dice
  | die (die : Die)
  | foreign (leaf : Foreign)
  | pool (items : List Dice) (tracer : Option Tracer)
  | selection (items : List Dice) (poolTracer : Option Tracer) (selector : Selector) (count : Nat)
      (tracer : Option Tracer)
  | explosion (inner : Dice) (comparison : Comparison) (threshold : Outcome) (limit : Nat)
      (tracer : Option Tracer)
  | arithmetic (inner : Dice) (operator : Operator) (operand : Outcome) (tracer : Option Tracer)

namespace Dice

instance : Inhabited Dice := ⟨.pool [] none⟩

/-- Whether equal texts of this node may be grouped in a pool. -/
def isDie : Dice → Bool
  | die _ => true
  | foreign leaf => leaf.isDie
  | _ => false

def tracer? : Dice → Option Tracer
  | pool _ tracer => tracer
  | selection _ _ _ _ tracer => tracer
  | explosion _ _ _ _ tracer => tracer
  | arithmetic _ _ _ tracer => tracer
  | _ => none

/-- The name of the node in records. -/
def nodeName : Dice → String
  | pool _ _ => "Pool"
  | selection _ _ _ _ _ => "DropKeep"
  | explosion _ _ _ _ _ => "Explode"
  | arithmetic _ _ _ _ => "Arithmetic"
  | _ => "Die"

/-! ### Equality of structure -/

mutual
/-- Whether two trees have the same structure; tracers and limits do not count. -/
def same : Dice → Dice → Bool
  | die d, die d' => d == d'
  | foreign leaf, foreign leaf' => leaf == leaf'
  | pool items _, pool items' _ => sameAll items items'
  | selection items _ selector count _, selection items' _ selector' count' _ =>
    selector == selector' && count == count' && sameAll items items'
  | explosion inner comparison threshold _ _, explosion inner' comparison' threshold' _ _ =>
    comparison == comparison' && threshold == threshold' && same inner inner'
  | arithmetic inner operator operand _, arithmetic inner' operator' operand' _ =>
    operator == operator' && operand == operand' && same inner inner'
  | _, _ => false

def sameAll : List Dice → List Dice → Bool
  | [], [] => true
  | d :: ds, d' :: ds' => same d d' && sameAll ds ds'
  | _, _ => false
end

instance : BEq Dice := ⟨same⟩

end Dice
end DiceNotation
