import DiceNotation.Interval

/-! Comparisons with a threshold. An explosion goes on while its outcome satisfies one, so a threshold is
    useful only if it splits the outcomes into those that satisfy the comparison and those that miss it. -/

namespace DiceNotation

/-- How an outcome is compared with a threshold. -/
inductive Comparison
  | equals | greater | lesser
deriving DecidableEq, Repr, Inhabited

namespace Comparison

def symbol : Comparison → Char
  | equals => '='
  | greater => '>'
  | lesser => '<'

/-- The comparison that a text is the sign of. -/
def ofText? : String → Option Comparison
  | "=" => some equals
  | ">" => some greater
  | "<" => some lesser
  | _ => none

def holds : Comparison → Outcome → Outcome → Bool
  | equals, value, threshold => decide (value = threshold)
  | greater, value, threshold => decide (threshold < value)
  | lesser, value, threshold => decide (value < threshold)

/-- Whether a threshold splits an interval. -/
def Splits : Comparison → Outcome → Interval → Prop
  | equals, threshold, range => range.lo < range.hi ∧ threshold ∈ range
  | greater, threshold, range => range.lo ≤ threshold ∧ threshold < range.hi
  | lesser, threshold, range => range.lo < threshold ∧ threshold ≤ range.hi

instance : (c : Comparison) → (threshold : Outcome) → (range : Interval) →
    Decidable (c.Splits threshold range)
  | equals, threshold, range => inferInstanceAs (Decidable (range.lo < range.hi ∧ threshold ∈ range))
  | greater, threshold, range => inferInstanceAs (Decidable (range.lo ≤ threshold ∧ threshold < range.hi))
  | lesser, threshold, range => inferInstanceAs (Decidable (range.lo < threshold ∧ threshold ≤ range.hi))

/-- The smallest satisfying outcome of those from `lo` up. -/
def leastSatisfying : Comparison → Outcome → Outcome → Outcome
  | equals, threshold, _ => threshold
  | greater, threshold, _ => threshold + 1
  | lesser, _, lo => lo

/-- The largest satisfying outcome of those up to `hi`. -/
def greatestSatisfying : Comparison → Outcome → Outcome → Outcome
  | equals, threshold, _ => threshold
  | greater, _, hi => hi
  | lesser, threshold, _ => threshold - 1

/-- The lower bound of repeated outcomes: a negative one that satisfies the comparison can repeat without
    bound. -/
def lower (c : Comparison) (threshold lo : Outcome) : Outcome :=
  if c.leastSatisfying threshold lo < 0 then .least else lo

/-- The upper bound of repeated outcomes: a positive one that satisfies the comparison can repeat without
    bound. -/
def upper (c : Comparison) (threshold hi : Outcome) : Outcome :=
  if 0 < c.greatestSatisfying threshold hi then .greatest else hi

/-- The bounds of repeated outcomes. -/
def widen (c : Comparison) (threshold : Outcome) (range : Interval) : Interval :=
  ⟨c.lower threshold range.lo, c.upper threshold range.hi⟩

end Comparison
end DiceNotation
