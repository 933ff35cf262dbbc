/-! The three questions that dice answer: a roll, the minimum and the maximum. -/

namespace DiceNotation

/-- What is asked of dice. -/
inductive Operation
  | roll | minimum | maximum
deriving DecidableEq, Repr, Inhabited

namespace Operation

/-- The word for the question in records. -/
def name : Operation → String
  | roll => "roll"
  | minimum => "minimum"
  | maximum => "maximum"

/-- The question that the words of a record name. -/
def ofName? : String → Option Operation
  | "roll" => some roll
  | "minimum" => some minimum
  | "maximum" => some maximum
  | _ => none

/-- The question with minimum and maximum exchanged. -/
def opposite : Operation → Operation
  | roll => roll
  | minimum => maximum
  | maximum => minimum

@[simp] theorem opposite_opposite (op : Operation) : op.opposite.opposite = op := by cases op <;> rfl

@[simp] theorem opposite_eq_roll_iff {op : Operation} : op.opposite = roll ↔ op = roll := by
  cases op <;> decide

end Operation
end DiceNotation
