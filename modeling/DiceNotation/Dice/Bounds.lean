import DiceNotation.Dice

/-! Bounds of a tree: the least and the greatest result it can have, found without asking the nodes for their
    minimum and maximum, so that no record is left. -/

namespace DiceNotation.Dice

mutual
/-- From the least to the greatest result. -/
def bounds : Dice → Interval
  | die d => ⟨d.least, d.greatest⟩
  | foreign leaf => ⟨leaf.least, leaf.greatest⟩
  | pool items _ => .total (boundsAll items)
  | selection items _ selector count _ => selector.total (boundsAll items) count
  | explosion inner comparison threshold _ _ => comparison.widen threshold (bounds inner)
  | arithmetic inner operator operand _ => operator.hull operand (bounds inner)

def boundsAll : List Dice → List Interval
  | [] => []
  | d :: ds => bounds d :: boundsAll ds
end

@[simp] theorem boundsAll_eq_map (items : List Dice) : boundsAll items = items.map bounds := by
  induction items with
  | nil => rfl
  | cons d ds ih => rw [boundsAll, ih, List.map_cons]

mutual
/-- The largest single face in the tree; arithmetic counts as one face, its greatest result. -/
def highestFace : Dice → Outcome
  | pool items _ => (highestFaces items).max?.getD 0
  | selection items _ _ _ _ => (highestFaces items).max?.getD 0
  | explosion inner _ _ _ _ => highestFace inner
  | d => (bounds d).hi

/-- The largest face of each item. -/
def highestFaces : List Dice → List Outcome
  | [] => []
  | d :: ds => highestFace d :: highestFaces ds
end

@[simp] theorem highestFaces_eq_map (items : List Dice) : highestFaces items = items.map highestFace := by
  induction items with
  | nil => rfl
  | cons d ds ih => rw [highestFaces, ih, List.map_cons]

end DiceNotation.Dice
