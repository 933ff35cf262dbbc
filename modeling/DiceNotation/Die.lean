import DiceNotation.Error

/-! Dice with numbered faces, and leaves that another rule describes. A die takes one draw, a natural number
    of any size, and shows the face that the draw leaves as remainder; so every draw shows a face. -/

namespace DiceNotation

/-- A single die of at least two faces. -/
inductive Die
  | standard (sides : Nat) (enough : 2 ≤ sides)
  | fudge
  | percentile
  | custom (faces : List Outcome) (enough : 2 ≤ faces.length)
deriving DecidableEq

namespace Die

/-- The die with faces 1 to `sides`. -/
def ofSides (sides : Nat) : Except Error Die :=
  if enough : 2 ≤ sides then .ok (.standard sides enough) else .error (.tooFewSides sides)

def ofFaces (faces : List Outcome) : Except Error Die :=
  if enough : 2 ≤ faces.length then .ok (.custom faces enough) else .error (.tooFewSides faces.length)

def size : Die → Nat
  | standard sides _ => sides
  | fudge => 3
  | percentile => 100
  | custom faces _ => faces.length

theorem two_le_size (d : Die) : 2 ≤ d.size := by
  cases d with
  | standard _ enough => exact enough
  | fudge => decide
  | percentile => decide
  | custom _ enough => exact enough

def least : Die → Outcome
  | standard _ _ => 1
  | fudge => .ofInt (-1)
  | percentile => 1
  | custom faces _ => faces.min?.getD 0

/-- The largest face; a standard die has no face past the largest outcome. -/
def greatest : Die → Outcome
  | standard sides _ => .ofInt sides
  | fudge => 1
  | percentile => 100
  | custom faces _ => faces.max?.getD 0

/-- The face that a draw shows. -/
def face : Die → Nat → Outcome
  | standard sides _, draw => .ofInt (1 + draw % min sides 9223372036854775807)
  | fudge, draw => .ofInt (-1 + draw % 3)
  | percentile, draw => .ofInt (1 + draw % 100)
  | custom faces enough, draw =>
    have : draw % faces.length < faces.length := Nat.mod_lt draw (by omega)
    faces[draw % faces.length]

/-- The text of the die: a capital D and the faces. -/
def chars : Die → List Char
  | standard sides _ => 'D' :: Numeral.ofNat sides
  | fudge => ['D', 'F']
  | percentile => ['D', '%']
  | custom faces _ => 'D' :: '[' :: [','].intercalate (faces.map Outcome.chars) ++ [']']

end Die

/-- A leaf described from outside: it states its own text, faces and bounds, and whether it counts as a die
    when equal dice are grouped. -/
structure Foreign where
  text : String
  faces : List Outcome
  least : Outcome
  greatest : Outcome
  isDie : Bool
deriving DecidableEq

/-- The face that a draw shows, zero when there are none. -/
def Foreign.face (leaf : Foreign) (draw : Nat) : Outcome := leaf.faces.getD (draw % leaf.faces.length) 0

end DiceNotation
