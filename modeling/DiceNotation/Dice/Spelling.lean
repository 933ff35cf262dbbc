import DiceNotation.Dice.Bounds
import DiceNotation.Text

/-! The canonical text of a tree. Equal dice of a pool are counted where the first of them stands; a sum is
    put in parentheses before anything is attached to it; the suffix of an explosion goes between the dice of
    a selection and its tag. -/

namespace DiceNotation

/-! ### Groups of a pool -/

/-- A text that stands for `count` items of a pool. Only the text of a die can stand for more than one. -/
structure Group where
  item : List Char
  isDie : Bool
  count : Nat
deriving DecidableEq

namespace Group

/-- One more item: counted in the first group of dice with its text if it is a die, and in a group of its own
    at the end if not. -/
def insert (item : List Char) (isDie : Bool) : List Group → List Group
  | [] => [⟨item, isDie, 1⟩]
  | g :: gs =>
    if isDie && g.isDie && g.item == item then { g with count := g.count + 1 } :: gs
    else g :: insert item isDie gs

/-- The groups of the items, in order of first occurrence. -/
def ofItems (items : List (List Char × Bool)) : List Group :=
  items.foldl (fun groups item => insert item.1 item.2 groups) []

/-- The text of the group, after its count if that is more than one. -/
def chars (g : Group) : List Char := if 1 < g.count then Numeral.ofNat g.count ++ g.item else g.item

/-- The groups with plus signs between them, and a zero for no group. -/
def join (groups : List Group) : List Char :=
  if groups.isEmpty then ['0'] else ['+'].intercalate (groups.map chars)

end Group

/-! ### Spellings -/

/-- A text in two parts: what a suffix is attached to, and the tag of a selection, which stays behind the
    suffix. -/
structure Spelling where
  stem : List Char
  tag : Option (List Char)

namespace Spelling

def withSuffix (s : Spelling) (suffix : List Char) : List Char :=
  Wrap.wrap s.stem ++ suffix ++ s.tag.getD []

def chars (s : Spelling) : List Char :=
  match s.tag with
  | none => s.stem
  | some _ => s.withSuffix []

end Spelling

/-- The suffix of an explosion: a bang, with the comparison and the threshold unless they say that the
    highest face explodes. -/
def Comparison.suffix (c : Comparison) (threshold highest : Outcome) : List Char :=
  if c = .equals ∧ threshold = highest then ['!'] else '!' :: c.symbol :: threshold.chars

namespace Dice

mutual
def spelling : Dice → Spelling
  | die d => ⟨d.chars, none⟩
  | foreign leaf => ⟨leaf.text.toList, none⟩
  | pool items _ => ⟨Group.join (Group.ofItems (spelledItems items)), none⟩
  | selection items _ selector count _ =>
    ⟨Group.join (Group.ofItems (spelledItems items)), some (selector.tag ++ Numeral.ofNat count)⟩
  | explosion inner comparison threshold _ _ =>
    ⟨(spelling inner).withSuffix (comparison.suffix threshold (highestFace inner)), none⟩
  | arithmetic inner operator operand _ =>
    ⟨Wrap.wrap (spelling inner).chars ++ operator.symbol :: operand.chars, none⟩

/-- The text of each item and whether it is a die. -/
def spelledItems : List Dice → List (List Char × Bool)
  | [] => []
  | d :: ds => ((spelling d).chars, isDie d) :: spelledItems ds
end

def chars (d : Dice) : List Char := (spelling d).chars

/-- The canonical text. -/
def text (d : Dice) : String := String.ofList d.chars

def textWith (d : Dice) (suffix : String) : String := String.ofList ((spelling d).withSuffix suffix.toList)

@[simp] theorem spelledItems_eq_map (items : List Dice) :
    spelledItems items = items.map fun d => (d.chars, d.isDie) := by
  induction items with
  | nil => rfl
  | cons d ds ih => rw [spelledItems, ih, List.map_cons, chars]

end Dice
end DiceNotation
