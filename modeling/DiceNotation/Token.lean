import DiceNotation.Comparison
import DiceNotation.Operator
import DiceNotation.Selector

/-! Tokens of a notation. Each token stands at the offset of its first character, and every list of placed
    tokens ends with `finish` at the length of the text. -/

namespace DiceNotation

/-- A lexical unit. `die` is the letter before the faces of a die. -/
inductive Token
  | number (value : Nat)
  | die | fudge | percent
  | openFaces | closeFaces | comma
  | operator (operator : Operator)
  | openGroup | closeGroup
  | bang
  | comparison (comparison : Comparison)
  | selector (selector : Selector)
  | finish
deriving DecidableEq, Repr, Inhabited

namespace Token

def name : Token → String
  | number value => "Number(" ++ toString value ++ ")"
  | die => "Dice"
  | fudge => "Fudge"
  | percent => "Percent"
  | openFaces => "LeftBracket"
  | closeFaces => "RightBracket"
  | comma => "Comma"
  | operator .add => "Plus"
  | operator .subtract => "Minus"
  | operator .multiply => "Multiply"
  | operator .divide => "Divide"
  | operator .power => "Power"
  | openGroup => "LeftParenthesis"
  | closeGroup => "RightParenthesis"
  | bang => "Bang"
  | comparison .equals => "Equals"
  | comparison .greater => "Greater"
  | comparison .lesser => "Lesser"
  | selector .dropHighest => "DropHighest"
  | selector .dropLowest => "DropLowest"
  | selector .keepHighest => "KeepHighest"
  | selector .keepLowest => "KeepLowest"
  | finish => "Eof"

end Token

/-- A token and the number of characters before it. -/
structure Placed where
  offset : Nat
  token : Token
deriving DecidableEq, Repr, Inhabited

end DiceNotation
