import DiceNotation.Text
import DiceNotation.Token

/-! Errors. A notation or a call is refused for a cause, and `message` words it. A fault of the text comes
    with the offset of the character where it was found. -/

namespace DiceNotation

/-- What the grammar wanted where it found another token. -/
inductive Wanted
  | closeGroup | die | group | number | moreFaces
deriving DecidableEq, Repr

/-- What is wrong with the text of a notation. -/
inductive Fault
  | strayCharacter (c : Char)
  | halfKeepTag
  | numberTooLarge (digits : List Char)
  | unexpected (found : Token)
  | expected (wanted : Wanted) (found : Token)
  | emptyGroup
  | subtractedGroup
  | secondExplosion
  | secondSelection
deriving DecidableEq, Repr

/-- What is wrong with a value that the text or a caller gives. -/
inductive Illegal
  | noDice
  | tooManyDice (count limit : Nat)
  | divisionByZero
  | exponent (operand : Outcome)
  | unknownOperator (text : String)
  | unknownComparison (text : String)
  | noneSelected (selector : Selector)
  | idleThreshold (comparison : Comparison) (threshold : Outcome) (range : Interval)
deriving DecidableEq

/-- Why a notation, a node or a look-up is refused. -/
inductive Error
  | malformed (offset : Nat) (fault : Fault)
  | tooFewSides (sides : Nat)
  | tooManySelected (count size : Nat)
  | unknownSelector (text : String)
  | illegal (cause : Illegal)
  | outOfBounds (offset : Int) (size : Nat)
deriving DecidableEq

/-! ### Wording -/

def Wanted.text : Wanted → String
  | closeGroup => "`)`"
  | die => "`d`"
  | group => "a dice group"
  | number => "a number"
  | moreFaces => "`,` or `]`"

def Fault.message : Fault → String
  | strayCharacter c => "unexpected character `" ++ String.singleton c ++ "`"
  | halfKeepTag => "expected `kh` or `kl`"
  | numberTooLarge digits => "number `" ++ String.ofList digits ++ "` is too large"
  | unexpected found => "unexpected " ++ found.name
  | expected wanted found => "expected " ++ wanted.text ++ ", found " ++ found.name
  | emptyGroup => "empty group"
  | subtractedGroup => "a dice group cannot be subtracted"
  | secondExplosion => "duplicate explode modifier"
  | secondSelection => "duplicate drop/keep modifier"

def Illegal.message : Illegal → String
  | noDice => "dice count must be positive"
  | tooManyDice count limit => "dice count `" ++ toString count ++ "` exceeds " ++ toString limit
  | divisionByZero => "division by zero"
  | exponent operand => "exponent `" ++ operand.text ++ "` must be a non-negative 32-bit integer"
  | unknownOperator text => "unknown operator `" ++ text ++ "`"
  | unknownComparison text => "unknown comparison `" ++ text ++ "`"
  | noneSelected selector => selector.text ++ " threshold must be positive"
  | idleThreshold comparison threshold range =>
    "explode threshold `" ++ String.singleton comparison.symbol ++ threshold.text ++
      "` is invalid for outcomes " ++ range.lo.text ++ "..=" ++ range.hi.text

def Error.message : Error → String
  | malformed offset fault => "syntax error at position " ++ toString offset ++ ": " ++ fault.message
  | tooFewSides sides => "a die needs at least 2 sides, " ++ toString sides ++ " given"
  | tooManySelected count size =>
    "cannot select " ++ toString count ++ " items from a pool of " ++ toString size
  | unknownSelector text => "unknown or unsupported algorithm `" ++ text ++ "`"
  | illegal cause => "illegal value: " ++ cause.message
  | outOfBounds offset size =>
    "offset " ++ toString offset ++ " is out of bounds for " ++ toString size ++ " traces"

/-- The offset of a malformed text's fault. -/
def Error.offset? : Error → Option Nat
  | malformed offset _ => some offset
  | _ => none

/-! ### Signs and tags of callers -/

/-- The operator that a caller names by its sign. -/
def Operator.ofText (text : String) : Except Error Operator :=
  match ofText? text with
  | some operator => .ok operator
  | none => .error (.illegal (.unknownOperator text))

def Comparison.ofText (text : String) : Except Error Comparison :=
  match ofText? text with
  | some comparison => .ok comparison
  | none => .error (.illegal (.unknownComparison text))

def Selector.ofText (text : String) : Except Error Selector :=
  match ofText? text with
  | some selector => .ok selector
  | none => .error (.unknownSelector text)

end DiceNotation
