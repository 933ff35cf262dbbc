import DiceNotation.Error
import DiceNotation.Operation

/-! Records of evaluations. A node that carries a tracer leaves one record per evaluation: which node was
    asked what, its text, how the result was derived, and the result. A derivation is kept as data until it
    is written, so its text and its result come from the same numbers. -/

namespace DiceNotation

/-- How a node came to its result: by adding outcomes, or by applying an operator to one. -/
inductive Derivation
  | sum (terms : List Outcome)
  | step (value : Outcome) (operator : Operator) (operand : Outcome)

namespace Derivation

/-- The number that the derivation leads to. -/
def result : Derivation → Outcome
  | sum terms => .total terms
  | step value operator operand => operator.apply value operand

def term (a : Outcome) : List Char := '(' :: a.chars ++ [')']

/-- The terms in parentheses with plus signs between them, or the operator and operand after one term. -/
def chars : Derivation → List Char
  | sum terms => [' ', '+', ' '].intercalate (terms.map term)
  | step value operator operand => term value ++ ' ' :: operator.symbol :: ' ' :: operand.chars

def text (d : Derivation) : String := String.ofList d.chars

end Derivation

structure Record where
  source : String
  operation : Operation
  text : String
  derivation : String
  result : Outcome
deriving DecidableEq

/-- The record of a node: its source joins the node's name and the question. -/
def Record.new (node : String) (operation : Operation) (text derivation : String) (result : Outcome) :
    Record where
  source := node ++ "::" ++ operation.name
  operation := operation
  text := text
  derivation := derivation
  result := result

/-- How grave an event is. -/
inductive Level
  | error | warn | info | debug | trace
deriving DecidableEq, Repr, Inhabited

namespace Level

def name : Level → String
  | error => "ERROR"
  | warn => "WARN"
  | info => "INFO"
  | debug => "DEBUG"
  | trace => "TRACE"

/-- The level of a log tracer that is given none. -/
def forLogs : Level := debug

end Level

/-- Where records go: into the log in memory that has a number, or out as events of one level. -/
inductive Tracer
  | memory (id : Nat := 0)
  | log (level : Level)
deriving DecidableEq, Repr

/-- A record on its way to a tracer. -/
structure Emission where
  tracer : Tracer
  record : Record
deriving DecidableEq

end DiceNotation
