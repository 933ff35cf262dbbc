import DiceNotation.Grammar.Expression
import DiceNotation.Token.Scan

/-! Parsing: from a notation to its tree. The whole text is scanned before any of it is read, so a fault of a
    character comes before every fault of the grammar. -/

namespace DiceNotation.Dice

/-- Whether the tokens stand for the empty pool: none at all, or a zero, which is how an empty pool is
    written. -/
def readsEmpty : List Placed → Bool
  | [⟨_, .number 0⟩, ⟨_, .finish⟩] => true
  | tokens => peek tokens == .finish

/-- The tree that placed tokens describe. -/
def ofTokens (settings : Settings) (tokens : List Placed) : Except Error Dice :=
  if readsEmpty tokens then .ok (.pool [] settings.tracer)
  else
    match (expression settings tokens.length).run tokens with
    | .error e => .error e
    | .ok (d, rest) => if peek rest = .finish then .ok d else refuse rest (.unexpected (peek rest))

/-- The tree that a notation describes. -/
def parse (text : String) (settings : Settings := {}) : Except Error Dice :=
  match scan text with
  | .error e => .error e
  | .ok tokens => ofTokens settings tokens

end DiceNotation.Dice
