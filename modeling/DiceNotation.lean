import DiceNotation.CommandLine
import DiceNotation.Comparison
import DiceNotation.Dice
import DiceNotation.Dice.Bounds
import DiceNotation.Dice.Build
import DiceNotation.Dice.Evaluate
import DiceNotation.Dice.Parse
import DiceNotation.Dice.Spelling
import DiceNotation.Die
import DiceNotation.Error
import DiceNotation.Grammar.Expression
import DiceNotation.Grammar.Group
import DiceNotation.Grammar.Reader
import DiceNotation.Interval
import DiceNotation.Main
import DiceNotation.Operation
import DiceNotation.Operator
import DiceNotation.Outcome
import DiceNotation.Proofs.Addends
import DiceNotation.Proofs.Bounds.Asked
import DiceNotation.Proofs.Bounds.Exact
import DiceNotation.Proofs.Bounds.Image
import DiceNotation.Proofs.Bounds.Order
import DiceNotation.Proofs.Bounds.Sound
import DiceNotation.Proofs.Bounds.Threshold
import DiceNotation.Proofs.Draws.Parsed
import DiceNotation.Proofs.Draws.Repetition
import DiceNotation.Proofs.Draws.Stopping
import DiceNotation.Proofs.Draws.Window
import DiceNotation.Proofs.Faces
import DiceNotation.Proofs.Nodes
import DiceNotation.Proofs.Notation.Brackets
import DiceNotation.Proofs.Notation.Canonical
import DiceNotation.Proofs.Notation.Composition
import DiceNotation.Proofs.Notation.Faults
import DiceNotation.Proofs.Notation.Grammatical
import DiceNotation.Proofs.Notation.Grouping
import DiceNotation.Proofs.Notation.Interleaving
import DiceNotation.Proofs.Notation.Juxtaposition
import DiceNotation.Proofs.Notation.Lexeme
import DiceNotation.Proofs.Notation.Locality
import DiceNotation.Proofs.Notation.Omission
import DiceNotation.Proofs.Notation.Phrase
import DiceNotation.Proofs.Notation.Printing
import DiceNotation.Proofs.Notation.Proper
import DiceNotation.Proofs.Notation.Reading
import DiceNotation.Proofs.Notation.Regrouping
import DiceNotation.Proofs.Notation.Retraced
import DiceNotation.Proofs.Notation.Settled
import DiceNotation.Proofs.Notation.Settling
import DiceNotation.Proofs.Notation.Shape
import DiceNotation.Proofs.Notation.Terms
import DiceNotation.Proofs.Notation.Wrapping
import DiceNotation.Proofs.Notation.Written
import DiceNotation.Proofs.Operator.Hull
import DiceNotation.Proofs.Operator.Saturation
import DiceNotation.Proofs.Record.Audit
import DiceNotation.Proofs.Record.Delivery
import DiceNotation.Proofs.Record.Derivation
import DiceNotation.Proofs.Record.History
import DiceNotation.Proofs.Record.Trail
import DiceNotation.Proofs.Record.Transparency
import DiceNotation.Proofs.Retrace
import DiceNotation.Proofs.Selector.Rank
import DiceNotation.Proofs.Strict.Evaluation
import DiceNotation.Proofs.Strict.Fallback
import DiceNotation.Proofs.Structure
import DiceNotation.Proofs.Totals
import DiceNotation.Record
import DiceNotation.Record.Json
import DiceNotation.Record.Log
import DiceNotation.Selector
import DiceNotation.Settings
import DiceNotation.Supply
import DiceNotation.Table
import DiceNotation.Text
import DiceNotation.Token
import DiceNotation.Token.Scan
