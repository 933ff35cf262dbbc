import DiceNotation.Dice.Evaluate
import DiceNotation.Dice.Parse
import DiceNotation.Record.Log

/-! The table at which dice are rolled: it holds the draws to come, the logs of the memory tracers and the events
    that went out. Each call to the table plays or parses and keeps what that leaves behind; the answer itself
    does not depend on the logs or on the events. -/

namespace DiceNotation

/-- What listeners are told of a record. The derivation is the message, and the question shows in the source only. -/
structure Notice where
  source : String
  text : String
  result : Outcome
  message : String
deriving DecidableEq

def Record.notice (record : Record) : Notice where
  source := record.source
  text := record.text
  result := record.result
  message := record.derivation

/-- Something that listeners are told. -/
inductive Event
  | recorded (level : Level) (notice : Notice)
  | parsed (input text : String)
deriving DecidableEq

namespace Event

def level : Event → Level
  | recorded level _ => level
  | parsed _ _ => .trace

def message : Event → String
  | recorded _ notice => notice.message
  | parsed _ _ => "parsed dice notation"

end Event

/-- The state of play. -/
structure Table where
  supply : Supply := fun _ => 0
  drawn : Nat := 0
  logs : Logs := {}
  events : Array Event := #[]

namespace Table

/-- The table with new draws, of which none is taken yet. -/
def deal (t : Table) (supply : Supply) : Table := { t with supply := supply, drawn := 0 }

/-- The log of a memory tracer. -/
def log (t : Table) (id : Nat := 0) : Log := t.logs.get id

def clearLog (t : Table) (id : Nat := 0) : Table := { t with logs := t.logs.modify id Log.clear }

def clearEvents (t : Table) : Table := { t with events := #[] }

/-- Hands a record to a tracer: a memory tracer logs it, and a log tracer sends a notice of it out as an event. -/
def deliver (t : Table) (emission : Emission) : Table :=
  match emission.tracer with
  | .memory id => { t with logs := t.logs.modify id (·.push emission.record) }
  | .log level => { t with events := t.events.push (.recorded level emission.record.notice) }

/-- Enters a record that no evaluation made: through the tracer in use, or into the first log when there is none. -/
def enter (t : Table) (tracer : Option Tracer) (record : Record) : Table :=
  t.deliver ⟨tracer.getD .memory, record⟩

/-- Asks dice a question at the table. -/
def ask (t : Table) (d : Dice) (op : Operation) : Outcome × Table :=
  let played := d.play t.supply op t.drawn
  (played.value, played.emitted.foldl deliver { t with drawn := played.next })

/-- Rolls dice a number of times in a row. -/
def rolls (t : Table) (d : Dice) : Nat → List Outcome × Table
  | 0 => ([], t)
  | times + 1 =>
    let (first, t) := t.ask d .roll
    let (others, t) := rolls t d times
    (first :: others, t)

/-- Parses a notation at the table; listeners are told of one that is accepted. -/
def parse (t : Table) (text : String) (settings : Settings) : Except Error Dice × Table :=
  match Dice.parse text settings with
  | .error e => (.error e, t)
  | .ok d => (.ok d, { t with events := t.events.push (.parsed text d.text) })

end Table
end DiceNotation
