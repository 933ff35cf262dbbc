import DiceNotation.Table

/-! The command line: a notation and options in, lines of text out. A run parses the notation, shows its
    canonical text and bounds, and rolls it as often as asked; with tracing, each evaluation is sent out as an
    event. -/

namespace DiceNotation.CommandLine

/-- What the command line asks for. -/
structure Options where
  text : Option String := none
  times : Nat := 1
  trace : Bool := false
  explodeLimit : Nat := maxExplosions

namespace Options

/-- Why a command line is not understood. -/
inductive Misuse
  | noNumber (option : String)
  | noNotation
  | tooMany (argument : String)
  | unknown (option : String)

def Misuse.message : Misuse → String
  | noNumber option => option ++ " needs a number"
  | noNotation => "a dice notation is needed"
  | tooMany argument => "one dice notation is enough, but there is also " ++ argument
  | unknown option => "unknown option " ++ option

/-- The number that an option takes. -/
def number (option : String) (argument : String) : Except Misuse Nat :=
  match argument.toNat? with
  | some n => .ok n
  | none => .error (.noNumber option)

/-- The options in the arguments, on top of those read so far. -/
def read (options : Options) : List String → Except Misuse Options
  | [] => .ok options
  | "--trace" :: rest => read { options with trace := true } rest
  | "-n" :: argument :: rest => do read { options with times := ← number "-n" argument } rest
  | "--times" :: argument :: rest => do read { options with times := ← number "--times" argument } rest
  | "--explode-limit" :: argument :: rest => do
    read { options with explodeLimit := ← number "--explode-limit" argument } rest
  | argument :: rest =>
    if argument.startsWith "-" then .error (.unknown argument)
    else if options.text.isSome then .error (.tooMany argument)
    else read { options with text := some argument } rest

/-- The settings of the grammar under the options. -/
def settings (options : Options) : Settings where
  tracer := if options.trace then some (.log .forLogs) else none
  explodeLimit := options.explodeLimit

end Options

/-- The lines of a run and the table after it. -/
def run (text : String) (options : Options) (supply : Supply) : Except Error (List String × Table) :=
  match (Table.deal {} supply).parse text options.settings with
  | (.error e, _) => .error e
  | (.ok d, t) =>
    let (lo, t) := t.ask d .minimum
    let (hi, t) := t.ask d .maximum
    let (rolls, t) := t.rolls d options.times
    let heading := ["notation: " ++ d.text, "minimum:  " ++ lo.text, "maximum:  " ++ hi.text]
    .ok (heading ++ rolls.mapIdx fun i roll => "roll " ++ toString (i + 1) ++ ":   " ++ roll.text, t)

def eventLine : Event → String
  | .recorded level notice =>
    level.name ++ " " ++ notice.message ++ " source=" ++ notice.source ++ " notation=" ++ notice.text ++
      " result=" ++ notice.result.text
  | .parsed input text => Level.trace.name ++ " parsed dice notation notation=" ++ input ++ " parsed=" ++ text

def eventsAt (level : Level) (t : Table) : List Event := t.events.toList.filter (·.level = level)

end DiceNotation.CommandLine
