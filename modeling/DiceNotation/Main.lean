import DiceNotation.CommandLine

/-! The program: prints the lines of a run, and its events beside them. -/

open DiceNotation DiceNotation.CommandLine

/-- A seed that the system chooses. -/
def randomSeed : IO UInt64 := do
  let bytes ← IO.getRandomBytes 8
  return bytes.toList.foldl (fun seed byte => seed * 256 + byte.toUInt64) 0

def main (arguments : List String) : IO UInt32 := do
  match Options.read {} arguments with
  | .error misuse =>
    IO.eprintln misuse.message
    return 2
  | .ok options =>
    match options.text with
    | none =>
      IO.eprintln Options.Misuse.noNotation.message
      return 2
    | some text =>
      match run text options (.ofSeed (← randomSeed)) with
      | .error e =>
        IO.eprintln ("Error: failed to parse " ++ text ++ ": " ++ e.message)
        return 1
      | .ok (lines, table) =>
        for event in eventsAt .forLogs table do
          IO.eprintln (eventLine event)
        for line in lines do
          IO.println line
        return 0
