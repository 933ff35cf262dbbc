import DiceNotation.Record

/-! Records as JSON: objects without blanks, each with the fields of its record in order. In a quoted text a quote and
    a backslash are escaped, and of the other characters those below the blank, the common ones by a letter and the
    rest by their number. -/

namespace DiceNotation

/-! ### Quoted text -/

namespace Quoted

/-- A hexadecimal digit in small letters. -/
def hexDigit (n : Nat) : Char := Nat.digitChar n

/-- The escape of a character below the blank that has no letter of its own. -/
def numbered (c : Char) : List Char :=
  ['\\', 'u', '0', '0', hexDigit (c.toNat / 16), hexDigit (c.toNat % 16)]

/-- The written form of one character. -/
def escape (c : Char) : List Char :=
  if c = '"' then ['\\', '"']
  else if c = '\\' then ['\\', '\\']
  else if c.toNat < 0x20 then
    match c.toNat with
    | 0x08 => ['\\', 'b']
    | 0x09 => ['\\', 't']
    | 0x0A => ['\\', 'n']
    | 0x0C => ['\\', 'f']
    | 0x0D => ['\\', 'r']
    | _ => numbered c
  else [c]

def quote (text : List Char) : List Char := '"' :: text.flatMap escape ++ ['"']

end Quoted

def quoted (text : String) : String := String.ofList (Quoted.quote text.toList)

/-! ### Objects -/

def jsonField (name value : String) : String := quoted name ++ ":" ++ value

def Record.json (record : Record) : String :=
  let fields := [
    jsonField "source" (quoted record.source),
    jsonField "operation" (quoted record.operation.name),
    jsonField "notation" (quoted record.text),
    jsonField "derivation" (quoted record.derivation),
    jsonField "result" record.result.text]
  "\x7b" ++ ",".intercalate fields ++ "\x7d"

end DiceNotation
