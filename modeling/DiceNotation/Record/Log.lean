import DiceNotation.Record.Json

/-! Logs of memory tracers: records in the order in which they came. A record is looked up by its offset, from the
    start or, when negative, from the end. Several logs are told apart by the numbers of their tracers. -/

namespace DiceNotation

/-- Records, earliest first. -/
structure Log where
  records : Array Record := #[]

namespace Log

def toList (log : Log) : List Record := log.records.toList

def size (log : Log) : Nat := log.records.size

def isEmpty (log : Log) : Bool := log.records.isEmpty

def push (log : Log) (record : Record) : Log := ⟨log.records.push record⟩

def clear (_ : Log) : Log := {}

/-- The place that an offset means among `size` places: counted from the start, or from the end when
    negative. -/
def index? (offset : Int) (size : Nat) : Option Nat :=
  if 0 ≤ offset then (if offset.natAbs < size then some offset.natAbs else none)
  else if offset.natAbs ≤ size then some (size - offset.natAbs)
  else none

/-- The record at an offset. -/
def get (log : Log) (offset : Int) : Except Error Record :=
  match (index? offset log.size).bind (log.records[·]?) with
  | some record => .ok record
  | none => .error (.outOfBounds offset log.size)

def byOperation (log : Log) (op : Operation) : List Record := log.toList.filter (·.operation = op)

def bySource (log : Log) (source : String) : List Record := log.toList.filter (·.source = source)

/-- The log as a JSON array. -/
def json (log : Log) : String := "[" ++ ",".intercalate (log.toList.map Record.json) ++ "]"

/-! ### The view as a list -/

@[simp] theorem toList_push (log : Log) (record : Record) : (log.push record).toList = log.toList ++ [record] := by
  simp [toList, push]

@[simp] theorem toList_clear (log : Log) : log.clear.toList = [] := rfl

@[simp] theorem length_toList (log : Log) : log.toList.length = log.size := by simp [toList, size]

end Log

/-! ### Several logs -/

/-- Logs by number; one that nothing was entered into is empty. -/
structure Logs where
  entries : List (Nat × Log) := []

namespace Logs

/-- The log of a number. -/
def get (logs : Logs) (id : Nat) : Log := (logs.entries.lookup id).getD {}

/-- The entries after a change of one log. -/
def change (id : Nat) (f : Log → Log) : List (Nat × Log) → List (Nat × Log)
  | [] => [(id, f {})]
  | (other, log) :: rest => if id = other then (other, f log) :: rest else (other, log) :: change id f rest

def modify (logs : Logs) (id : Nat) (f : Log → Log) : Logs := ⟨change id f logs.entries⟩

theorem lookup_cons_of_ne {id first : Nat} (h : id ≠ first) (log : Log) (rest : List (Nat × Log)) :
    List.lookup id ((first, log) :: rest) = rest.lookup id := by
  rw [List.lookup_cons, beq_false_of_ne h]

theorem get_modify (logs : Logs) (id other : Nat) (f : Log → Log) :
    (logs.modify id f).get other = if other = id then f (logs.get id) else logs.get other := by
  obtain ⟨entries⟩ := logs
  simp only [modify, get]
  induction entries with
  | nil =>
    split
    · next same => simp [change, same]
    · next apart => simp [change, lookup_cons_of_ne apart]
  | cons entry rest ih =>
    obtain ⟨first, log⟩ := entry
    by_cases here : id = first
    · subst here
      split
      · next same => simp [change, same]
      · next apart => simp [change, lookup_cons_of_ne apart]
    · by_cases found : other = first
      · simp [change, here, found, Ne.symm here]
      · rw [change, if_neg here, lookup_cons_of_ne found, lookup_cons_of_ne found, lookup_cons_of_ne here, ih]

end Logs
end DiceNotation
