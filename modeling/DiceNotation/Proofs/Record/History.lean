import Mathlib.Data.List.DropRight
import DiceNotation.Record.Log

/-! The history of a log. Whatever a log is called for, it holds the records since it was last cleared, in the order in
    which they came, and a look-up reads them without changing them. A source ends with the question, whatever the
    name of its node, so the records of one source answer the same question. -/

namespace DiceNotation

/-! ### Sources -/

/-- No name of a question is the end of another one's. -/
theorem Operation.eq_of_name_suffix {op op' : Operation} (h : op.name.toList <:+ op'.name.toList) : op = op' := by
  revert h
  cases op <;> cases op' <;> decide

/-- A source tells the question. -/
theorem Operation.eq_of_source_eq {node node' : String} {op op' : Operation}
    (h : node ++ "::" ++ op.name = node' ++ "::" ++ op'.name) : op = op' := by
  have ends : op.name.toList <:+ (node ++ "::" ++ op.name).toList := ⟨_, String.toList_append.symm⟩
  have ends' : op'.name.toList <:+ (node' ++ "::" ++ op'.name).toList := ⟨_, String.toList_append.symm⟩
  -- Of two ends of one text, the shorter one is an end of the other.
  rcases List.suffix_or_suffix_of_suffix ends (h ▸ ends') with inner | inner
  · exact eq_of_name_suffix inner
  · exact (eq_of_name_suffix inner).symm

namespace Log
variable {log : Log} {offset : Int} {size : Nat}

/-! ### Offsets -/

theorem index?_of_nonneg (h : 0 ≤ offset) (lt : offset < size) : index? offset size = some offset.toNat := by
  rw [index?, if_pos h, if_pos (by omega)]
  congr 1
  omega

theorem index?_of_neg (h : -size ≤ offset) (neg : offset < 0) : index? offset size = some (size + offset).toNat := by
  rw [index?, if_neg (by omega), if_pos (by omega)]
  congr 1
  omega

theorem index?_of_outside (h : ¬(-size ≤ offset ∧ offset < size)) : index? offset size = none := by
  unfold index?
  split
  · exact if_neg (by omega)
  · exact if_neg (by omega)

-- The first of three records is the third one from the end.
example : index? (-3) 3 = some 0 ∧ index? (-4) 3 = none ∧ index? 3 3 = none ∧
    index? (-9223372036854775808) 3 = none := by decide

/-- The record at the place that an offset means is found by the offset. -/
theorem get_of_index? {i : Nat} (h : index? offset log.size = some i) (inside : i < log.size) :
    ∃ record, log.toList[i]? = some record ∧ log.get offset = .ok record := by
  have present : log.records[i]? = some log.records[i] := Array.getElem?_eq_getElem inside
  refine ⟨log.records[i], ?_, ?_⟩
  · rw [toList, Array.getElem?_toList, present]
  · rw [get, h, Option.bind_some, present]

theorem get_of_outside (h : ¬(-log.size ≤ offset ∧ offset < log.size)) :
    log.get offset = .error (.outOfBounds offset log.size) := by
  rw [get, index?_of_outside h]
  rfl

/-! ### Questions -/

/-- Each record answers one of the three questions. -/
theorem byOperation_perm (log : Log) :
    (log.byOperation .roll ++ log.byOperation .minimum ++ log.byOperation .maximum).Perm log.toList := by
  let others := log.toList.filter fun record => !decide (record.operation = .roll)
  have minimums : log.byOperation .minimum = others.filter (·.operation = .minimum) := by
    rw [List.filter_filter]
    exact List.filter_congr fun record _ => by cases record.operation <;> rfl
  have maximums : log.byOperation .maximum = others.filter fun record => !decide (record.operation = .minimum) := by
    rw [List.filter_filter]
    exact List.filter_congr fun record _ => by cases record.operation <;> rfl
  rw [List.append_assoc, minimums, maximums]
  exact ((List.filter_append_perm _ others).append_left _).trans (List.filter_append_perm _ log.toList)

/-! ### Calls -/

/-- What a log is called for. -/
inductive Call
  | record (node : String) (operation : Operation) (text derivation : String) (result : Outcome)
  | clear
  | toList
  | get (offset : Int)
  | byOperation (operation : Operation)
  | bySource (source : String)
deriving DecidableEq

/-- What a call is answered with. -/
inductive Answer
  | done
  | looked (found : Except Error Record)
  | listed (records : List Record)

/-- The record that a call makes. -/
def Call.record? : Call → Option Record
  | .record node operation text derivation result => some (.new node operation text derivation result)
  | _ => none

/-- The answer to a call, and the log after it. -/
def serve (log : Log) : Call → Answer × Log
  | .record node operation text derivation result => (.done, log.push (.new node operation text derivation result))
  | .clear => (.done, log.clear)
  | .toList => (.listed log.toList, log)
  | .get offset => (.looked (log.get offset), log)
  | .byOperation operation => (.listed (log.byOperation operation), log)
  | .bySource source => (.listed (log.bySource source), log)

/-- The log after some calls, the first of which finds it empty. -/
def run (calls : List Call) : Log := calls.foldl (fun log call => (log.serve call).2) {}

theorem toList_serve (log : Log) (call : Call) : (log.serve call).2.toList =
    if call = .clear then [] else log.toList ++ [call].filterMap Call.record? := by
  cases call <;> simp [serve, Call.record?]

/-- The calls since the last one that cleared the log. -/
def sinceClear (calls : List Call) : List Call := calls.rtakeWhile (· ≠ .clear)

theorem toList_run (calls : List Call) : (run calls).toList = (sinceClear calls).filterMap Call.record? := by
  unfold sinceClear
  induction calls using List.reverseRecOn with
  | nil => rfl
  | append_singleton calls call ih =>
    have last : run (calls ++ [call]) = ((run calls).serve call).2 := by
      rw [run, List.foldl_append]
      rfl
    rw [last, toList_serve]
    by_cases cleared : call = .clear
    · rw [if_pos cleared, List.rtakeWhile_concat_neg _ _ _ (by simpa using cleared)]
      rfl
    · rw [if_neg cleared, List.rtakeWhile_concat_pos _ _ _ (by simpa using cleared), List.filterMap_append, ih]

/-- Every record of a log was made with the name of a node. -/
theorem source_of_mem_run {calls : List Call} {record : Record} (h : record ∈ (run calls).toList) :
    ∃ node, record.source = node ++ "::" ++ record.operation.name := by
  rw [toList_run] at h
  obtain ⟨call, -, made⟩ := List.mem_filterMap.mp h
  cases call with
  | record node operation text derivation result =>
    cases made
    exact ⟨node, rfl⟩
  | _ => cases made

/-- The records of a source answer the same question. -/
theorem operation_eq_of_bySource {calls : List Call} {source : String} {record other : Record}
    (h : record ∈ (run calls).bySource source) (h' : other ∈ (run calls).bySource source) :
    record.operation = other.operation := by
  obtain ⟨kept, hsource⟩ := List.mem_filter.mp h
  obtain ⟨kept', hsource'⟩ := List.mem_filter.mp h'
  obtain ⟨node, written⟩ := source_of_mem_run kept
  obtain ⟨node', written'⟩ := source_of_mem_run kept'
  have joined : node ++ "::" ++ record.operation.name = node' ++ "::" ++ other.operation.name := by
    rw [← written, ← written', of_decide_eq_true hsource, of_decide_eq_true hsource']
  exact Operation.eq_of_source_eq joined

/-- After any calls a log holds the records since it was last cleared, in order. An offset finds the record at its place
    from the start, or from the end if it is negative, and one that is out of bounds is named together with the size;
    the log stays the same. The three questions divide the records among them, each in order, and the records of a
    source are those of one question. -/
theorem serve_run (calls : List Call) : ∃ records, records = (sinceClear calls).filterMap Call.record? ∧
    (run calls).serve .toList = (.listed records, run calls) ∧
    (∀ offset : Int, 0 ≤ offset → offset < records.length → ∃ record, records[offset.toNat]? = some record ∧
      (run calls).serve (.get offset) = (.looked (.ok record), run calls)) ∧
    (∀ offset : Int, -records.length ≤ offset → offset < 0 →
      ∃ record, records[(records.length + offset).toNat]? = some record ∧
        (run calls).serve (.get offset) = (.looked (.ok record), run calls)) ∧
    (∀ offset : Int, ¬(-records.length ≤ offset ∧ offset < records.length) →
      (run calls).serve (.get offset) = (.looked (.error (.outOfBounds offset records.length)), run calls)) ∧
    (∃ part : Operation → List Record,
      (∀ op, (run calls).serve (.byOperation op) = (.listed (part op), run calls) ∧ (part op).Sublist records ∧
        ∀ record ∈ part op, record.operation = op) ∧
      (part .roll ++ part .minimum ++ part .maximum).Perm records) ∧
    ∀ source, ∃ found, (run calls).serve (.bySource source) = (.listed found, run calls) ∧
      found = records.filter (·.source = source) ∧
      ∀ record ∈ found, ∀ other ∈ found, record.operation = other.operation := by
  refine ⟨(run calls).toList, toList_run calls, rfl, fun offset nonneg lt => ?_, fun offset le neg => ?_,
    fun offset outside => ?_, ⟨(run calls).byOperation, fun op => ⟨rfl, List.filter_sublist, fun record asked => ?_⟩,
      byOperation_perm _⟩, fun source =>
    ⟨_, rfl, rfl, fun record h other h' => operation_eq_of_bySource h h'⟩⟩
  · rw [length_toList] at lt
    obtain ⟨record, place, found⟩ := get_of_index? (index?_of_nonneg nonneg lt) (by omega)
    exact ⟨record, place, by rw [serve, found]⟩
  · rw [length_toList] at le ⊢
    obtain ⟨record, place, found⟩ := get_of_index? (index?_of_neg le neg) (by omega)
    exact ⟨record, place, by rw [serve, found]⟩
  · rw [length_toList] at outside ⊢
    rw [serve, get_of_outside outside]
  · exact of_decide_eq_true (List.mem_filter.mp asked).2

end Log
end DiceNotation
