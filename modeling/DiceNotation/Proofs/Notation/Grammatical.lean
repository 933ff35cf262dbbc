import DiceNotation.Proofs.Nodes
import DiceNotation.Proofs.Notation.Canonical

/-! The nodes of parsed trees. Whatever the text, the tracer and the limit of the settings, each node of a parsed
    tree is one that the grammar can make; the empty pool comes only as a whole tree. -/

namespace DiceNotation.Dice

/-- A node that the grammar can make: its numbers passed the checks, what is selected from or explodes are copies
    of one die, and it has the tracer and the limit of the settings. -/
def Grammatical (settings : Settings) : Dice → Prop
  | die d => 2 ≤ d.size ∧ d.Writable
  | foreign _ => False
  | pool items tracer => 2 ≤ items.length ∧ tracer = settings.tracer
  | selection items poolTracer _ k tracer =>
    (∃ d count, items = List.replicate count (.die d) ∧ 1 ≤ k ∧ k ≤ count ∧ count ≤ maxDice) ∧
      poolTracer = settings.tracer ∧ tracer = settings.tracer
  | explosion inner comparison threshold limit tracer =>
    Simple (· = settings.tracer) inner ∧ comparison.Splits threshold inner.bounds ∧
      limit = max 1 settings.explodeLimit ∧ tracer = settings.tracer
  | arithmetic _ operator operand tracer =>
    operator.Accepts operand ∧ operator.Writable operand ∧ tracer = settings.tracer

variable {settings : Settings} {d : Dice} {text : String}

theorem nodes_copies {count : Nat} {die : Die} (writable : die.Writable) :
    ∀ e ∈ nodesAll (List.replicate count (.die die)), e.Grammatical settings := by
  rw [forall_mem_nodesAll]
  intro d hd
  rw [(List.mem_replicate.mp hd).2]
  exact List.forall_mem_singleton.mpr ⟨die.two_le_size, writable⟩

theorem Simple.grammatical (h : Simple (· = settings.tracer) d) : ∀ e ∈ d.nodes, e.Grammatical settings := by
  cases h with
  | @die die writable => exact List.forall_mem_singleton.mpr ⟨die.two_le_size, writable⟩
  | copies two few writable traced =>
    refine List.forall_mem_cons.mpr ⟨⟨?_, traced⟩, nodes_copies writable⟩
    rwa [List.length_replicate]
  | @selection count k die _ _ _ one le few writable poolTraced traced =>
    exact List.forall_mem_cons.mpr ⟨⟨⟨die, count, rfl, one, le, few⟩, poolTraced, traced⟩, nodes_copies writable⟩

theorem Plain.grammatical (h : Plain (· = settings.tracer) (· = max 1 settings.explodeLimit) d) :
    ∀ e ∈ d.nodes, e.Grammatical settings := by
  cases h with
  | simple inside => exact inside.grammatical
  | explosion inside splits writable limited traced =>
    exact List.forall_mem_cons.mpr ⟨⟨inside, splits, limited, traced⟩, inside.grammatical⟩

theorem Shape.grammatical (h : Parsed settings d) : ∀ e ∈ d.nodes, e.Grammatical settings := by
  induction h with
  | plain group => exact group.grammatical
  | arithmetic _ accepts writable traced ih => exact List.forall_mem_cons.mpr ⟨⟨accepts, writable, traced⟩, ih⟩
  | sum two _ traced ih => exact List.forall_mem_cons.mpr ⟨⟨two, traced⟩, forall_mem_nodesAll.mpr ih⟩

/-- A parsed tree is the empty pool, or each of its nodes is one that the grammar can make. -/
theorem parse_nodes_grammatical (h : parse text settings = .ok d) :
    d = .pool [] settings.tracer ∨ ∀ e ∈ d.nodes, e.Grammatical settings :=
  (parse_shape h).imp_right Shape.grammatical

/-- A pair of dice with a gap that explodes below zero, added to the highest of three dice and divided. -/
def cleftSum : Dice :=
  let gap : Die := .custom [.ofInt (-7), 2, 2] (Nat.le_add_left 2 1)
  .arithmetic
    (.pool [
      .explosion (.pool (List.replicate 2 (.die gap)) (some .memory)) .lesser 0 1 (some .memory),
      .selection (List.replicate 3 (.die six)) (some .memory) .keepHighest 1 (some .memory)] (some .memory))
    .divide (.ofInt (-2)) (some .memory)

theorem cleftSum_parsed : parse "(2d[-7,2,2]!<0 + 3dkh) / -2" ⟨some .memory, 0⟩ = .ok cleftSum := by
  with_unfolding_all rfl

theorem cleftSum_grammatical : parse "(2d[-7,2,2]!<0 + 3dkh) / -2" ⟨some .memory, 0⟩ = .ok cleftSum ∧
    ∀ e ∈ cleftSum.nodes, e.Grammatical ⟨some .memory, 0⟩ := by
  rcases parse_nodes_grammatical cleftSum_parsed with empty | nodes
  · cases empty
  · exact ⟨cleftSum_parsed, nodes⟩

end DiceNotation.Dice
