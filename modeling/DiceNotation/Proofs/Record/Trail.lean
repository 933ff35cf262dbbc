import Mathlib.Data.List.Perm.Basic
import DiceNotation.Proofs.Bounds.Asked
import DiceNotation.Proofs.Record.Delivery

/-! The trail of a question. If the nodes of a tree share a tracer, a question leaves one record of each node that it
    reaches: from the left to the right, and each node after what is below it. A minimum or a maximum does not go
    below an even power, and it turns into the other one at each factor or divisor below zero. A roll reaches every
    node. -/

namespace DiceNotation

/-! ### Places -/

/-- A node of a tree, with the nodes above it from the nearest up to the root. -/
structure Place where
  node : Dice
  above : List Dice

namespace Dice

mutual
/-- The places of a tree that lies below some nodes, each place after those below it. -/
def placesUnder (above : List Dice) : Dice → List Place
  | pool items tracer => placesAll (.pool items tracer :: above) items ++ [⟨.pool items tracer, above⟩]
  | selection items poolTracer selector count tracer =>
    placesAll (.selection items poolTracer selector count tracer :: above) items ++
      [⟨.selection items poolTracer selector count tracer, above⟩]
  | explosion inner comparison threshold limit tracer =>
    placesUnder (.explosion inner comparison threshold limit tracer :: above) inner ++
      [⟨.explosion inner comparison threshold limit tracer, above⟩]
  | arithmetic inner operator operand tracer =>
    placesUnder (.arithmetic inner operator operand tracer :: above) inner ++
      [⟨.arithmetic inner operator operand tracer, above⟩]
  | d => [⟨d, above⟩]

/-- The places of each item. -/
def placesAll (above : List Dice) : List Dice → List Place
  | [] => []
  | d :: ds => placesUnder above d ++ placesAll above ds
end

/-- The places of a tree, from the left to the right and each after those below it. -/
def places (d : Dice) : List Place := placesUnder [] d

variable {P : Foreign → Prop} {supply : Supply} {tracer : Tracer} {d : Dice} {items above : List Dice}
  {op : Operation}

theorem placesUnder_eq (above : List Dice) (d : Dice) :
    placesUnder above d = placesAll (d :: above) d.children ++ [⟨d, above⟩] := by
  cases d with
  | die => rfl
  | foreign => rfl
  | pool => rfl
  | selection => rfl
  | explosion => rw [placesUnder, children, placesAll, placesAll, List.append_nil]
  | arithmetic => rw [placesUnder, children, placesAll, placesAll, List.append_nil]

theorem placesAll_eq_flatMap (above items : List Dice) : placesAll above items = items.flatMap (placesUnder above) := by
  induction items with
  | nil => rfl
  | cons d ds ih => rw [placesAll, ih, List.flatMap_cons]

/-- The places are the nodes, each as often as it occurs. -/
theorem map_node_placesUnder (above : List Dice) (d : Dice) :
    ((placesUnder above d).map Place.node).Perm d.nodes := by
  induction d using children_induction generalizing above with
  | step d ih =>
    rw [placesUnder_eq, nodes_eq, placesAll_eq_flatMap, nodesAll_eq_flatMap, List.map_append, List.map_flatMap]
    exact List.perm_append_comm.trans ((List.Perm.flatMap_left _ fun e he => ih e he _).cons d)

theorem above_subset_of_mem {p : Place} (h : p ∈ placesUnder above d) : above ⊆ p.above := by
  induction d using children_induction generalizing above with
  | step d ih =>
    rw [placesUnder_eq, placesAll_eq_flatMap] at h
    rcases List.mem_append.mp h with below | own
    · obtain ⟨e, he, hp⟩ := List.mem_flatMap.mp below
      exact List.subset_of_cons_subset (ih e he hp)
    · obtain rfl := List.mem_singleton.mp own
      exact List.Subset.refl above

/-! ### Questions on the way down -/

/-- Whether a minimum or a maximum stops here, since no one question about the inner tree answers it. -/
def isEvenPower : Dice → Bool
  | arithmetic _ .power operand _ => decide (0 < operand ∧ operand.val % 2 = 0)
  | _ => false

/-- Whether a minimum or a maximum turns into the other one here. -/
def isReversing : Dice → Bool
  | arithmetic _ .multiply operand _ => decide (operand < 0)
  | arithmetic _ .divide operand _ => decide (operand < 0)
  | _ => false

/-- The question that a tree below some nodes is asked when their root is asked `op`. -/
def turned (above : List Dice) (op : Operation) : Operation :=
  if above.countP isReversing % 2 = 0 then op else op.opposite

theorem turned_cons (d : Dice) (above : List Dice) (op : Operation) :
    turned (d :: above) op = if d.isReversing then (turned above op).opposite else turned above op := by
  unfold turned
  rw [List.countP_cons]
  by_cases reversing : d.isReversing = true
  · rcases Nat.mod_two_eq_zero_or_one (above.countP isReversing) with even | odd
    · simp [reversing, even, Nat.add_mod]
    · simp [reversing, odd, Nat.add_mod]
  · simp [reversing]

theorem turned_roll (above : List Dice) : turned above .roll = .roll := by
  unfold turned
  split <;> rfl

theorem turned_ne_roll (hop : op ≠ .roll) (above : List Dice) : turned above op ≠ .roll := by
  unfold turned
  split
  · exact hop
  · exact fun h => hop (Operation.opposite_eq_roll_iff.mp h)

theorem trend_eq {operator : Operator} {operand : Outcome} (accepts : operator.Accepts operand) (inner : Dice)
    (own : Option Tracer) :
    operator.trend operand =
      if (arithmetic inner operator operand own).isEvenPower then .mixed
      else if (arithmetic inner operator operand own).isReversing then .falling else .rising := by
  cases operator with
  | add | subtract => rfl
  | multiply | divide =>
    have turns : operand < 0 ↔ ¬0 ≤ operand.val := Int.not_le.symm
    simp only [Operator.trend, isEvenPower, isReversing, decide_eq_true_eq, turns, ite_not, Bool.false_eq_true,
      if_false]
  | power =>
    obtain ⟨nonneg, -⟩ := accepts
    have stops : (0 < operand ∧ operand.val % 2 = 0) ↔ ¬(operand.val = 0 ∨ operand.val % 2 = 1) := by
      rw [Outcome.lt_iff, Outcome.val_zero]
      omega
    simp only [Operator.trend, isEvenPower, isReversing, decide_eq_true_eq, stops, ite_not, Bool.false_eq_true,
      if_false]

/-- Arithmetic passes its question on as it is turned there, unless the question stops. -/
theorem asks_turned {inner : Dice} {operator : Operator} {operand : Outcome} {own : Option Tracer}
    (accepts : operator.Accepts operand)
    (goes : op = .roll ∨ (arithmetic inner operator operand own).isEvenPower = false) :
    operator.asks operand (turned above op) = some (turned (arithmetic inner operator operand own :: above) op) := by
  rcases goes with rfl | goes
  · rw [turned_roll, turned_roll]
    rfl
  · have trend := trend_eq accepts inner own
    rw [turned_cons]
    by_cases reversing : (arithmetic inner operator operand own).isReversing = true
    · rw [goes, reversing] at trend
      rw [if_pos reversing, asks_of_falling trend]
    · rw [goes, if_neg Bool.false_ne_true, if_neg reversing] at trend
      rw [if_neg reversing, asks_of_rising trend]

end Dice

/-! ### Records of places -/

/-- The record tells that the node was asked the question, and what it answered. -/
structure Record.Tells (supply : Supply) (op : Operation) (d : Dice) (record : Record) : Prop where
  source : record.source = d.nodeName ++ "::" ++ op.name
  operation : record.operation = op
  text : record.text = d.text
  result : ∃ next, record.result = (d.play supply op next).value

namespace Place

/-- Whether a question to the root leaves a record of the place. A leaf leaves none, and a minimum or a maximum stops
    at an even power. -/
def recorded (op : Operation) (p : Place) : Bool :=
  !p.node.isLeaf && (op = .roll || !p.above.any Dice.isEvenPower)

theorem recorded_iff {op : Operation} {p : Place} :
    p.recorded op = true ↔ p.node.isLeaf = false ∧ (op = .roll ∨ p.above.any Dice.isEvenPower = false) := by
  simp [recorded]

theorem recorded_roll : recorded .roll = fun p => !p.node.isLeaf := by
  funext p
  simp [recorded]

theorem recorded_of_ne_roll {op : Operation} (hop : op ≠ .roll) :
    recorded op = fun p => !p.node.isLeaf && !p.above.any Dice.isEvenPower := by
  funext p
  simp [recorded, hop]

end Place

/-- The emissions of a question to the root: one to the tracer for each of the places that the question leaves a record
    of, in their order. -/
def Trail (supply : Supply) (tracer : Tracer) (op : Operation) (emitted : List Emission) (places : List Place) : Prop :=
  emitted.Forall₂ (fun x p => x.tracer = tracer ∧ x.record.Tells supply (Dice.turned p.above op) p.node)
    (places.filter (Place.recorded op))

section
variable {P : Foreign → Prop} {supply : Supply} {tracer : Tracer} {op : Operation}

namespace Trail
variable {emitted more : List Emission} {places others : List Place}

theorem append (h : Trail supply tracer op emitted places) (h' : Trail supply tracer op more others) :
    Trail supply tracer op (emitted ++ more) (places ++ others) := by
  unfold Trail
  rw [List.filter_append]
  exact List.rel_append h h'

theorem nil (h : ∀ p ∈ places, ¬p.recorded op = true) : Trail supply tracer op [] places := by
  unfold Trail
  rw [List.filter_eq_nil_iff.mpr h]
  exact .nil

/-- The tracer is handed the records of the trail. -/
theorem records (h : Trail supply tracer op emitted places) :
    (emitted.filterMap (Emission.recordFor? tracer)).Forall₂
      (fun record p => record.Tells supply (Dice.turned p.above op) p.node) (places.filter (Place.recorded op)) := by
  unfold Trail at h
  generalize places.filter (Place.recorded op) = recorded at h ⊢
  induction h with
  | nil => exact .nil
  | cons first _ ih =>
    obtain ⟨own, tells⟩ := first
    rw [List.filterMap_cons_some (Emission.recordFor?_eq_some_iff.mpr ⟨own, rfl⟩)]
    exact .cons tells ih

end Trail

namespace Dice
variable {d : Dice} {items above : List Dice} {asked : Operation} {next : Nat}

/-! ### Trails of trees -/

theorem trail_playAll
    (h : ∀ d ∈ items, ∀ next, Trail supply tracer op (play supply d asked next).emitted (placesUnder above d))
    (next : Nat) : Trail supply tracer op (playAll supply items asked next).emitted (placesAll above items) := by
  induction items generalizing next with
  | nil => exact .nil (List.forall_mem_nil _)
  | cons d ds ih =>
    obtain ⟨hd, hds⟩ := List.forall_mem_cons.mp h
    exact (hd next).append (ih hds _)

/-- A node ends the trail of what is below it with its own record. -/
theorem trail_of_children {p : Played Derivation} (traced : d.tracer? = some tracer) (inner : d.isLeaf = false)
    (reached : op = .roll ∨ above.any isEvenPower = false)
    (concludes : play supply d (turned above op) next = conclude d (turned above op) p)
    (below : Trail supply tracer op p.emitted (placesAll (d :: above) d.children)) :
    Trail supply tracer op (play supply d (turned above op) next).emitted (placesUnder above d) := by
  have own : Trail supply tracer op [⟨tracer, d.record (turned above op) p.value⟩] [⟨d, above⟩] := by
    unfold Trail
    rw [List.filter_cons_of_pos (Place.recorded_iff.mpr ⟨inner, reached⟩)]
    exact .cons ⟨rfl, rfl, rfl, rfl, next, by rw [concludes]; rfl⟩ .nil
  rw [concludes, conclude, traced, placesUnder_eq]
  exact below.append own

theorem reached_cons (goes : op = .roll ∨ d.isEvenPower = false)
    (reached : op = .roll ∨ above.any isEvenPower = false) : op = .roll ∨ (d :: above).any isEvenPower = false := by
  rw [List.any_cons, Bool.or_eq_false_iff, or_and_left]
  exact ⟨goes, reached⟩

/-- Below a node at which the question neither stops nor turns, the trail goes on with the same question. -/
theorem trail_keeping {e : Dice} (keeps : d.isReversing = false) (goes : d.isEvenPower = false)
    (reached : op = .roll ∨ above.any isEvenPower = false)
    (h : (op = .roll ∨ (d :: above).any isEvenPower = false) →
      Trail supply tracer op (play supply e (turned (d :: above) op) next).emitted (placesUnder (d :: above) e)) :
    Trail supply tracer op (play supply e (turned above op) next).emitted (placesUnder (d :: above) e) := by
  have below := h (reached_cons (Or.inr goes) reached)
  rwa [turned_cons, if_neg (by rw [keeps]; decide)] at below

theorem placesAll_singleton (above : List Dice) (d : Dice) : placesAll above [d] = placesUnder above d :=
  List.append_nil _

theorem emitted_repeated {comparison : Comparison} {threshold : Outcome} {limit : Nat}
    {run : Operation → Nat → Played Outcome} (hop : asked ≠ .roll) :
    (repeated comparison threshold limit next run asked).emitted = (run asked next).emitted := by
  cases asked with
  | roll => exact absurd rfl hop
  | minimum => rfl
  | maximum => rfl

theorem emitted_leaf (face : Nat → Outcome) (range : Interval) (asked : Operation) (next : Nat) :
    (playLeaf face range supply next asked).emitted = [] := by
  cases asked <;> rfl

/-- A tree that the question reaches leaves the trail of its places. -/
theorem trail_play (h : Built P d)
    (traced : ∀ e ∈ d.nodes, (e.isLeaf = false → e.tracer? = some tracer) ∧ (op = .roll → e.isExplosion = false))
    (reached : op = .roll ∨ above.any isEvenPower = false) (next : Nat) :
    Trail supply tracer op (play supply d (turned above op) next).emitted (placesUnder above d) := by
  induction h generalizing above next with
  | die d =>
    rw [play, emitted_leaf]
    exact .nil (List.forall_mem_singleton.mpr Bool.false_ne_true)
  | foreign _ =>
    rw [play, emitted_leaf]
    exact .nil (List.forall_mem_singleton.mpr Bool.false_ne_true)
  | sum _ ih =>
    obtain ⟨own, -⟩ := traced _ (mem_nodes_self _)
    exact trail_of_children (own rfl) rfl reached rfl (trail_playAll (fun e he next => trail_keeping rfl rfl reached
      fun reached => ih e he (forall_nodes_of_children traced he) reached next) next)
  | select _ built ih =>
    obtain ⟨-, rfl⟩ := Pool.select_eq_ok_iff.mp built
    obtain ⟨own, -⟩ := traced _ (mem_nodes_self _)
    exact trail_of_children (own rfl) rfl reached rfl (trail_playAll (fun e he next => trail_keeping rfl rfl reached
      fun reached => ih e he (forall_nodes_of_children traced he) reached next) next)
  | explode _ built ih =>
    obtain ⟨-, rfl⟩ := explode_eq_ok_iff.mp built
    obtain ⟨own, calm⟩ := traced _ (mem_nodes_self _)
    have hop : op ≠ .roll := fun roll => Bool.noConfusion (calm roll)
    refine trail_of_children (own rfl) rfl reached rfl ?_
    rw [Played.map, emitted_repeated (turned_ne_roll hop above), children, placesAll_singleton]
    exact trail_keeping rfl rfl reached fun reached =>
      ih (forall_nodes_of_children traced List.mem_cons_self) reached next
  | @apply inner _ operator operand own _ built ih =>
    obtain ⟨accepts, rfl⟩ := apply_eq_ok_iff.mp built
    obtain ⟨traces, -⟩ := traced _ (mem_nodes_self _)
    by_cases goes : op = .roll ∨ (arithmetic inner operator operand own).isEvenPower = false
    · refine trail_of_children (traces rfl) rfl reached (by rw [play, asks_turned accepts goes]) ?_
      rw [children, placesAll_singleton]
      exact ih (forall_nodes_of_children traced List.mem_cons_self) (reached_cons goes reached) next
    · -- The question stops, and no place below is left a record of.
      obtain ⟨hop, stops⟩ := not_or.mp goes
      rw [Bool.not_eq_false] at stops
      have mixed : operator.trend operand = .mixed := by rw [trend_eq accepts inner own, if_pos stops]
      refine trail_of_children (traces rfl) rfl reached
        (by rw [play, asks_of_mixed mixed (turned_ne_roll hop above)]) (.nil fun p hp recorded => ?_)
      rw [children, placesAll_singleton] at hp
      obtain ⟨-, roll | clear⟩ := Place.recorded_iff.mp recorded
      · exact hop roll
      · exact List.any_eq_false.mp clear _ (above_subset_of_mem hp List.mem_cons_self) stops

/-- The records of a question to the root. -/
theorem records_of_root (h : Built P d) (supply : Supply) (op : Operation) (next : Nat)
    (traced : ∀ e ∈ d.nodes, (e.isLeaf = false → e.tracer? = some tracer) ∧ (op = .roll → e.isExplosion = false)) :
    ((play supply d op next).emitted.filterMap (Emission.recordFor? tracer)).Forall₂
      (fun record p => record.Tells supply (turned p.above op) p.node) (d.places.filter (Place.recorded op)) := by
  have trail : Trail supply tracer op (play supply d (turned [] op) next).emitted (placesUnder [] d) :=
    trail_play h traced (Or.inr rfl) next
  exact trail.records

end Dice
end

namespace Table
open Dice

/-- If all nodes but the leaves share a tracer, a minimum or a maximum leaves it one record for each of them that is
    not below an even power, and a roll in which nothing explodes one for each of them: from the left to the right, and
    each after those of what is below. Each record tells of the question to the root, or of the opposite one if an
    odd number of factors and divisors below zero stand above the node. -/
theorem ask_leaves_trail {d : Dice} {tracer : Tracer} (h : Built (fun _ => True) d)
    (shared : ∀ e ∈ d.nodes, e.isLeaf = false → e.tracer? = some tracer) (t : Table) :
    (d.places.map Place.node).Perm d.nodes ∧
    (∀ op, op ≠ .roll → ∃ new, t.Gains (t.ask d op).2 tracer new ∧
      new.Forall₂ (fun record p => record.Tells t.supply (turned p.above op) p.node)
        (d.places.filter fun p => !p.node.isLeaf && !p.above.any isEvenPower)) ∧
    ((∀ e ∈ d.nodes, e.isExplosion = false) →
      ∃ new, t.Gains (t.ask d .roll).2 tracer new ∧
        new.Forall₂ (fun record p => record.Tells t.supply .roll p.node)
          (d.places.filter fun p => !p.node.isLeaf)) := by
  refine ⟨map_node_placesUnder [] d, fun op hop => ⟨_, (t.extends_ask d op).gains tracer, ?_⟩,
    fun calm => ⟨_, (t.extends_ask d .roll).gains tracer, ?_⟩⟩
  · rw [← Place.recorded_of_ne_roll hop]
    exact records_of_root h t.supply op t.drawn fun e he => ⟨shared e he, fun roll => absurd roll hop⟩
  · have records := records_of_root h t.supply .roll t.drawn fun e he => ⟨shared e he, fun _ => calm e he⟩
    simp only [turned_roll] at records
    rwa [Place.recorded_roll] at records

/-- The double below zero of an even power of a selection and of a sum divided below zero. -/
def turnedSum : Dice :=
  .arithmetic
    (.pool [.arithmetic (.selection [.die .fudge, .die .percentile] none .keepHighest 1 (some .memory)) .power 2
        (some .memory),
      .arithmetic (.pool [.die .fudge] (some .memory)) .divide (.ofInt (-3)) (some .memory)] (some .memory))
    .multiply (.ofInt (-2)) (some .memory)

theorem turnedSum_built : Built (fun _ => True) turnedSum := by
  refine .arithmetic (.pool ?_) trivial
  simp only [List.forall_mem_cons]
  refine ⟨.arithmetic (.selection ?_ (by decide)) (by decide), .arithmetic (.pool ?_) (by decide),
    List.forall_mem_nil _⟩
  · simp only [List.forall_mem_cons]
    exact ⟨.die _, .die _, List.forall_mem_nil _⟩
  · exact List.forall_mem_singleton.mpr (.die _)

theorem turnedSum_shared : ∀ e ∈ turnedSum.nodes, e.isLeaf = false → e.tracer? = some .memory := by
  simp [turnedSum, nodes, nodesAll, isLeaf, tracer?]

theorem turnedSum_trail : Built (fun _ => True) turnedSum ∧
    (∀ e ∈ turnedSum.nodes, e.isLeaf = false → e.tracer? = some .memory) ∧ Operation.maximum ≠ .roll ∧
    (∀ e ∈ turnedSum.nodes, e.isExplosion = false) ∧
    (∃ new, Gains {} (({} : Table).ask turnedSum .maximum).2 .memory new ∧ new.length = 5) ∧
    ∃ new, Gains {} (({} : Table).ask turnedSum .roll).2 .memory new ∧ new.length = 6 := by
  have calm : ∀ e ∈ turnedSum.nodes, e.isExplosion = false := by simp [turnedSum, nodes, nodesAll, isExplosion]
  obtain ⟨-, bound, roll⟩ := ask_leaves_trail turnedSum_built turnedSum_shared {}
  obtain ⟨new, kept, trail⟩ := bound .maximum (by decide)
  obtain ⟨more, kept', trail'⟩ := roll calm
  exact ⟨turnedSum_built, turnedSum_shared, by decide, calm, ⟨new, kept, trail.length_eq⟩, more, kept',
    trail'.length_eq⟩

end Table
end DiceNotation
