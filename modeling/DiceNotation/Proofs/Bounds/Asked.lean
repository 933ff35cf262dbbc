import DiceNotation.Dice.Build
import DiceNotation.Dice.Evaluate
import DiceNotation.Proofs.Faces
import DiceNotation.Proofs.Nodes
import DiceNotation.Proofs.Operator.Hull

/-! Trees that the builders make, and what they answer when they are asked for their minimum or maximum: the
    ends of their bounds, which are in order. The same holds of every node below. -/

namespace DiceNotation

namespace Interval

/-- The end of an interval that a question about bounds is about. -/
def side (range : Interval) : Operation → Outcome
  | .maximum => range.hi
  | _ => range.lo

theorem side_total (ranges : List Interval) (op : Operation) :
    (total ranges).side op = .total (ranges.map (·.side op)) := by
  cases op <;> rfl

theorem side_select (s : Selector) (ranges : List Interval) (k : Nat) (op : Operation) :
    (s.total ranges k).side op = .total (s.kept (ranges.map (·.side op)) k) := by
  cases op <;> rfl

end Interval

namespace Comparison
variable {c : Comparison} {t lo hi : Outcome}

theorem lower_le : c.lower t lo ≤ lo := by
  unfold lower
  split
  · exact lo.least_le
  · exact Outcome.le_refl _

theorem le_upper : hi ≤ c.upper t hi := by
  unfold upper
  split
  · exact hi.le_greatest
  · exact Outcome.le_refl _

end Comparison

namespace Dice

/-- A tree that the builders make out of dice and of foreign leaves that satisfy `P`. -/
inductive Built (P : Foreign → Prop) : Dice → Prop
  | die (d : Die) : Built P (.die d)
  | foreign {leaf : Foreign} (holds : P leaf) : Built P (.foreign leaf)
  | sum {p : Pool} (items : ∀ d ∈ p.items, Built P d) : Built P p.sum
  | select {p : Pool} {selector : Selector} {count : Nat} {tracer : Option Tracer} {d : Dice}
      (items : ∀ d ∈ p.items, Built P d) (built : p.select selector count tracer = .ok d) : Built P d
  | explode {inner d : Dice} {comparison : Comparison} {threshold : Outcome} {limit : Nat}
      {tracer : Option Tracer} (inside : Built P inner)
      (built : inner.explode comparison threshold limit tracer = .ok d) : Built P d
  | apply {inner d : Dice} {operator : Operator} {operand : Outcome} {tracer : Option Tracer}
      (inside : Built P inner) (built : inner.apply operator operand tracer = .ok d) : Built P d

variable {P : Foreign → Prop} {supply : Supply} {d : Dice} {items : List Dice}

namespace Built
variable {tracer : Option Tracer}

theorem pool (h : ∀ d ∈ items, Built P d) : Built P (.pool items tracer) := .sum (p := ⟨items, tracer⟩) h

theorem selection {poolTracer : Option Tracer} {selector : Selector} {count : Nat} (h : ∀ d ∈ items, Built P d)
    (hcount : 0 < count ∧ count ≤ items.length) : Built P (.selection items poolTracer selector count tracer) :=
  .select (p := ⟨items, poolTracer⟩) h (Pool.select_eq_ok_iff.mpr ⟨hcount, rfl⟩)

theorem explosion {comparison : Comparison} {threshold : Outcome} {limit : Nat} (h : Built P d)
    (splits : comparison.Splits threshold d.bounds) (hlimit : 1 ≤ limit) :
    Built P (.explosion d comparison threshold limit tracer) :=
  .explode h (explode_eq_ok_iff.mpr ⟨splits, by rw [Nat.max_eq_right hlimit]⟩)

theorem arithmetic {operator : Operator} {operand : Outcome} (h : Built P d) (accepts : operator.Accepts operand) :
    Built P (.arithmetic d operator operand tracer) :=
  .apply h (apply_eq_ok_iff.mpr ⟨accepts, rfl⟩)

end Built

/-! ### Evaluation of a list -/

/-- What each item answers, whichever draw it starts from, the list answers place by place. -/
theorem playAll_forall₂ {R : Dice → Outcome → Prop} {op : Operation}
    (h : ∀ d ∈ items, ∀ next, R d (play supply d op next).value) (next : Nat) :
    items.Forall₂ R (playAll supply items op next).value := by
  induction items generalizing next with
  | nil => exact .nil
  | cons d ds ih =>
    exact .cons (h d List.mem_cons_self next) (ih (fun e he => h e (List.mem_cons_of_mem d he)) _)

theorem playAll_value_eq_map {f : Dice → Outcome} {op : Operation}
    (h : ∀ d ∈ items, ∀ next, (play supply d op next).value = f d) (next : Nat) :
    (playAll supply items op next).value = items.map f := by
  induction items generalizing next with
  | nil => rfl
  | cons d ds ih =>
    rw [playAll, List.map_cons, ← ih (fun e he => h e (List.mem_cons_of_mem d he)), h d List.mem_cons_self]

/-! ### Bounds of built trees -/

/-- The bounds of a built tree are in order if those of its foreign leaves are. -/
theorem bounds_ordered (h : Built P d) (ordered : ∀ leaf, P leaf → leaf.least ≤ leaf.greatest) :
    d.bounds.lo ≤ d.bounds.hi := by
  have pairs : ∀ {items : List Dice}, (∀ d ∈ items, d.bounds.lo ≤ d.bounds.hi) →
      (items.map fun d => d.bounds.lo).Forall₂ (· ≤ ·) (items.map fun d => d.bounds.hi) := fun hitems =>
    List.forall₂_map_left_iff.mpr (List.forall₂_map_right_iff.mpr (List.forall₂_same.mpr hitems))
  induction h with
  | die d => exact Outcome.le_trans (d.face_mem 0).1 (d.face_mem 0).2
  | foreign holds => exact ordered _ holds
  | @sum p _ ih =>
    simp only [Pool.sum, bounds, boundsAll_eq_map, Interval.total, List.map_map]
    exact Outcome.total_mono (pairs ih)
  | select _ built ih =>
    obtain ⟨-, rfl⟩ := Pool.select_eq_ok_iff.mp built
    simp only [bounds, boundsAll_eq_map, Selector.total, List.map_map]
    exact Selector.total_kept_mono (pairs ih) _ _
  | explode _ built ih =>
    obtain ⟨-, rfl⟩ := explode_eq_ok_iff.mp built
    exact Outcome.le_trans Comparison.lower_le (Outcome.le_trans ih Comparison.le_upper)
  | apply _ built _ =>
    obtain ⟨-, rfl⟩ := apply_eq_ok_iff.mp built
    exact Operator.hull_ordered

theorem playLeaf_value_eq_side {face : Nat → Outcome} {range : Interval} {op : Operation} (hop : op ≠ .roll)
    (next : Nat) : (playLeaf face range supply next op).value = range.side op := by
  cases op with
  | roll => exact absurd rfl hop
  | minimum => rfl
  | maximum => rfl

section
variable {inner : Dice} {operator : Operator} {operand : Outcome} {range : Interval} {tracer : Option Tracer}
  {op asked : Operation}

theorem play_arithmetic_of_asks (h : operator.asks operand op = some asked) (next : Nat) :
    (play supply (.arithmetic inner operator operand tracer) op next).value =
      operator.apply (play supply inner asked next).value operand := by
  simp only [play, h]
  rfl

theorem play_arithmetic_of_none (h : operator.asks operand op = none) (next : Nat) :
    (play supply (.arithmetic inner operator operand tracer) op next).value =
      operator.apply (operator.extremeValue operand op inner.bounds) operand := by
  simp only [play, h]
  rfl

theorem asks_of_rising (ht : operator.trend operand = .rising) (op : Operation) :
    operator.asks operand op = some op := by
  cases op <;> simp [Operator.asks, ht]

theorem asks_of_falling (ht : operator.trend operand = .falling) (op : Operation) :
    operator.asks operand op = some op.opposite := by
  cases op <;> simp [Operator.asks, ht, Operation.opposite]

theorem asks_of_mixed (ht : operator.trend operand = .mixed) (hop : op ≠ .roll) : operator.asks operand op = none := by
  cases op with
  | roll => exact absurd rfl hop
  | minimum => simp [Operator.asks, ht]
  | maximum => simp [Operator.asks, ht]

theorem asks_ne_roll (hop : op ≠ .roll) (h : operator.asks operand op = some asked) : asked ≠ .roll := by
  cases ht : operator.trend operand with
  | rising =>
    rw [asks_of_rising ht] at h
    cases h
    exact hop
  | falling =>
    rw [asks_of_falling ht] at h
    cases h
    exact fun h => hop (Operation.opposite_eq_roll_iff.mp h)
  | mixed =>
    rw [asks_of_mixed ht hop] at h
    cases h

/-- The question for the inner tree asks for the end whose result is the end of the hull. -/
theorem side_hull_of_asks (accepts : operator.Accepts operand) (ordered : range.lo ≤ range.hi) (hop : op ≠ .roll)
    (h : operator.asks operand op = some asked) :
    asked ≠ .roll ∧ (operator.hull operand range).side op = operator.apply (range.side asked) operand := by
  refine ⟨asks_ne_roll hop h, ?_⟩
  cases ht : operator.trend operand with
  | rising =>
    rw [asks_of_rising ht] at h
    cases h
    rw [Operator.hull_of_rising accepts ht ordered]
    cases op <;> rfl
  | falling =>
    rw [asks_of_falling ht] at h
    cases h
    rw [Operator.hull_of_falling accepts ht ordered]
    cases op with
    | roll => exact absurd rfl hop
    | minimum => rfl
    | maximum => rfl
  | mixed =>
    rw [asks_of_mixed ht hop] at h
    cases h

theorem side_hull (hop : op ≠ .roll) :
    (operator.hull operand range).side op = operator.apply (operator.extremeValue operand op range) operand := by
  cases op with
  | roll => exact absurd rfl hop
  | minimum => rfl
  | maximum => rfl

end

/-- Asked for its minimum or its maximum, a built tree answers with that end of its bounds. -/
theorem play_value_eq_side (h : Built P d) (ordered : ∀ leaf, P leaf → leaf.least ≤ leaf.greatest)
    {op : Operation} (hop : op ≠ .roll) (next : Nat) : (play supply d op next).value = d.bounds.side op := by
  induction h generalizing op next with
  | die d => exact playLeaf_value_eq_side hop next
  | foreign holds => exact playLeaf_value_eq_side hop next
  | @sum p _ ih =>
    show Outcome.total (playAll supply p.items op next).value = (Interval.total (boundsAll p.items)).side op
    rw [playAll_value_eq_map (fun d hd next => ih d hd hop next), Interval.side_total, boundsAll_eq_map,
      List.map_map]
    rfl
  | @select p selector count _ _ _ built ih =>
    obtain ⟨-, rfl⟩ := Pool.select_eq_ok_iff.mp built
    show Outcome.total (selector.kept (playAll supply p.items op next).value count) =
      (selector.total (boundsAll p.items) count).side op
    rw [playAll_value_eq_map (fun d hd next => ih d hd hop next), Interval.side_select, boundsAll_eq_map,
      List.map_map]
    rfl
  | @explode inner _ comparison threshold limit tracer _ built ih =>
    obtain ⟨-, rfl⟩ := explode_eq_ok_iff.mp built
    cases op with
    | roll => exact absurd rfl hop
    | minimum =>
      show Outcome.total [comparison.lower threshold (play supply inner .minimum next).value] = _
      rw [ih hop, Outcome.total_singleton]
      rfl
    | maximum =>
      show Outcome.total [comparison.upper threshold (play supply inner .maximum next).value] = _
      rw [ih hop, Outcome.total_singleton]
      rfl
  | @apply inner _ operator operand tracer inside built ih =>
    obtain ⟨accepts, rfl⟩ := apply_eq_ok_iff.mp built
    cases asks : operator.asks operand op with
    | none => rw [play_arithmetic_of_none asks, bounds, side_hull hop]
    | some asked =>
      obtain ⟨hasked, hside⟩ := side_hull_of_asks accepts (bounds_ordered inside ordered) hop asks
      rw [play_arithmetic_of_asks asks, ih hasked, bounds, hside]

theorem minimum_eq (h : Built P d) (ordered : ∀ leaf, P leaf → leaf.least ≤ leaf.greatest) :
    d.minimum = d.bounds.lo :=
  play_value_eq_side h ordered (show Operation.minimum ≠ .roll by decide) 0

theorem maximum_eq (h : Built P d) (ordered : ∀ leaf, P leaf → leaf.least ≤ leaf.greatest) :
    d.maximum = d.bounds.hi :=
  play_value_eq_side h ordered (show Operation.maximum ≠ .roll by decide) 0

/-! ### Bounds of every node -/

theorem Built.of_mem_nodes (h : Built P d) : ∀ e ∈ d.nodes, Built P e := by
  induction h with
  | die d => exact List.forall_mem_singleton.mpr (.die d)
  | foreign holds => exact List.forall_mem_singleton.mpr (.foreign holds)
  | sum items ih => exact List.forall_mem_cons.mpr ⟨.sum items, forall_mem_nodesAll.mpr ih⟩
  | select items built ih =>
    obtain ⟨-, rfl⟩ := Pool.select_eq_ok_iff.mp built
    exact List.forall_mem_cons.mpr ⟨.select items built, forall_mem_nodesAll.mpr ih⟩
  | explode inside built ih =>
    obtain ⟨-, rfl⟩ := explode_eq_ok_iff.mp built
    exact List.forall_mem_cons.mpr ⟨.explode inside built, ih⟩
  | apply inside built ih =>
    obtain ⟨-, rfl⟩ := apply_eq_ok_iff.mp built
    exact List.forall_mem_cons.mpr ⟨.apply inside built, ih⟩

/-- At every node of a tree that is built out of dice and of foreign leaves with their bounds in order, the
    bounds are the minimum and the maximum that the node answers when it is asked, and they are in order. -/
theorem bounds_eq_minimum_maximum (h : Built (fun leaf => leaf.least ≤ leaf.greatest) d) :
    ∀ e ∈ d.nodes, e.bounds = ⟨e.minimum, e.maximum⟩ ∧ e.bounds.lo ≤ e.bounds.hi := by
  intro e he
  have built := h.of_mem_nodes e he
  have ordered : ∀ leaf : Foreign, leaf.least ≤ leaf.greatest → leaf.least ≤ leaf.greatest := fun _ => id
  rw [minimum_eq built ordered, maximum_eq built ordered]
  exact ⟨rfl, bounds_ordered built ordered⟩

/-- The square of the higher of a foreign leaf without faces and a fudge die, which spans zero, and an explosion,
    added and doubled below zero. Only some of the nodes are traced. -/
def tracedSquare : Dice :=
  .arithmetic
    (.pool [.arithmetic
        (.selection [.foreign ⟨"card", [], .ofInt (-5), 7, false⟩, .die .fudge] (some .memory) .keepHighest 1 none)
        .power 2 (some .memory),
      .explosion (.die .percentile) .greater 50 3 (some (.log .debug))] none)
    .multiply (.ofInt (-2)) (some .memory)

theorem tracedSquare_built : Built (fun leaf => leaf.least ≤ leaf.greatest) tracedSquare := by
  refine .arithmetic (.pool ?_) trivial
  simp only [List.forall_mem_cons]
  refine ⟨.arithmetic (.selection ?_ (by decide)) (by decide), .explosion (.die _) (by decide) (by decide),
    List.forall_mem_nil _⟩
  simp only [List.forall_mem_cons]
  exact ⟨.foreign (by decide), .die _, List.forall_mem_nil _⟩

theorem tracedSquare_bounds : tracedSquare.bounds = ⟨tracedSquare.minimum, tracedSquare.maximum⟩ ∧
    tracedSquare.bounds.lo ≤ tracedSquare.bounds.hi :=
  bounds_eq_minimum_maximum tracedSquare_built tracedSquare (mem_nodes_self _)

end Dice
end DiceNotation
