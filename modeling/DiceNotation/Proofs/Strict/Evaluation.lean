import DiceNotation.Proofs.Draws.Parsed
import DiceNotation.Proofs.Strict.Fallback

/-! Strict evaluation. The bounds, the highest face and the answers of a tree are found from strict steps only, so that
    nothing comes out where a step has no result. Of a tree that is built or parsed they are all found, and are those
    of the plain evaluation. -/

namespace DiceNotation

open Fallback (resort)

variable (allowed : Fallback → Bool)

/-- Repeated strict evaluations. -/
def Played.whileHolds? (run : Nat → Option (Played α)) (holds : α → Bool) (next : Nat) (done : List (Played α)) :
    Nat → Option (List (Played α))
  | 0 => some done.reverse
  | limit + 1 => do
    let latest ← run next
    if holds latest.value then whileHolds? run holds latest.next (latest :: done) limit
    else some (latest :: done).reverse

theorem Played.whileHolds?_eq {run? : Nat → Option (Played α)} {run : Nat → Played α}
    (h : ∀ next, run? next = some (run next)) (holds : α → Bool) (next limit : Nat) (done : List (Played α)) :
    whileHolds? run? holds next done limit = some (whileHolds run holds next done limit) := by
  induction limit generalizing next done with
  | zero => rfl
  | succ limit ih =>
    simp only [whileHolds?, whileHolds, h, Option.bind_eq_bind, Option.bind_some]
    split
    · exact ih _ _
    · rfl

namespace Dice

mutual
def bounds? : Dice → Option Interval
  | die d => do return ⟨← d.least? allowed, ← d.greatest? allowed⟩
  | foreign leaf => some ⟨leaf.least, leaf.greatest⟩
  | pool items _ => do return .total (← boundsAll? items)
  | selection items _ selector count _ => do
    let ranges ← boundsAll? items
    let lows ← selector.pick? (Outcome.ascending (ranges.map Interval.lo)) count
    let highs ← selector.pick? (Outcome.ascending (ranges.map Interval.hi)) count
    return ⟨.total lows, .total highs⟩
  | explosion inner comparison threshold _ _ => do return comparison.widen threshold (← bounds? inner)
  | arithmetic inner operator operand _ => do operator.hull? allowed operand (← bounds? inner)

def boundsAll? : List Dice → Option (List Interval)
  | [] => some []
  | d :: ds => do return (← bounds? d) :: (← boundsAll? ds)
end

mutual
def highestFace? : Dice → Option Outcome
  | pool items _ => do (← highestFaces? items).max?.or (resort allowed .noItems 0)
  | selection items _ _ _ _ => do (← highestFaces? items).max?.or (resort allowed .noItems 0)
  | explosion inner _ _ _ _ => highestFace? inner
  | d => (bounds? allowed d).map Interval.hi

def highestFaces? : List Dice → Option (List Outcome)
  | [] => some []
  | d :: ds => do return (← highestFace? d) :: (← highestFaces? ds)
end

/-- The answer of a leaf, from its strict faces. -/
def playLeaf? (face : Nat → Option Outcome) (least greatest : Option Outcome) (supply : Supply) (next : Nat) :
    Operation → Option (Played Outcome)
  | .roll => do return ⟨← face (supply next), next + 1, []⟩
  | .minimum => do return ⟨← least, next, []⟩
  | .maximum => do return ⟨← greatest, next, []⟩

def repeated? (comparison : Comparison) (threshold : Outcome) (limit next : Nat)
    (run : Operation → Nat → Option (Played Outcome)) : Operation → Option (Played (List Outcome))
  | .roll => do return .collect next (← Played.whileHolds? (run .roll) (comparison.holds · threshold) next [] limit)
  | .minimum => do return (← run .minimum next).map fun lo => [comparison.lower threshold lo]
  | .maximum => do return (← run .maximum next).map fun hi => [comparison.upper threshold hi]

mutual
/-- Asks a tree a question strictly. -/
def play? (supply : Supply) : Dice → Operation → Nat → Option (Played Outcome)
  | die d, op, next => playLeaf? (d.face? allowed) (d.least? allowed) (d.greatest? allowed) supply next op
  | foreign leaf, op, next => playLeaf? leaf.face? (some leaf.least) (some leaf.greatest) supply next op
  | pool items tracer, op, next => do
    let played ← playAll? supply items op next
    return conclude (.pool items tracer) op (played.map .sum)
  | selection items poolTracer selector count tracer, op, next => do
    let played ← playAll? supply items op next
    let kept ← selector.pick? (Outcome.ascending played.value) count
    return conclude (.selection items poolTracer selector count tracer) op (played.map fun _ => .sum kept)
  | explosion inner comparison threshold limit tracer, op, next => do
    let played ← repeated? comparison threshold limit next (play? supply inner) op
    return conclude (.explosion inner comparison threshold limit tracer) op (played.map .sum)
  | arithmetic inner operator operand tracer, op, next => do
    let played ← match operator.asks operand op with
      | some asked => play? supply inner asked next
      | none => do
        let range ← bounds? allowed inner
        let extreme ← operator.extremeValue? allowed operand op (operator.candidates operand range)
        pure ⟨extreme, next, []⟩
    let result ← operator.result? allowed played.value operand
    let concluded := conclude (.arithmetic inner operator operand tracer) op
      (played.map fun value => .step value operator operand)
    return { concluded with value := result }

def playAll? (supply : Supply) : List Dice → Operation → Nat → Option (Played (List Outcome))
  | [], _, next => some ⟨[], next, []⟩
  | d :: ds, op, next => do
    let first ← play? supply d op next
    let others ← playAll? supply ds op first.next
    return ⟨first.value :: others.value, others.next, first.emitted ++ others.emitted⟩
end

/-- Without anything to fall back on, a built die of too many sides has no greatest face, a roll of a built quotient
    has no result, and the parsed tree of the empty text has no highest face. -/
theorem strict_evaluation_eq_none :
    (∃ d, Die.ofSides 9223372036854775808 = .ok d ∧
      play? (fun _ => false) (fun _ => 0) (.die d) .maximum 0 = none) ∧
    (∃ d e, Die.ofFaces [.least, 0] = .ok d ∧ (Dice.die d).apply .divide (.ofInt (-1)) = .ok e ∧
      play? (fun _ => false) (fun _ => 0) e .roll 0 = none) ∧
    ∃ d, parse "" ⟨none, 1⟩ = .ok d ∧ d.highestFace? (fun _ => false) = none :=
  ⟨⟨_, rfl, rfl⟩, ⟨_, _, rfl, rfl, rfl⟩, _, by with_unfolding_all rfl, rfl⟩

/-! ### Strict evaluation of built trees -/

/-- What a node may have to fall back on: the greatest outcome for what a die of too many sides or a quotient by minus
    one shows past the range, and zero for the highest face of an empty pool. -/
inductive FallsBack : Dice → Fallback → Prop
  | sides {d : Die} (oversized : d.Oversized) : FallsBack (.die d) .sidesPastRange
  | quotient {inner : Dice} {operand : Outcome} {tracer : Option Tracer} (turned : operand.val = -1) :
    FallsBack (.arithmetic inner .divide operand tracer) .quotientPastRange
  | empty {tracer : Option Tracer} : FallsBack (.pool [] tracer) .noItems

/-- Whether what the nodes of a tree may have to fall back on is allowed. -/
def Allowed (allowed : Fallback → Bool) (d : Dice) : Prop := ∀ e ∈ d.nodes, ∀ f, e.FallsBack f → allowed f = true

variable {allowed} {P : Foreign → Prop} {supply : Supply} {d e inner : Dice} {items : List Dice} {op : Operation}
  {operator : Operator} {operand : Outcome} {tracer : Option Tracer}

namespace Allowed

theorem self {f : Fallback} (h : Allowed allowed d) (falls : d.FallsBack f) : allowed f := h d (mem_nodes_self d) f falls

theorem below (h : Allowed allowed d) (he : e ∈ d.children) : Allowed allowed e := forall_nodes_of_children h he

theorem wide {d : Die} (h : Allowed allowed (.die d)) (oversized : d.Oversized) : allowed .sidesPastRange :=
  h.self (.sides oversized)

theorem empty (h : Allowed allowed (.pool items tracer)) (none : items = []) : allowed .noItems := by
  cases none
  exact h.self .empty

theorem turned (h : Allowed allowed (.arithmetic inner operator operand tracer)) (division : operator = .divide)
    (minus : operand.val = -1) : allowed .quotientPastRange := by
  cases division
  exact h.self (.quotient minus)

end Allowed

theorem boundsAll?_eq (h : ∀ d ∈ items, d.bounds? allowed = some d.bounds) :
    boundsAll? allowed items = some (boundsAll items) := by
  induction items with
  | nil => rfl
  | cons d ds ih =>
    obtain ⟨first, others⟩ := List.forall_mem_cons.mp h
    rw [boundsAll?, first, ih others]
    rfl

theorem bounds?_eq (h : Built P d) (meant : Allowed allowed d) : d.bounds? allowed = some d.bounds := by
  induction h with
  | die d =>
    rw [bounds?, Die.least?_eq, Die.greatest?_eq meant.wide]
    rfl
  | foreign => rfl
  | @sum p _ ih =>
    rw [Pool.sum, bounds?, boundsAll?_eq fun d hd => ih d hd (meant.below hd)]
    rfl
  | @select p selector count _ _ _ built ih =>
    obtain ⟨⟨-, le⟩, rfl⟩ := Pool.select_eq_ok_iff.mp built
    have lows : count ≤ (Outcome.ascending ((boundsAll p.items).map Interval.lo)).length := by simpa using le
    have highs : count ≤ (Outcome.ascending ((boundsAll p.items).map Interval.hi)).length := by simpa using le
    simp only [bounds?, boundsAll?_eq fun d hd => ih d hd (meant.below hd), Option.bind_eq_bind, Option.bind_some,
      selector.pick?_eq lows, selector.pick?_eq highs]
    rfl
  | explode _ built ih =>
    obtain ⟨-, rfl⟩ := explode_eq_ok_iff.mp built
    rw [bounds?, ih (meant.below List.mem_cons_self)]
    rfl
  | apply _ built ih =>
    obtain ⟨accepts, rfl⟩ := apply_eq_ok_iff.mp built
    rw [bounds?, ih (meant.below List.mem_cons_self)]
    exact Operator.hull?_eq accepts meant.turned _

theorem highestFaces?_eq (h : ∀ d ∈ items, d.highestFace? allowed = some d.highestFace) :
    highestFaces? allowed items = some (highestFaces items) := by
  induction items with
  | nil => rfl
  | cons d ds ih =>
    obtain ⟨first, others⟩ := List.forall_mem_cons.mp h
    rw [highestFaces?, first, ih others]
    rfl

/-- Only of no items is there no highest face. -/
theorem max?_highestFaces_or (empty : items = [] → allowed .noItems) :
    (highestFaces items).max?.or (resort allowed .noItems 0) = some ((highestFaces items).max?.getD 0) := by
  cases items with
  | nil => exact if_pos (empty rfl)
  | cons => rfl

theorem highestFace?_eq (h : Built P d) (meant : Allowed allowed d) : d.highestFace? allowed = some d.highestFace := by
  induction h with
  | die d =>
    show (bounds? allowed (.die d)).map Interval.hi = _
    rw [bounds?_eq (.die d : Built P (.die d)) meant]
    rfl
  | foreign => rfl
  | @sum p _ ih =>
    rw [Pool.sum, highestFace?, highestFaces?_eq fun d hd => ih d hd (meant.below hd)]
    exact max?_highestFaces_or meant.empty
  | @select p selector count _ _ _ built ih =>
    obtain ⟨⟨one, le⟩, rfl⟩ := Pool.select_eq_ok_iff.mp built
    have filled : p.items ≠ [] := List.ne_nil_of_length_pos (by omega)
    rw [highestFace?, highestFaces?_eq fun d hd => ih d hd (meant.below hd)]
    exact max?_highestFaces_or fun none => absurd none filled
  | explode _ built ih =>
    obtain ⟨-, rfl⟩ := explode_eq_ok_iff.mp built
    exact ih (meant.below List.mem_cons_self)
  | apply inside built _ =>
    have whole := bounds?_eq (.apply inside built) meant
    obtain ⟨-, rfl⟩ := apply_eq_ok_iff.mp built
    show (bounds? allowed (.arithmetic _ _ _ _)).map Interval.hi = _
    rw [whole]
    rfl

theorem repeated?_eq {run? : Operation → Nat → Option (Played Outcome)} {run : Operation → Nat → Played Outcome}
    (h : ∀ op next, run? op next = some (run op next)) (comparison : Comparison) (threshold : Outcome)
    (limit next : Nat) (op : Operation) :
    repeated? comparison threshold limit next run? op = some (repeated comparison threshold limit next run op) := by
  cases op with
  | roll =>
    rw [repeated?, Played.whileHolds?_eq (h .roll)]
    rfl
  | minimum =>
    rw [repeated?, h]
    rfl
  | maximum =>
    rw [repeated?, h]
    rfl

theorem playLeaf?_eq {face? : Nat → Option Outcome} {face : Nat → Outcome} (h : ∀ draw, face? draw = some (face draw))
    (range : Interval) (next : Nat) (op : Operation) :
    playLeaf? face? (some range.lo) (some range.hi) supply next op = some (playLeaf face range supply next op) := by
  cases op with
  | roll =>
    rw [playLeaf?, h]
    rfl
  | minimum => rfl
  | maximum => rfl

theorem playAll?_eq (h : ∀ d ∈ items, ∀ next, play? allowed supply d op next = some (play supply d op next))
    (next : Nat) : playAll? allowed supply items op next = some (playAll supply items op next) := by
  induction items generalizing next with
  | nil => rfl
  | cons d ds ih =>
    obtain ⟨first, others⟩ := List.forall_mem_cons.mp h
    simp only [playAll?, first, ih others, Option.bind_eq_bind, Option.bind_some]
    rfl

theorem length_playAll (supply : Supply) (items : List Dice) (op : Operation) (next : Nat) :
    (playAll supply items op next).value.length = items.length :=
  (playAll_forall₂ (R := fun _ _ => True) (fun _ _ _ => trivial) next).length_eq.symm

theorem play?_eq (h : Built Foreign.Rollable d) (meant : Allowed allowed d) (op : Operation) (next : Nat) :
    play? allowed supply d op next = some (play supply d op next) := by
  induction h generalizing op next with
  | die d =>
    rw [play?, Die.least?_eq, Die.greatest?_eq meant.wide]
    exact playLeaf?_eq (Die.face?_eq meant.wide) ⟨d.least, d.greatest⟩ next op
  | @foreign leaf rollable =>
    rw [play?]
    exact playLeaf?_eq rollable.face?_eq ⟨leaf.least, leaf.greatest⟩ next op
  | @sum p _ ih =>
    rw [Pool.sum, play?, playAll?_eq fun d hd => ih d hd (meant.below hd) op]
    rfl
  | @select p selector count _ _ _ built ih =>
    obtain ⟨⟨-, le⟩, rfl⟩ := Pool.select_eq_ok_iff.mp built
    -- The builder counted the items; what is sliced are their outcomes, of which there are as many.
    have inside : count ≤ (Outcome.ascending (playAll supply p.items op next).value).length := by
      rwa [Outcome.length_ascending, length_playAll]
    simp only [play?, playAll?_eq fun d hd => ih d hd (meant.below hd) op, Option.bind_eq_bind, Option.bind_some,
      selector.pick?_eq inside]
    rfl
  | @explode inner _ comparison threshold limit tracer _ built ih =>
    obtain ⟨-, rfl⟩ := explode_eq_ok_iff.mp built
    rw [play?, repeated?_eq (ih (meant.below List.mem_cons_self))]
    rfl
  | @apply inner _ operator operand tracer inside built ih =>
    obtain ⟨accepts, rfl⟩ := apply_eq_ok_iff.mp built
    have within : Allowed allowed inner := meant.below List.mem_cons_self
    -- The inner tree is asked, or the operator is mixed and what it is applied to is found from the inner bounds.
    rw [play?, play]
    cases operator.asks operand op with
    | none =>
      simp only [bounds?_eq inside within, Operator.extremeValue?_eq accepts meant.turned,
        Operator.result?_eq accepts meant.turned, Option.bind_eq_bind, Option.bind_some]
      rfl
    | some asked =>
      simp only [ih within, Operator.result?_eq accepts meant.turned, Option.bind_eq_bind, Option.bind_some]
      rfl

/-- Of a tree that comes from the builders, its foreign leaves having faces to show, or from a text, no question fails:
    each step has a result of its own, but for what a node may have to fall back on. -/
theorem strict_evaluation_eq (h : Built Foreign.Rollable d ∨ ∃ text settings, parse text settings = .ok d)
    (meant : Allowed allowed d) :
    (∀ supply op next, play? allowed supply d op next = some (play supply d op next)) ∧
      d.bounds? allowed = some d.bounds ∧ d.highestFace? allowed = some d.highestFace := by
  have built : Built Foreign.Rollable d := h.elim id fun ⟨_, _, parsed⟩ => built_of_parse parsed
  exact ⟨fun supply op next => play?_eq built meant op next, bounds?_eq built meant, highestFace?_eq built meant⟩

/-- The lower of a foreign leaf and a fudge die, turned below zero, beside a power and an explosion. -/
def turnedCard : Dice :=
  .pool [.arithmetic
      (.selection [.foreign ⟨"card", [.least, 3], .least, 3, false⟩, .die .fudge] none .keepLowest 1 none)
      .divide (.ofInt (-1)) (some .memory),
    .arithmetic (.explosion (.die .percentile) .greater 50 3 none) .power 2 none] (some .memory)

theorem turnedCard_built : Built Foreign.Rollable turnedCard := by
  refine .pool (List.forall_mem_cons.mpr ⟨.arithmetic (.selection ?_ (by decide)) (by decide),
    List.forall_mem_singleton.mpr (.arithmetic (.explosion (.die _) (by decide) (by decide)) (by decide))⟩)
  exact List.forall_mem_cons.mpr ⟨.foreign (List.cons_ne_nil _ _), List.forall_mem_singleton.mpr (.die _)⟩

theorem turnedCard_allowed : Allowed (· = .quotientPastRange) turnedCard := by
  intro e he f falls
  cases falls with
  | @sides d oversized =>
    have small : d = .fudge ∨ d = .percentile := by simpa [turnedCard, nodes, nodesAll] using he
    rcases small with rfl | rfl <;> exact oversized.elim
  | quotient => rfl
  | empty => simp [turnedCard, nodes, nodesAll] at he

theorem turnedCard_strict :
    play? (· = .quotientPastRange) (fun _ => 0) turnedCard .roll 0 = some (play (fun _ => 0) turnedCard .roll 0) ∧
      turnedCard.bounds? (· = .quotientPastRange) = some turnedCard.bounds ∧
      turnedCard.highestFace? (· = .quotientPastRange) = some turnedCard.highestFace := by
  obtain ⟨answered, rest⟩ := strict_evaluation_eq (.inl turnedCard_built) turnedCard_allowed
  exact ⟨answered (fun _ => 0) .roll 0, rest⟩

end Dice
end DiceNotation
