import DiceNotation.Proofs.Bounds.Asked

/-! Bounds are exact where nothing explodes: some draws make the roll the minimum, and some make it the maximum.
    Each item of a pool takes its own draws, so the draws for one end of every item, put one after the other,
    bring the pool to that end. Only an even power over values on both sides of zero breaks this, since it asks
    for a value between the ends. -/

namespace DiceNotation

namespace Supply

/-- The draws from number `next` on begin with the given ones. -/
def Deals (supply : Supply) (next : Nat) : List Nat → Prop
  | [] => True
  | draw :: draws => supply next = draw ∧ supply.Deals (next + 1) draws

theorem deals_append {supply : Supply} {next : Nat} {a b : List Nat} :
    supply.Deals next (a ++ b) ↔ supply.Deals next a ∧ supply.Deals (next + a.length) b := by
  induction a generalizing next with
  | nil => exact ⟨fun h => ⟨trivial, h⟩, fun h => h.2⟩
  | cons draw a ih =>
    rw [List.cons_append, Deals, ih, Deals, and_assoc, List.length_cons, Nat.add_right_comm, Nat.add_assoc]

/-- A list of draws, with zeros after it. -/
def ofList (draws : List Nat) : Supply := fun k => draws.getD k 0

theorem deals_ofList (draws : List Nat) : (ofList draws).Deals 0 draws := by
  have shifted : ∀ front, (ofList (front ++ draws)).Deals front.length draws := by
    induction draws with
    | nil => exact fun _ => trivial
    | cons draw draws ih =>
      intro front
      refine ⟨by simp [ofList], ?_⟩
      have := ih (front ++ [draw])
      rwa [List.append_assoc, List.length_append] at this
  exact shifted []

end Supply

namespace Dice
variable {d : Dice} {a : Outcome} {items : List Dice}

/-- Some draws make the roll of a tree show an outcome, and it takes no other draws. -/
def Attains (d : Dice) (a : Outcome) : Prop :=
  ∃ draws : List Nat, ∀ supply next, Supply.Deals supply next draws →
    (play supply d .roll next).value = a ∧ (play supply d .roll next).next = next + draws.length

/-- Some draws make the rolls of a list of trees show a list of outcomes, and they take no other draws. -/
def AttainsAll (items : List Dice) (values : List Outcome) : Prop :=
  ∃ draws : List Nat, ∀ supply next, Supply.Deals supply next draws →
    (playAll supply items .roll next).value = values ∧
      (playAll supply items .roll next).next = next + draws.length

/-- Each tree takes its draws after those of the trees before it. -/
theorem attainsAll_of_forall₂ {values : List Outcome} (h : items.Forall₂ Attains values) :
    AttainsAll items values := by
  induction h with
  | nil => exact ⟨[], fun _ _ _ => ⟨rfl, rfl⟩⟩
  | cons first _ ih =>
    obtain ⟨draws, hfirst⟩ := first
    obtain ⟨more, hothers⟩ := ih
    refine ⟨draws ++ more, fun supply next dealt => ?_⟩
    obtain ⟨dealt, dealtMore⟩ := Supply.deals_append.mp dealt
    obtain ⟨value, after⟩ := hfirst supply next dealt
    obtain ⟨values, last⟩ := hothers supply _ dealtMore
    rw [← after] at values last
    exact ⟨by rw [playAll, value, values], by rw [playAll, last, after, List.length_append, Nat.add_assoc]⟩

theorem attains_leaf {face : Nat → Outcome} {range : Interval} (draw : Nat)
    (h : ∀ supply next, play supply d .roll next = playLeaf face range supply next .roll) (ha : face draw = a) :
    d.Attains a := by
  refine ⟨[draw], fun supply next dealt => ?_⟩
  rw [h, ← ha, ← dealt.1]
  exact ⟨rfl, rfl⟩

/-- A tree without explosions and foreign leaves, whose even powers are over values on one side of zero. -/
inductive Calm : Dice → Prop
  | die (d : Die) : Calm (.die d)
  | pool {items : List Dice} {tracer : Option Tracer} (items_calm : ∀ d ∈ items, Calm d) : Calm (.pool items tracer)
  | selection {items : List Dice} {poolTracer tracer : Option Tracer} {selector : Selector} {count : Nat}
      (items_calm : ∀ d ∈ items, Calm d) : Calm (.selection items poolTracer selector count tracer)
  | arithmetic {inner : Dice} {operator : Operator} {operand : Outcome} {tracer : Option Tracer}
      (inner_calm : Calm inner)
      (one_side : operator = .power → 0 < operand.val → operand.val % 2 = 0 →
        ¬(inner.bounds.lo < 0 ∧ 0 < inner.bounds.hi)) : Calm (.arithmetic inner operator operand tracer)

/-- Where no even power spans zero, the ends of a hull are results of the ends of the interval. -/
theorem extremeValue_eq_end {operator : Operator} {operand : Outcome} {range : Interval}
    (accepts : operator.Accepts operand)
    (one_side : operator = .power → 0 < operand.val → operand.val % 2 = 0 → ¬(range.lo < 0 ∧ 0 < range.hi))
    (op : Operation) :
    operator.extremeValue operand op range = range.lo ∨ operator.extremeValue operand op range = range.hi := by
  rcases Operator.mem_candidates_iff.mp (Operator.extremeValue_mem_candidates op) with h | h | ⟨-, ht, hspan⟩
  · exact Or.inl h
  · exact Or.inr h
  · obtain ⟨rfl, hne, heven⟩ := Operator.mixed_iff.mp ht
    have := accepts.1
    exact absurd hspan (one_side rfl (by omega) heven)

/-- A node that takes the draws of its items, and makes its value from theirs, attains what is made from values
    that the items attain. -/
theorem AttainsAll.node {f : List Outcome → Outcome} {values : List Outcome} (h : AttainsAll items values)
    (made : ∀ supply next, (play supply d .roll next).value = f (playAll supply items .roll next).value ∧
      (play supply d .roll next).next = (playAll supply items .roll next).next) : d.Attains (f values) := by
  obtain ⟨draws, h⟩ := h
  refine ⟨draws, fun supply next dealt => ?_⟩
  obtain ⟨value, last⟩ := h supply next dealt
  obtain ⟨madeValue, madeNext⟩ := made supply next
  rw [madeValue, value, madeNext, last]
  exact ⟨rfl, rfl⟩

theorem attains_apply {operator : Operator} {operand : Outcome} {tracer : Option Tracer} (h : d.Attains a) :
    (arithmetic d operator operand tracer).Attains (operator.apply a operand) := by
  obtain ⟨draws, h⟩ := h
  refine ⟨draws, fun supply next dealt => ?_⟩
  obtain ⟨value, last⟩ := h supply next dealt
  exact ⟨congrArg (operator.apply · operand) value, last⟩

theorem attainsAll_side {op : Operation} (h : ∀ d ∈ items, d.Attains (d.bounds.side op)) :
    AttainsAll items (items.map fun d => d.bounds.side op) :=
  attainsAll_of_forall₂ (List.forall₂_map_right_iff.mpr (List.forall₂_same.mpr h))

/-- A calm tree attains both ends of its bounds. -/
theorem attains_side (h : Built (fun _ => False) d) (calm : d.Calm) (op : Operation) :
    d.Attains (d.bounds.side op) := by
  induction h generalizing op with
  | die d =>
    obtain ⟨low, hlow⟩ := d.exists_face_least
    obtain ⟨high, hhigh⟩ := d.exists_face_greatest
    cases op with
    | roll => exact attains_leaf low (fun _ _ => rfl) hlow
    | minimum => exact attains_leaf low (fun _ _ => rfl) hlow
    | maximum => exact attains_leaf high (fun _ _ => rfl) hhigh
  | foreign holds => exact holds.elim
  | @sum p _ ih =>
    cases calm with
    | pool items_calm =>
      show p.sum.Attains ((Interval.total (boundsAll p.items)).side op)
      rw [Interval.side_total, boundsAll_eq_map, List.map_map]
      exact (attainsAll_side fun d hd => ih d hd (items_calm d hd) op).node fun _ _ => ⟨rfl, rfl⟩
  | @select p selector count _ _ _ built ih =>
    obtain ⟨-, rfl⟩ := Pool.select_eq_ok_iff.mp built
    cases calm with
    | selection items_calm =>
      rw [bounds, Interval.side_select, boundsAll_eq_map, List.map_map]
      have attained := attainsAll_side fun d hd => ih d hd (items_calm d hd) op
      exact attained.node (f := fun values => .total (selector.kept values count)) fun _ _ => ⟨rfl, rfl⟩
  | explode _ built _ =>
    obtain ⟨-, rfl⟩ := explode_eq_ok_iff.mp built
    cases calm
  | @apply inner _ operator operand _ _ built ih =>
    obtain ⟨accepts, rfl⟩ := apply_eq_ok_iff.mp built
    cases calm with
    | arithmetic inner_calm one_side =>
      have ends : ∀ q, inner.Attains (operator.extremeValue operand q inner.bounds) := by
        intro q
        rcases extremeValue_eq_end accepts one_side q with h | h
        · rw [h]
          exact ih inner_calm .minimum
        · rw [h]
          exact ih inner_calm .maximum
      cases op with
      | roll => exact attains_apply (ends .minimum)
      | minimum => exact attains_apply (ends .minimum)
      | maximum => exact attains_apply (ends .maximum)

/-- A tree without explosions and foreign leaves, whose even powers are over values on one side of zero, rolls
    its minimum on some list of draws and its maximum on some list of draws. -/
theorem exists_draws_of_calm (h : Built (fun _ => False) d) (calm : d.Calm) :
    (∃ draws : List Nat, ∀ supply next, Supply.Deals supply next draws → d.roll supply next = d.minimum) ∧
      ∃ draws : List Nat, ∀ supply next, Supply.Deals supply next draws → d.roll supply next = d.maximum := by
  rw [minimum_eq h fun _ => False.elim, maximum_eq h fun _ => False.elim]
  obtain ⟨low, hlow⟩ := attains_side h calm .minimum
  obtain ⟨high, hhigh⟩ := attains_side h calm .maximum
  exact ⟨⟨low, fun supply next dealt => (hlow supply next dealt).1⟩,
    ⟨high, fun supply next dealt => (hhigh supply next dealt).1⟩⟩

/-- The square of a die and the higher of a die and a fudge die, added, doubled and negated. -/
def negatedSquare : Dice :=
  .arithmetic
    (.pool [.arithmetic (.die (.standard 6 (by decide))) .power 2 none,
      .selection [.die (.standard 6 (by decide)), .die .fudge] none .keepHighest 1 none] none)
    .multiply (.ofInt (-2)) none

theorem negatedSquare_built (P : Foreign → Prop) : Built P negatedSquare := by
  refine .arithmetic (.pool ?_) trivial
  simp only [List.forall_mem_cons]
  exact ⟨.arithmetic (.die _) (by decide), .selection (by simp [Built.die]) (by decide), List.forall_mem_nil _⟩

theorem negatedSquare_calm : negatedSquare.Calm := by
  refine .arithmetic (.pool ?_) fun heq => (by cases heq)
  simp only [List.forall_mem_cons]
  exact ⟨.arithmetic (.die _) fun _ _ _ => by decide, .selection (by simp [Calm.die]), List.forall_mem_nil _⟩

theorem negatedSquare_attains_extremes :
    (∃ draws, negatedSquare.roll (.ofList draws) 0 = negatedSquare.minimum) ∧
      ∃ draws, negatedSquare.roll (.ofList draws) 0 = negatedSquare.maximum := by
  obtain ⟨⟨low, hlow⟩, high, hhigh⟩ := exists_draws_of_calm (negatedSquare_built _) negatedSquare_calm
  exact ⟨⟨low, hlow _ _ (Supply.deals_ofList low)⟩, ⟨high, hhigh _ _ (Supply.deals_ofList high)⟩⟩

end Dice
end DiceNotation
