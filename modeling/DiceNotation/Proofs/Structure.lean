import DiceNotation.Proofs.Draws.Window
import DiceNotation.Proofs.Retrace

/-! Equality of structure. Two trees have the same structure exactly if they have the same outline, which is what is
    left of a tree without its tracers and limits. So it is an equivalence, and what a tree says of itself and answers
    about its bounds, which its outline does too, is the same for both trees. A roll depends on the limits as well, and
    on nothing else. -/

namespace DiceNotation.Dice

mutual
/-- The tree without its tracers, in which each explosion has the limit one. -/
def outline : Dice → Dice
  | die d => .die d
  | foreign leaf => .foreign leaf
  | pool items _ => .pool (outlineAll items) none
  | selection items _ selector count _ => .selection (outlineAll items) none selector count none
  | explosion inner comparison threshold _ _ => .explosion (outline inner) comparison threshold 1 none
  | arithmetic inner operator operand _ => .arithmetic (outline inner) operator operand none

def outlineAll : List Dice → List Dice
  | [] => []
  | d :: ds => outline d :: outlineAll ds
end

@[simp] theorem outlineAll_eq_map (items : List Dice) : outlineAll items = items.map outline := by
  induction items with
  | nil => rfl
  | cons d ds ih => rw [outlineAll, ih, List.map_cons]

variable {d e : Dice} {items items' : List Dice}

/-! ### An equivalence -/

theorem sameAll_iff (h : ∀ d ∈ items, ∀ e, same d e = true ↔ d.outline = e.outline) :
    sameAll items items' = true ↔ items.map outline = items'.map outline := by
  induction items generalizing items' with
  | nil => cases items' <;> simp [sameAll]
  | cons d ds ih =>
    obtain ⟨hd, hds⟩ := List.forall_mem_cons.mp h
    cases items' with
    | nil => simp [sameAll]
    | cons e es => rw [sameAll, Bool.and_eq_true, hd, ih hds, List.map_cons, List.map_cons, List.cons.injEq]

/-- Two trees have the same structure exactly if they have the same outline. -/
theorem same_iff_outline_eq (d e : Dice) : same d e = true ↔ d.outline = e.outline := by
  induction d using tree_induction generalizing e with
  | die d => cases e <;> simp [same, outline]
  | foreign leaf => cases e <;> simp [same, outline]
  | pool items tracer ih => cases e <;> simp [same, outline, sameAll_iff ih]
  | selection items poolTracer selector count tracer ih =>
    cases e <;> simp [same, outline, sameAll_iff ih, and_comm, and_assoc]
  | explosion inner comparison threshold limit tracer ih =>
    cases e <;> simp [same, outline, ih, and_comm, and_assoc]
  | arithmetic inner operator operand tracer ih =>
    cases e <;> simp [same, outline, ih, and_comm, and_assoc]

theorem beq_iff_outline_eq : (d == e) = true ↔ d.outline = e.outline := same_iff_outline_eq d e

instance : EquivBEq Dice where
  rfl := beq_iff_outline_eq.mpr rfl
  symm h := beq_iff_outline_eq.mpr (beq_iff_outline_eq.mp h).symm
  trans h h' := beq_iff_outline_eq.mpr ((beq_iff_outline_eq.mp h).trans (beq_iff_outline_eq.mp h'))

/-- What is the same for a tree and its outline is the same for trees of one structure. -/
theorem eq_of_beq_of_outline {f : Dice → α} (hf : ∀ d, f d.outline = f d) (h : (d == e) = true) : f e = f d :=
  calc
    f e = f e.outline := (hf e).symm
    _ = f d.outline := by rw [beq_iff_outline_eq.mp h]
    _ = f d := hf d

/-! ### What a tree says of itself -/

@[simp] theorem isDie_outline (d : Dice) : d.outline.isDie = d.isDie := by
  cases d <;> rfl

theorem map_outline {f : Dice → α} (h : ∀ d ∈ items, f d.outline = f d) : (items.map outline).map f = items.map f := by
  rw [List.map_map]
  exact List.map_congr_left h

@[simp] theorem bounds_outline (d : Dice) : d.outline.bounds = d.bounds := by
  induction d using tree_induction with
  | die d => rfl
  | foreign leaf => rfl
  | pool items tracer ih => simp [outline, bounds, map_outline ih]
  | selection items poolTracer selector count tracer ih => simp [outline, bounds, map_outline ih]
  | explosion inner comparison threshold limit tracer ih => simp [outline, bounds, ih]
  | arithmetic inner operator operand tracer ih => simp [outline, bounds, ih]

@[simp] theorem highestFace_outline (d : Dice) : d.outline.highestFace = d.highestFace := by
  induction d using tree_induction with
  | die d => rfl
  | foreign leaf => rfl
  | pool items tracer ih => simp [outline, highestFace, map_outline ih]
  | selection items poolTracer selector count tracer ih => simp [outline, highestFace, map_outline ih]
  | explosion inner comparison threshold limit tracer ih => simp [outline, highestFace, ih]
  | arithmetic inner operator operand tracer _ => simp [outline, highestFace, bounds]

@[simp] theorem spelling_outline (d : Dice) : d.outline.spelling = d.spelling := by
  have spelled : ∀ {items : List Dice}, (∀ d ∈ items, d.outline.spelling = d.spelling) →
      spelledItems (items.map outline) = spelledItems items := by
    intro items ih
    rw [spelledItems_eq_map, spelledItems_eq_map]
    exact map_outline fun d hd => by rw [chars, ih d hd, isDie_outline, chars]
  induction d using tree_induction with
  | die d => rfl
  | foreign leaf => rfl
  | pool items tracer ih => simp only [outline, outlineAll_eq_map, spelling, spelled ih]
  | selection items poolTracer selector count tracer ih => simp only [outline, outlineAll_eq_map, spelling, spelled ih]
  | explosion inner comparison threshold limit tracer ih => simp [outline, spelling, ih]
  | arithmetic inner operator operand tracer ih => simp [outline, spelling, ih]

/-! ### Minimum and maximum -/

section
variable {op : Operation} {supply : Supply}

theorem playAll_outline (h : ∀ d ∈ items, ∀ next, (play supply d.outline op next).value = (play supply d op next).value)
    (hop : op ≠ .roll) (next : Nat) :
    (playAll supply (items.map outline) op next).value = (playAll supply items op next).value := by
  have fixed : ∀ d start, (play supply d op start).value = (play supply d op next).value := fun d start => by
    rw [play_bound d hop supply supply next start]
  rw [playAll_value_eq_map (fun d _ => fixed d), playAll_value_eq_map (fun d _ => fixed d)]
  exact map_outline fun d hd => h d hd next

/-- The bounds that a tree answers do not depend on its limits. -/
theorem play_outline (d : Dice) (hop : op ≠ .roll) (next : Nat) :
    (play supply d.outline op next).value = (play supply d op next).value := by
  induction d using tree_induction generalizing op next with
  | die d => rfl
  | foreign leaf => rfl
  | pool items tracer ih =>
    rw [outline, outlineAll_eq_map, play, play, conclude, conclude]
    exact congrArg Outcome.total (playAll_outline (fun d hd next => ih d hd hop next) hop next)
  | selection items poolTracer selector count tracer ih =>
    rw [outline, outlineAll_eq_map, play, play, conclude, conclude]
    exact congrArg (fun values => Outcome.total (selector.kept values count))
      (playAll_outline (fun d hd next => ih d hd hop next) hop next)
  | explosion inner comparison threshold limit tracer ih =>
    cases op with
    | roll => exact absurd rfl hop
    | minimum => exact congrArg (fun lo => Outcome.total [comparison.lower threshold lo]) (ih hop next)
    | maximum => exact congrArg (fun hi => Outcome.total [comparison.upper threshold hi]) (ih hop next)
  | arithmetic inner operator operand tracer ih =>
    cases asks : operator.asks operand op with
    | none => rw [outline, play_arithmetic_of_none asks, play_arithmetic_of_none asks, bounds_outline]
    | some asked =>
      rw [outline, play_arithmetic_of_asks asks, play_arithmetic_of_asks asks, ih (asks_ne_roll hop asks)]

end

/-! ### Rolls -/

def limit? : Dice → Option Nat
  | explosion _ _ _ limit _ => some limit
  | _ => none

/-- The limits of the explosions in a tree, each before those below it. -/
def limits (d : Dice) : List Nat := d.nodes.filterMap limit?

theorem limits_eq (d : Dice) : d.limits = d.limit?.toList ++ d.children.flatMap limits := by
  rw [limits, nodes_eq, nodesAll_eq_flatMap, List.filterMap_cons, List.filterMap_flatMap]
  cases d.limit? <;> rfl

theorem limits_explosion (inner : Dice) (comparison : Comparison) (threshold : Outcome) (limit : Nat)
    (tracer : Option Tracer) : (explosion inner comparison threshold limit tracer).limits = limit :: inner.limits := by
  rw [limits_eq, children, List.flatMap_singleton]
  rfl

theorem limits_arithmetic (inner : Dice) (operator : Operator) (operand : Outcome) (tracer : Option Tracer) :
    (arithmetic inner operator operand tracer).limits = inner.limits := by
  rw [limits_eq, children, List.flatMap_singleton]
  rfl

theorem children_outline (d : Dice) : d.outline.children = d.children.map outline := by
  cases d <;> simp [outline, children]

/-- Trees of one outline have as many limits. -/
theorem length_limits_outline (d : Dice) : d.outline.limits.length = d.limits.length := by
  induction d using children_induction with
  | step d ih =>
    have own : d.outline.limit?.toList.length = d.limit?.toList.length := by cases d <;> rfl
    rw [limits_eq, limits_eq d, children_outline, List.length_append, List.length_append, own, List.length_flatMap,
      List.length_flatMap, map_outline ih]

theorem map_bare_eq (ih : ∀ d ∈ items, ∀ e : Dice, d.outline = e.outline → d.limits = e.limits → d.bare = e.bare)
    (h : items.map outline = items'.map outline) (hl : items.flatMap limits = items'.flatMap limits) :
    items.map bare = items'.map bare := by
  induction items generalizing items' with
  | nil => rw [List.map_eq_nil_iff.mp h.symm]
  | cons d ds later =>
    obtain ⟨hd, hds⟩ := List.forall_mem_cons.mp ih
    cases items' with
    | nil => cases h
    | cons e es =>
      obtain ⟨first, others⟩ := List.cons.inj h
      have length : d.limits.length = e.limits.length := by
        rw [← length_limits_outline, first, length_limits_outline]
      obtain ⟨own, more⟩ := List.append_inj hl length
      rw [List.map_cons, List.map_cons, hd e first own, later hds others more]

/-- Trees of one outline with the same limits differ in their tracers only. -/
theorem bare_eq_of_outline_eq (h : d.outline = e.outline) (hl : d.limits = e.limits) : d.bare = e.bare := by
  induction d using tree_induction generalizing e with
  | die d =>
    cases e with
    | die => exact congrArg bare h
    | _ => cases h
  | foreign leaf =>
    cases e with
    | foreign => exact congrArg bare h
    | _ => cases h
  | pool items tracer ih =>
    cases e with
    | pool items' tracer' =>
      simp only [outline, outlineAll_eq_map, pool.injEq, and_true] at h
      rw [limits_eq, limits_eq (pool items' _)] at hl
      have inside : items.map (retrace fun _ => none) = items'.map (retrace fun _ => none) := map_bare_eq ih h hl
      simp [bare, retrace, inside]
    | _ => cases h
  | selection items poolTracer selector count tracer ih =>
    cases e with
    | selection items' poolTracer' selector' count' tracer' =>
      simp only [outline, outlineAll_eq_map, selection.injEq, and_true, true_and] at h
      obtain ⟨h, rfl, rfl⟩ := h
      rw [limits_eq, limits_eq (selection items' _ _ _ _)] at hl
      have inside : items.map (retrace fun _ => none) = items'.map (retrace fun _ => none) := map_bare_eq ih h hl
      simp [bare, retrace, inside]
    | _ => cases h
  | explosion inner comparison threshold limit tracer ih =>
    cases e with
    | explosion inner' comparison' threshold' limit' tracer' =>
      simp only [outline, explosion.injEq, and_true] at h
      obtain ⟨h, rfl, rfl⟩ := h
      rw [limits_explosion, limits_explosion] at hl
      obtain ⟨rfl, below⟩ := List.cons.inj hl
      have inside : inner.retrace (fun _ => none) = inner'.retrace fun _ => none := ih h below
      simp [bare, retrace, inside]
    | _ => cases h
  | arithmetic inner operator operand tracer ih =>
    cases e with
    | arithmetic inner' operator' operand' tracer' =>
      simp only [outline, arithmetic.injEq, and_true] at h
      obtain ⟨h, rfl, rfl⟩ := h
      rw [limits_arithmetic, limits_arithmetic] at hl
      have inside : inner.retrace (fun _ => none) = inner'.retrace fun _ => none := ih h hl
      simp [bare, retrace, inside]
    | _ => cases h

/-- Trees that differ in their tracers only roll the same from the same draws. -/
theorem play_roll_of_bare_eq (h : d.bare = e.bare) (supply : Supply) (next : Nat) :
    (play supply e .roll next).value = (play supply d .roll next).value ∧
      (play supply e .roll next).next = (play supply d .roll next).next := by
  have played : (play supply d .roll next).reroute (fun _ => none) = (play supply e .roll next).reroute fun _ => none := by
    rw [← play_retrace, ← play_retrace]
    exact congrArg (play supply · .roll next) h
  exact ⟨(congrArg Played.value played).symm, (congrArg Played.next played).symm⟩

/-! ### Congruence -/

/-- Equality of structure is an equivalence. Trees that are equal have the same text, also with a suffix, are both dice
    or both not, and have the same minimum, maximum, bounds and highest face. If their explosions have the same limits
    too, they roll the same from the same draws and take as many. -/
theorem beq_congruence :
    (∀ d : Dice, (d == d) = true) ∧
    (∀ d e : Dice, (d == e) = true → (e == d) = true) ∧
    (∀ d e f : Dice, (d == e) = true → (e == f) = true → (d == f) = true) ∧
    ∀ d e : Dice, (d == e) = true →
      (e.text = d.text ∧ (∀ suffix, e.textWith suffix = d.textWith suffix) ∧ e.isDie = d.isDie ∧
        e.minimum = d.minimum ∧ e.maximum = d.maximum ∧ e.bounds = d.bounds ∧ e.highestFace = d.highestFace) ∧
      (e.limits = d.limits → ∀ supply next, e.roll supply next = d.roll supply next ∧
        (play supply e .roll next).next = (play supply d .roll next).next) := by
  refine ⟨fun d => BEq.rfl, fun d e => BEq.symm, fun d e f => BEq.trans, fun d e h => ⟨⟨?_, ?_, ?_, ?_, ?_, ?_, ?_⟩, ?_⟩⟩
  · exact eq_of_beq_of_outline (fun d => by simp [text, chars]) h
  · exact fun suffix => eq_of_beq_of_outline (f := (textWith · suffix)) (fun d => by simp [textWith]) h
  · exact eq_of_beq_of_outline isDie_outline h
  · exact eq_of_beq_of_outline (f := minimum) (fun d => play_outline d (by decide) 0) h
  · exact eq_of_beq_of_outline (f := maximum) (fun d => play_outline d (by decide) 0) h
  · exact eq_of_beq_of_outline bounds_outline h
  · exact eq_of_beq_of_outline highestFace_outline h
  · exact fun hl supply next => play_roll_of_bare_eq (bare_eq_of_outline_eq (beq_iff_outline_eq.mp h) hl.symm) supply next

/-- A sum with a die that explodes. -/
def burst (limit : Nat) (tracer : Option Tracer) : Dice :=
  .pool [.explosion (.pool [.die .fudge, .die .percentile] none) .greater 50 limit tracer, .die .percentile] tracer

/-- The limit does not count for equality and counts for a roll. -/
theorem burst_equal : (burst 2 none == burst 1 (some .memory)) = true ∧
    (burst 1 (some .memory)).maximum = (burst 2 none).maximum ∧
    (burst 1 (some .memory)).roll (fun _ => 98) 0 ≠ (burst 2 none).roll (fun _ => 98) 0 ∧
    (burst 2 none == burst 2 (some .memory)) = true ∧
    (burst 2 (some .memory)).roll (fun _ => 98) 0 = (burst 2 none).roll (fun _ => 98) 0 := by
  obtain ⟨-, -, -, congruent⟩ := beq_congruence
  have traced : (burst 2 none == burst 2 (some .memory)) = true := by decide
  have limited : (burst 2 none == burst 1 (some .memory)) = true := by decide
  obtain ⟨⟨-, -, -, -, maximum, -⟩, -⟩ := congruent _ _ limited
  obtain ⟨-, rolls⟩ := congruent _ _ traced
  exact ⟨limited, maximum, by decide, traced, (rolls rfl (fun _ => 98) 0).1⟩

end DiceNotation.Dice
