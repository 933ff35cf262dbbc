import Mathlib.Logic.ExistsUnique
import DiceNotation.Dice.Evaluate

/-! Repeated rolls. An explosion rolls its inner tree in a row, each roll from the draw after the one before it. It
    stops after the first roll that misses, or at its limit if none of them does, and adds up what it rolled. A larger
    limit only adds rolls, and none after a roll that misses. -/

namespace DiceNotation

/-- Of values in a row, numbered from zero, those up to the first that need not be repeated are `count`, or all that the
    limit allows if each of these is to be repeated. -/
inductive StopsAfter (repeats : Nat → Bool) (limit : Nat) : Nat → Prop
  | miss {i : Nat} (within : i < limit) (misses : repeats i = false) (before : ∀ j < i, repeats j = true) :
    StopsAfter repeats limit (i + 1)
  | all (before : ∀ j < limit, repeats j = true) : StopsAfter repeats limit limit

namespace StopsAfter
variable {repeats : Nat → Bool} {limit limit' count count' i : Nat}

theorem exists_count (repeats : Nat → Bool) (limit : Nat) : ∃ count, StopsAfter repeats limit count := by
  induction limit with
  | zero => exact ⟨0, .all fun j below => absurd below (Nat.not_lt_zero j)⟩
  | succ limit ih =>
    obtain ⟨count, stops⟩ := ih
    cases stops with
    | miss within misses before => exact ⟨_, .miss (Nat.lt_succ_of_lt within) misses before⟩
    | all before =>
      cases last : repeats limit with
      | false => exact ⟨limit + 1, .miss (Nat.lt_succ_self limit) last before⟩
      | true =>
        refine ⟨limit + 1, .all fun j below => ?_⟩
        rcases Nat.lt_succ_iff_lt_or_eq.mp below with below | rfl
        · exact before j below
        · exact last

theorem le_limit (h : StopsAfter repeats limit count) : count ≤ limit := by
  cases h with
  | miss within => exact within
  | all => exact Nat.le_refl limit

/-- All values but the last are to be repeated. -/
theorem repeats_of_lt (h : StopsAfter repeats limit count) (below : i + 1 < count) : repeats i = true := by
  cases h with
  | miss _ _ before => exact before i (Nat.lt_of_succ_lt_succ below)
  | all before => exact before i (Nat.lt_of_succ_lt below)

/-- A larger limit allows no fewer values. -/
theorem le_of_limit_le (h : StopsAfter repeats limit count) (h' : StopsAfter repeats limit' count')
    (more : limit ≤ limit') : count ≤ count' := by
  cases h' with
  | miss _ misses =>
    refine Nat.not_lt.mp fun later => ?_
    rw [h.repeats_of_lt later] at misses
    cases misses
  | all => exact Nat.le_trans h.le_limit more

theorem existsUnique_count (repeats : Nat → Bool) (limit : Nat) : ∃! count, StopsAfter repeats limit count := by
  obtain ⟨count, stops⟩ := exists_count repeats limit
  refine ⟨count, stops, fun count' stops' => ?_⟩
  exact Nat.le_antisymm (stops'.le_of_limit_le stops (Nat.le_refl limit))
    (stops.le_of_limit_le stops' (Nat.le_refl limit))

/-- A larger limit allows no other values if the last one misses. -/
theorem of_miss (h : StopsAfter repeats limit (i + 1)) (misses : repeats i = false) (more : limit ≤ limit') :
    StopsAfter repeats limit' (i + 1) :=
  .miss (Nat.lt_of_lt_of_le h.le_limit more) misses fun _ below => h.repeats_of_lt (Nat.succ_lt_succ below)

/-- The first value ends the row, or the others do. -/
theorem succ_cases (h : StopsAfter repeats (limit + 1) count) :
    (repeats 0 = false ∧ count = 1) ∨
      (repeats 0 = true ∧ ∃ others, count = others + 1 ∧ StopsAfter (fun i => repeats (i + 1)) limit others) := by
  cases h with
  | @miss i within misses before =>
    cases i with
    | zero => exact .inl ⟨misses, rfl⟩
    | succ i =>
      exact .inr ⟨before 0 (Nat.zero_lt_succ i), i + 1, rfl, .miss (Nat.lt_of_succ_lt_succ within) misses
        fun j below => before (j + 1) (Nat.succ_lt_succ below)⟩
  | all before =>
    exact .inr ⟨before 0 (Nat.zero_lt_succ limit), limit, rfl, .all fun j below =>
      before (j + 1) (Nat.succ_lt_succ below)⟩

end StopsAfter

/-! ### Evaluations in a row -/

namespace Played
variable {run : Nat → Played α} {holds : α → Bool} {next limit count count' : Nat}

/-- The number of the draw after so many evaluations in a row from draw `next` on. -/
def after (run : Nat → Played α) (next : Nat) : Nat → Nat
  | 0 => next
  | count + 1 => (run (after run next count)).next

/-- The first evaluations in a row from draw `next` on, each from the draw after the one before it. -/
def inRow (run : Nat → Played α) (next count : Nat) : List (Played α) :=
  (List.range count).map fun i => run (after run next i)

theorem after_succ (run : Nat → Played α) (next count : Nat) :
    after run next (count + 1) = after run (run next).next count := by
  induction count with
  | zero => rfl
  | succ count ih =>
    rw [after, ih]
    rfl

theorem inRow_succ (run : Nat → Played α) (next count : Nat) :
    inRow run next (count + 1) = run next :: inRow run (run next).next count := by
  rw [inRow, List.range_succ_eq_map, List.map_cons, List.map_map]
  exact congrArg (run next :: ·) (List.map_congr_left fun i _ => congrArg run (after_succ run next i))

/-- Evaluations in a row end at the draw after the last of them. -/
theorem collect_inRow_next (run : Nat → Played α) (next count : Nat) :
    (collect next (inRow run next count)).next = after run next count := by
  cases count with
  | zero => rfl
  | succ count =>
    rw [collect, inRow, List.range_succ, List.map_append, List.map_singleton, List.getLast?_concat]
    rfl

theorem inRow_prefix (run : Nat → Played α) (next : Nat) (fewer : count ≤ count') :
    inRow run next count <+: inRow run next count' := by
  obtain ⟨others, rfl⟩ := Nat.exists_eq_add_of_le fewer
  rw [inRow, inRow, List.range_add, List.map_append]
  exact List.prefix_append _ _

/-- Repeated evaluations are the first ones in a row, up to where these stop. -/
theorem whileHolds_eq_inRow (stops : StopsAfter (fun i => holds (run (after run next i)).value) limit count) :
    whileHolds run holds next [] limit = inRow run next count := by
  -- The first evaluation is split off, and the rest is the same loop from the draw after it with one less to do.
  induction limit generalizing next count with
  | zero =>
    rw [Nat.le_zero.mp stops.le_limit]
    rfl
  | succ limit ih =>
    rw [whileHolds_succ]
    obtain ⟨misses, rfl⟩ | ⟨again, others, rfl, later⟩ := stops.succ_cases
    · rw [after] at misses
      rw [if_neg (Bool.eq_false_iff.mp misses)]
      rfl
    · rw [after] at again
      simp only [after_succ] at later
      rw [if_pos again, ih later, inRow_succ]

end Played

/-! ### Explosions -/

namespace Dice

/-- Roll number `i` of a tree in a row from draw `next` on, numbered from zero. -/
def rollInRow (d : Dice) (supply : Supply) (next i : Nat) : Outcome :=
  d.roll supply (Played.after (play supply d .roll) next i)

/-- Whether roll number `i` in a row is to be followed by another one. -/
def repeatsInRow (inner : Dice) (comparison : Comparison) (threshold : Outcome) (supply : Supply) (next i : Nat) :
    Bool :=
  comparison.holds (inner.rollInRow supply next i) threshold

/-- The rolls of its inner tree that a roll of an explosion does. -/
def repetition (inner : Dice) (comparison : Comparison) (threshold : Outcome) (limit : Nat) (supply : Supply)
    (next : Nat) : List (Played Outcome) :=
  Played.whileHolds (play supply inner .roll) (comparison.holds · threshold) next [] limit

theorem repetition_eq_inRow {inner : Dice} {comparison : Comparison} {threshold : Outcome} {limit count : Nat}
    {supply : Supply} {next : Nat}
    (stops : StopsAfter (inner.repeatsInRow comparison threshold supply next) limit count) :
    inner.repetition comparison threshold limit supply next = Played.inRow (play supply inner .roll) next count :=
  Played.whileHolds_eq_inRow stops

/-- The record of an explosion does not name its limit, so a roll is told by the rolls that it does. -/
theorem play_explosion_roll (inner : Dice) (comparison : Comparison) (threshold : Outcome) (limit limit' : Nat)
    (tracer : Option Tracer) (supply : Supply) (next : Nat) :
    play supply (.explosion inner comparison threshold limit tracer) .roll next =
      conclude (.explosion inner comparison threshold limit' tracer) .roll
        ((Played.collect next (inner.repetition comparison threshold limit supply next)).map .sum) := rfl

/-- A roll of an explosion does the rolls of its inner tree in a row, up to the first that misses or as many as the
    limit allows if none of these does. It adds up their results from the left and takes their draws. Under a larger
    limit the same rolls come first, and if the last of them misses then the result and the draws are the same. -/
theorem explosion_rolls_in_row (inner : Dice) (comparison : Comparison) (threshold : Outcome) (limit : Nat)
    (tracer : Option Tracer) (supply : Supply) (next : Nat) :
    (∃! count, StopsAfter (inner.repeatsInRow comparison threshold supply next) limit count) ∧
    ∀ count, StopsAfter (inner.repeatsInRow comparison threshold supply next) limit count →
      inner.repetition comparison threshold limit supply next = Played.inRow (play supply inner .roll) next count ∧
      (explosion inner comparison threshold limit tracer).roll supply next =
        .total ((List.range count).map (inner.rollInRow supply next)) ∧
      (play supply (explosion inner comparison threshold limit tracer) .roll next).next =
        Played.after (play supply inner .roll) next count ∧
      ∀ limit', limit ≤ limit' →
        inner.repetition comparison threshold limit supply next <+:
          inner.repetition comparison threshold limit' supply next ∧
        ∀ last, count = last + 1 → inner.repeatsInRow comparison threshold supply next last = false →
          (explosion inner comparison threshold limit' tracer).roll supply next =
            (explosion inner comparison threshold limit tracer).roll supply next ∧
          (play supply (explosion inner comparison threshold limit' tracer) .roll next).next =
            (play supply (explosion inner comparison threshold limit tracer) .roll next).next := by
  refine ⟨StopsAfter.existsUnique_count _ limit, fun count stops => ?_⟩
  have performed := repetition_eq_inRow stops
  refine ⟨performed, ?_, ?_, fun limit' more => ⟨?_, fun last final misses => ?_⟩⟩
  · rw [roll, play_explosion_roll _ _ _ _ limit, performed]
    exact congrArg Outcome.total List.map_map
  · rw [play_explosion_roll _ _ _ _ limit, performed]
    exact Played.collect_inRow_next _ next count
  · obtain ⟨count', stops'⟩ := StopsAfter.exists_count (inner.repeatsInRow comparison threshold supply next) limit'
    rw [performed, repetition_eq_inRow stops']
    exact Played.inRow_prefix _ next (stops.le_of_limit_le stops' more)
  · subst final
    have same : inner.repetition comparison threshold limit' supply next =
        inner.repetition comparison threshold limit supply next :=
      (repetition_eq_inRow (stops.of_miss misses more)).trans performed.symm
    have played : play supply (explosion inner comparison threshold limit' tracer) .roll next =
        play supply (explosion inner comparison threshold limit tracer) .roll next := by
      rw [play_explosion_roll _ _ _ _ limit, same, ← play_explosion_roll]
    exact ⟨congrArg Played.value played, congrArg Played.next played⟩

/-- A die that explodes, of which bursts above 100 are to be repeated. -/
def innerBurst : Dice := .explosion (.die .percentile) .greater 50 2 none

/-- Draws for a burst of 60 and 70 and then for a 10 alone. -/
def burstDraws : Supply := fun k => [59, 69, 9].getD k 0

/-- The first burst is repeated and the second roll misses. A third one is allowed but not done, and so is a fifth. -/
theorem innerBurst_repeats_once :
    StopsAfter (innerBurst.repeatsInRow .greater 100 burstDraws 0) 3 2 ∧
    (explosion innerBurst .greater 100 3 none).roll burstDraws 0 = 140 ∧
    (explosion innerBurst .greater 100 5 none).roll burstDraws 0 = 140 := by
  have stops : StopsAfter (innerBurst.repeatsInRow .greater 100 burstDraws 0) 3 2 :=
    .miss (by decide) (by decide) (by decide)
  obtain ⟨-, total, -, larger⟩ := (explosion_rolls_in_row innerBurst .greater 100 3 none burstDraws 0).2 2 stops
  obtain ⟨-, unchanged⟩ := larger 5 (by decide)
  have sum : (explosion innerBurst .greater 100 3 none).roll burstDraws 0 = 140 := total.trans (by decide)
  exact ⟨stops, sum, (unchanged 1 rfl (by decide)).1.trans sum⟩

end Dice
end DiceNotation
