import Mathlib.Order.Bounds.Defs
import DiceNotation.Dice.Build
import DiceNotation.Proofs.Totals

/-! The threshold of an explosion. Whether a threshold is accepted, and the bounds of the explosion, are read off the
    two ends of the inner bounds. What they say is exact for the outcomes between the ends: a threshold is accepted if
    some outcome repeats and some does not, and a bound is open if an outcome on its side of zero repeats. -/

namespace DiceNotation

namespace Outcome
variable {a b c : Outcome}

theorem lt_of_lt_of_le (h : a < b) (h' : b ≤ c) : a < c := Int.lt_of_lt_of_le h h'

theorem lt_of_le_of_lt (h : a ≤ b) (h' : b < c) : a < c := Int.lt_of_le_of_lt h h'

theorem val_add_one (h : a < b) : (a + 1).val = a.val + 1 := by
  have := lt_iff.mp h
  have := a.least_le
  have := b.le_greatest
  exact val_ofInt_of_mem (by rw [val_one]; omega) (by rw [val_one]; omega)

theorem val_sub_one (h : b < a) : (a - 1).val = a.val - 1 := by
  have := lt_iff.mp h
  have := b.least_le
  have := a.le_greatest
  exact val_ofInt_of_mem (by rw [val_one]; omega) (by rw [val_one]; omega)

end Outcome

namespace Comparison
variable {c : Comparison} {t v : Outcome} {range : Interval}

theorem holds_equals : equals.holds v t = true ↔ v = t := decide_eq_true_iff

theorem holds_greater : greater.holds v t = true ↔ t < v := decide_eq_true_iff

theorem holds_lesser : lesser.holds v t = true ↔ v < t := decide_eq_true_iff

theorem misses_iff : c.holds v t = false ↔ ¬c.holds v t = true := Bool.not_eq_true _ ▸ Iff.rfl

/-! ### Splitting -/

theorem Splits.lo_le_hi (h : c.Splits t range) : range.lo ≤ range.hi := by
  cases c with
  | equals => exact Outcome.le_of_lt h.1
  | greater => exact Outcome.le_trans h.1 (Outcome.le_of_lt h.2)
  | lesser => exact Outcome.le_trans (Outcome.le_of_lt h.1) h.2

/-- One end of an interval that is split misses. -/
theorem Splits.end_misses (h : c.Splits t range) : c.holds range.lo t = false ∨ c.holds range.hi t = false := by
  cases c with
  | equals =>
    by_cases hlo : range.lo = t
    · refine .inr (misses_iff.mpr fun hhi => ?_)
      have apart := Outcome.lt_iff.mp h.1
      rw [holds_equals.mp hhi, hlo] at apart
      exact Int.lt_irrefl _ apart
    · exact .inl (decide_eq_false hlo)
  | greater => exact .inl (decide_eq_false (Outcome.not_lt.mpr h.1))
  | lesser => exact .inr (decide_eq_false (Outcome.not_lt.mpr h.2))

theorem Splits.exists_miss (h : c.Splits t range) : ∃ v ∈ range, c.holds v t = false := by
  have ordered := h.lo_le_hi
  rcases h.end_misses with miss | miss
  · exact ⟨range.lo, ⟨Outcome.le_refl _, ordered⟩, miss⟩
  · exact ⟨range.hi, ⟨ordered, Outcome.le_refl _⟩, miss⟩

/-- The least outcome of an interval that satisfies a comparison by which the interval is split. -/
theorem Splits.isLeast (h : c.Splits t range) :
    IsLeast {v | v ∈ range ∧ c.holds v t = true} (c.leastSatisfying t range.lo) := by
  have ordered := h.lo_le_hi
  cases c with
  | equals =>
    refine ⟨⟨h.2, holds_equals.mpr rfl⟩, ?_⟩
    rintro v ⟨-, hit⟩
    exact holds_equals.mp hit ▸ Outcome.le_refl t
  | greater =>
    obtain ⟨hlo, hhi⟩ := h
    have next := Outcome.val_add_one hhi
    simp only [Outcome.le_iff, Outcome.lt_iff] at hlo hhi
    refine ⟨⟨⟨?_, ?_⟩, holds_greater.mpr ?_⟩, ?_⟩
    · rw [leastSatisfying, Outcome.le_iff]; omega
    · rw [leastSatisfying, Outcome.le_iff]; omega
    · rw [leastSatisfying, Outcome.lt_iff]; omega
    · rintro v ⟨-, hit⟩
      have := Outcome.lt_iff.mp (holds_greater.mp hit)
      rw [leastSatisfying, Outcome.le_iff]
      omega
  | lesser => exact ⟨⟨⟨Outcome.le_refl _, ordered⟩, holds_lesser.mpr h.1⟩, fun v hv => hv.1.1⟩

/-- The greatest outcome of an interval that satisfies a comparison by which the interval is split. -/
theorem Splits.isGreatest (h : c.Splits t range) :
    IsGreatest {v | v ∈ range ∧ c.holds v t = true} (c.greatestSatisfying t range.hi) := by
  have ordered := h.lo_le_hi
  cases c with
  | equals =>
    refine ⟨⟨h.2, holds_equals.mpr rfl⟩, ?_⟩
    rintro v ⟨-, hit⟩
    exact holds_equals.mp hit ▸ Outcome.le_refl t
  | greater => exact ⟨⟨⟨ordered, Outcome.le_refl _⟩, holds_greater.mpr h.2⟩, fun v hv => hv.1.2⟩
  | lesser =>
    obtain ⟨hlo, hhi⟩ := h
    have previous := Outcome.val_sub_one hlo
    simp only [Outcome.le_iff, Outcome.lt_iff] at hlo hhi
    refine ⟨⟨⟨?_, ?_⟩, holds_lesser.mpr ?_⟩, ?_⟩
    · rw [greatestSatisfying, Outcome.le_iff]; omega
    · rw [greatestSatisfying, Outcome.le_iff]; omega
    · rw [greatestSatisfying, Outcome.lt_iff]; omega
    · rintro v ⟨-, hit⟩
      have := Outcome.lt_iff.mp (holds_lesser.mp hit)
      rw [greatestSatisfying, Outcome.le_iff]
      omega

/-- A threshold splits an interval exactly if some outcome of it satisfies the comparison and some does not. -/
theorem splits_iff_exists :
    c.Splits t range ↔ (∃ v ∈ range, c.holds v t = true) ∧ ∃ v ∈ range, c.holds v t = false := by
  refine ⟨fun h => ⟨⟨_, h.isLeast.1⟩, h.exists_miss⟩, ?_⟩
  rintro ⟨⟨a, ⟨alo, ahi⟩, hit⟩, b, ⟨blo, bhi⟩, miss⟩
  rw [misses_iff] at miss
  cases c with
  | equals =>
    obtain rfl := holds_equals.mp hit
    have apart : b.val ≠ a.val := fun same => miss (holds_equals.mpr (Outcome.ext same))
    refine ⟨?_, alo, ahi⟩
    rw [Outcome.le_iff] at alo ahi blo bhi
    rw [Outcome.lt_iff]
    omega
  | greater =>
    have below := Outcome.not_lt.mp fun above => miss (holds_greater.mpr above)
    exact ⟨Outcome.le_trans blo below, Outcome.lt_of_lt_of_le (holds_greater.mp hit) ahi⟩
  | lesser =>
    have above := Outcome.not_lt.mp fun below => miss (holds_lesser.mpr below)
    exact ⟨Outcome.lt_of_le_of_lt alo (holds_lesser.mp hit), Outcome.le_trans above bhi⟩

/-! ### Open bounds -/

theorem Splits.leastSatisfying_neg_iff (h : c.Splits t range) :
    c.leastSatisfying t range.lo < 0 ↔ ∃ v ∈ range, c.holds v t = true ∧ v < 0 := by
  obtain ⟨⟨inside, hit⟩, least⟩ := h.isLeast
  constructor
  · exact fun negative => ⟨_, inside, hit, negative⟩
  · rintro ⟨v, hv, repeats, negative⟩
    exact Outcome.lt_of_le_of_lt (least ⟨hv, repeats⟩) negative

theorem Splits.greatestSatisfying_pos_iff (h : c.Splits t range) :
    0 < c.greatestSatisfying t range.hi ↔ ∃ v ∈ range, c.holds v t = true ∧ 0 < v := by
  obtain ⟨⟨inside, hit⟩, greatest⟩ := h.isGreatest
  constructor
  · exact fun positive => ⟨_, inside, hit, positive⟩
  · rintro ⟨v, hv, repeats, positive⟩
    exact Outcome.lt_of_lt_of_le positive (greatest ⟨hv, repeats⟩)

end Comparison

namespace Dice

theorem bounds_explosion (inner : Dice) (comparison : Comparison) (threshold : Outcome) (limit : Nat)
    (tracer : Option Tracer) : (explosion inner comparison threshold limit tracer).bounds =
      ⟨comparison.lower threshold inner.bounds.lo, comparison.upper threshold inner.bounds.hi⟩ := rfl

/-- An explosion is built exactly if some outcome within the inner bounds satisfies the comparison and some does not.
    Its lower bound is open if one of those that satisfy it is negative and is that of the inner tree if not, and its
    upper bound is open if one is positive and is that of the inner tree if not. -/
theorem explode_exact (inner : Dice) (comparison : Comparison) (threshold : Outcome) (limit : Nat)
    (tracer : Option Tracer) :
    ((∃ d, inner.explode comparison threshold limit tracer = .ok d) ↔
      (∃ v ∈ inner.bounds, comparison.holds v threshold = true) ∧
        ∃ v ∈ inner.bounds, comparison.holds v threshold = false) ∧
    ∀ d, inner.explode comparison threshold limit tracer = .ok d →
      ((∃ v ∈ inner.bounds, comparison.holds v threshold = true ∧ 0 < v) → d.bounds.hi = .greatest) ∧
      ((¬∃ v ∈ inner.bounds, comparison.holds v threshold = true ∧ 0 < v) → d.bounds.hi = inner.bounds.hi) ∧
      ((∃ v ∈ inner.bounds, comparison.holds v threshold = true ∧ v < 0) → d.bounds.lo = .least) ∧
      ((¬∃ v ∈ inner.bounds, comparison.holds v threshold = true ∧ v < 0) → d.bounds.lo = inner.bounds.lo) := by
  constructor
  · rw [← Comparison.splits_iff_exists]
    simp only [explode_eq_ok_iff, exists_and_left, exists_eq, and_true]
  · intro d built
    obtain ⟨splits, rfl⟩ := explode_eq_ok_iff.mp built
    rw [bounds_explosion, ← splits.greatestSatisfying_pos_iff, ← splits.leastSatisfying_neg_iff]
    exact ⟨fun some => if_pos some, fun none => if_neg none, fun some => if_pos some, fun none => if_neg none⟩

/-- Two fudge dice that explode at minus one and below. Their outcomes that repeat are all negative, so only the lower
    bound is open. -/
theorem fudgePair_explodes : ∃ d, (pool [.die .fudge, .die .fudge] none).explode .lesser 0 = .ok d ∧
    d.bounds = ⟨.least, 2⟩ := by
  obtain ⟨accepted, sentinels⟩ := explode_exact (pool [.die .fudge, .die .fudge] none) .lesser 0 maxExplosions none
  obtain ⟨d, built⟩ := accepted.mpr ⟨⟨.ofInt (-1), by decide, by decide⟩, 0, by decide, by decide⟩
  obtain ⟨-, closed, opened, -⟩ := sentinels d built
  have none_positive : ¬∃ v ∈ (pool [.die .fudge, .die .fudge] none).bounds,
      Comparison.lesser.holds v 0 = true ∧ 0 < v := by
    rintro ⟨v, -, below, above⟩
    exact Int.lt_asymm (Comparison.holds_lesser.mp below) above
  have low : d.bounds.lo = .least := opened ⟨.ofInt (-1), by decide, by decide, by decide⟩
  have high : d.bounds.hi = 2 := closed none_positive
  exact ⟨d, built, by rw [← low, ← high]⟩

end Dice
end DiceNotation
