import Mathlib.Data.List.Perm.Subperm
import Mathlib.Order.Bounds.Defs
import DiceNotation.Proofs.Totals

/-! Selection by rank. Of all ways to choose some number of outcomes, to keep the highest gives the greatest total and
    to keep the lowest the least, since each rank of a choice lies between the ranks at the two ends of the whole list.
    To drop is to keep the others, and the order in which the outcomes come does not count. -/

namespace DiceNotation

/-! ### Ranks of a choice -/

section
variable {R : α → α → Prop} {chosen ranked : List α}

/-- The first items of an ordered list come before those of any choice of as many items in their order. -/
theorem forall₂_take_of_sublist (refl : ∀ a, R a a) (ordered : ranked.Pairwise R) (sub : chosen.Sublist ranked) :
    (ranked.take chosen.length).Forall₂ R chosen := by
  induction ranked generalizing chosen with
  | nil =>
    rw [List.sublist_nil.mp sub]
    exact .nil
  | cons a ranked ih =>
    obtain ⟨first, others⟩ := List.pairwise_cons.mp ordered
    cases chosen with
    | nil => exact .nil
    | cons b chosen =>
      -- Whether or not `b` is `a`, what is chosen after it is chosen from what comes after `a`.
      refine .cons ?_ (ih others sub.tail)
      rcases List.mem_cons.mp (sub.subset List.mem_cons_self) with rfl | later
      · exact refl b
      · exact first b later

/-- The last items of an ordered list come after those of any choice of as many items in their order. -/
theorem forall₂_drop_of_sublist (refl : ∀ a, R a a) (ordered : ranked.Pairwise R) (sub : chosen.Sublist ranked) :
    chosen.Forall₂ R (ranked.drop (ranked.length - chosen.length)) := by
  have back := forall₂_take_of_sublist (R := flip R) refl (List.pairwise_reverse.mpr ordered) sub.reverse
  rw [List.length_reverse, List.take_reverse] at back
  exact (List.forall₂_reverse_iff.mp back).flip

end

namespace Outcome
variable {chosen values : List Outcome}

/-- The outcomes chosen out of some keep their order when all are ranked. -/
theorem ascending_sublist (h : chosen.Subperm values) : (ascending chosen).Sublist (ascending values) :=
  List.sublist_of_subperm_of_pairwise
    ((ascending_perm chosen).subperm.trans (h.trans (ascending_perm values).symm.subperm))
    (pairwise_ascending chosen) (pairwise_ascending values)

end Outcome

/-! ### Extreme totals -/

namespace Selector
variable {values values' : List Outcome} {k : Nat}

/-- The totals, each from the lowest outcome up, of all choices of `k` out of some outcomes. -/
def choiceTotals (values : List Outcome) (k : Nat) : Set Outcome :=
  {a | ∃ chosen : List Outcome, chosen.Subperm values ∧ chosen.length = k ∧ a = .total (Outcome.ascending chosen)}

/-- What is kept by rank is one of the choices. -/
theorem total_kept_mem_choiceTotals {s : Selector} (h : (s.kept values k).length = k) :
    Outcome.total (s.kept values k) ∈ choiceTotals values k := by
  refine ⟨s.kept values k, ?_, h, ?_⟩
  · exact (s.pick_sublist _ k).subperm.trans (Outcome.ascending_perm values).subperm
  · rw [Outcome.ascending_eq_of_perm .rfl (s.pairwise_kept values k)]

theorem length_keepHighest (h : k ≤ values.length) : (keepHighest.kept values k).length = k := by
  rw [kept, pick, List.length_drop, Outcome.length_ascending, Nat.sub_sub_self h]

theorem length_keepLowest (h : k ≤ values.length) : (keepLowest.kept values k).length = k := by
  rw [kept, pick, List.length_take, Outcome.length_ascending, Nat.min_eq_left h]

theorem isGreatest_keepHighest (h : k ≤ values.length) :
    IsGreatest (choiceTotals values k) (Outcome.total (keepHighest.kept values k)) := by
  refine ⟨total_kept_mem_choiceTotals (length_keepHighest h), ?_⟩
  rintro a ⟨chosen, sub, rfl, rfl⟩
  have ranks := forall₂_drop_of_sublist Outcome.le_refl (Outcome.pairwise_ascending values)
    (Outcome.ascending_sublist sub)
  rw [Outcome.length_ascending chosen] at ranks
  exact Outcome.total_mono ranks

theorem isLeast_keepLowest (h : k ≤ values.length) :
    IsLeast (choiceTotals values k) (Outcome.total (keepLowest.kept values k)) := by
  refine ⟨total_kept_mem_choiceTotals (length_keepLowest h), ?_⟩
  rintro a ⟨chosen, sub, rfl, rfl⟩
  have ranks := forall₂_take_of_sublist Outcome.le_refl (Outcome.pairwise_ascending values)
    (Outcome.ascending_sublist sub)
  rw [Outcome.length_ascending chosen] at ranks
  exact Outcome.total_mono ranks

/-! ### Duality and order -/

/-- To keep the highest is to drop the others. -/
theorem keepHighest_eq_dropLowest (values : List Outcome) (k : Nat) :
    keepHighest.kept values k = dropLowest.kept values (values.length - k) := by
  rw [kept, kept, pick, pick, Outcome.length_ascending]

theorem keepLowest_eq_dropHighest (h : k ≤ values.length) :
    keepLowest.kept values k = dropHighest.kept values (values.length - k) := by
  rw [kept, kept, pick, pick, Outcome.length_ascending, Nat.sub_sub_self h]

theorem kept_congr (same : values'.Perm values) (s : Selector) (k : Nat) : s.kept values' k = s.kept values k := by
  rw [kept, kept, Outcome.ascending_congr same]

/-- To keep the highest `k` outcomes gives the greatest total of all choices of `k`, and to keep the lowest the least.
    To keep `k` is to drop the others from the other end. No selection depends on the order of the outcomes. -/
theorem selection_by_rank (h : k ≤ values.length) :
    IsGreatest (choiceTotals values k) (Outcome.total (keepHighest.kept values k)) ∧
    IsLeast (choiceTotals values k) (Outcome.total (keepLowest.kept values k)) ∧
    Outcome.total (keepHighest.kept values k) = Outcome.total (dropLowest.kept values (values.length - k)) ∧
    Outcome.total (keepLowest.kept values k) = Outcome.total (dropHighest.kept values (values.length - k)) ∧
    ∀ (s : Selector) (values' : List Outcome), values'.Perm values →
      Outcome.total (s.kept values' k) = Outcome.total (s.kept values k) := by
  refine ⟨isGreatest_keepHighest h, isLeast_keepLowest h, ?_, ?_, fun s values' same => ?_⟩
  · rw [keepHighest_eq_dropLowest]
  · rw [keepLowest_eq_dropHighest h]
  · rw [kept_congr same]

/-- Outcomes of which the three highest add up past the range, and the three lowest do not. -/
def hugePair : List Outcome := [.greatest, .ofInt (-5), .greatest, 2]

theorem hugePair_by_rank : 3 ≤ hugePair.length ∧ IsGreatest (choiceTotals hugePair 3) .greatest ∧
    IsLeast (choiceTotals hugePair 3) (.ofInt 9223372036854775804) := by
  have enough : 3 ≤ hugePair.length := by decide
  have ranked : Outcome.ascending hugePair = [.ofInt (-5), 2, .greatest, .greatest] :=
    Outcome.ascending_eq_of_perm (by decide) (by decide)
  obtain ⟨most, fewest, -⟩ := selection_by_rank enough
  rw [kept, ranked] at most fewest
  exact ⟨enough, most, fewest⟩

end Selector
end DiceNotation
