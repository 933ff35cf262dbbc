import Mathlib.Algebra.Ring.Int.Defs
import Mathlib.Algebra.Ring.Nat
import Mathlib.Data.List.Sort
import DiceNotation.Selector

/-! Totals grow with their terms, and so does every rank: if each outcome of one list is at most the outcome
    at its place in another, then the same holds after both lists are put in ascending order. -/

namespace DiceNotation

namespace Outcome
variable {a b c d : Outcome} {as bs : List Outcome}

/-! ### The order -/

theorem le_refl (a : Outcome) : a ≤ a := Int.le_refl a.val

theorem le_trans (h : a ≤ b) (h' : b ≤ c) : a ≤ c := Int.le_trans h h'

theorem le_antisymm (h : a ≤ b) (h' : b ≤ a) : a = b := ext (Int.le_antisymm h h')

theorem le_total (a b : Outcome) : a ≤ b ∨ b ≤ a := Int.le_total a.val b.val

theorem not_le : ¬a ≤ b ↔ b < a := Int.not_le

theorem not_lt : ¬a < b ↔ b ≤ a := Int.not_lt

theorem le_of_lt (h : a < b) : a ≤ b := Int.le_of_lt h

instance : IsTrans Outcome (· ≤ ·) := ⟨fun _ _ _ => le_trans⟩

instance : Std.IsLinearOrder Outcome where
  le_refl := le_refl
  le_trans _ _ _ := le_trans
  le_antisymm _ _ := le_antisymm
  le_total := le_total

instance : Std.LawfulOrderMin Outcome where
  min_eq_or a b := by
    show (if a ≤ b then a else b) = a ∨ (if a ≤ b then a else b) = b
    split
    · exact Or.inl rfl
    · exact Or.inr rfl
  le_min_iff a b c := by
    show a ≤ (if b ≤ c then b else c) ↔ _
    simp only [le_iff]
    split <;> omega

instance : Std.LawfulOrderMax Outcome where
  max_eq_or a b := by
    show (if a ≤ b then b else a) = a ∨ (if a ≤ b then b else a) = b
    split
    · exact Or.inr rfl
    · exact Or.inl rfl
  max_le_iff a b c := by
    show (if a ≤ b then b else a) ≤ c ↔ _
    simp only [le_iff]
    split <;> omega

/-! ### Totals -/

theorem add_le_add (h : a ≤ b) (h' : c ≤ d) : a + c ≤ b + d := ofInt_mono (Int.add_le_add h h')

theorem foldl_add_mono (h : as.Forall₂ (· ≤ ·) bs) (hab : a ≤ b) :
    as.foldl (· + ·) a ≤ bs.foldl (· + ·) b := by
  induction h generalizing a b with
  | nil => exact hab
  | cons first _ ih => exact ih (add_le_add hab first)

theorem total_mono (h : as.Forall₂ (· ≤ ·) bs) : total as ≤ total bs := foldl_add_mono h (le_refl 0)

theorem val_foldl_add (h : a.val.natAbs + (as.map fun b => b.val.natAbs).sum ≤ 9223372036854775807) :
    (as.foldl (· + ·) a).val = a.val + (as.map val).sum := by
  induction as generalizing a with
  | nil => exact (Int.add_zero a.val).symm
  | cons b bs ih =>
    rw [List.map_cons, List.sum_cons] at h
    have exact : (a + b).val = a.val + b.val := val_ofInt_of_mem (by omega) (by omega)
    rw [List.foldl_cons, ih (by rw [exact]; omega), exact, List.map_cons, List.sum_cons, Int.add_assoc]

/-- A total is exact if the sizes of its terms do not add up to more than the range holds. -/
theorem val_total (h : (as.map fun b => b.val.natAbs).sum ≤ 9223372036854775807) :
    (total as).val = (as.map val).sum := by
  rw [total, val_foldl_add (by rw [val_zero, Int.natAbs_zero, Nat.zero_add]; exact h), val_zero, Int.zero_add]

/-! ### Ranks -/

theorem ascending_cons (a : Outcome) (as : List Outcome) :
    ascending (a :: as) = (ascending as).orderedInsert (· ≤ ·) a :=
  ascending_eq_of_perm ((List.perm_orderedInsert _ a _).trans ((ascending_perm as).cons a))
    ((pairwise_ascending as).orderedInsert a _)

theorem orderedInsert_of_forall_le (h : ∀ b ∈ as, a ≤ b) : as.orderedInsert (· ≤ ·) a = a :: as := by
  cases as with
  | nil => rfl
  | cons b bs => exact List.orderedInsert_cons_of_le _ _ (h b List.mem_cons_self)

theorem orderedInsert_mono (h : as.Forall₂ (· ≤ ·) bs) (has : as.Pairwise (· ≤ ·)) (hbs : bs.Pairwise (· ≤ ·))
    (hab : a ≤ b) : (as.orderedInsert (· ≤ ·) a).Forall₂ (· ≤ ·) (bs.orderedInsert (· ≤ ·) b) := by
  induction h generalizing a b with
  | nil => exact .cons hab .nil
  | @cons x y xs ys first rest ih =>
    obtain ⟨hx, hxs⟩ := List.pairwise_cons.mp has
    obtain ⟨hy, hys⟩ := List.pairwise_cons.mp hbs
    by_cases hax : a ≤ x <;> by_cases hby : b ≤ y
    · rw [List.orderedInsert_cons_of_le _ _ hax, List.orderedInsert_cons_of_le _ _ hby]
      exact .cons hab (.cons first rest)
    · -- `y` comes before `b`, so `x` takes the place of `b` among the rest.
      have hyb := le_of_lt (not_le.mp hby)
      rw [List.orderedInsert_cons_of_le _ _ hax, List.orderedInsert_of_not_le _ _ hby]
      exact .cons (le_trans hax first) (orderedInsert_of_forall_le hx ▸ ih hxs hys (le_trans first hyb))
    · -- `x` comes before `a`, so `y` is met by `a` among the rest.
      have hxa := le_of_lt (not_le.mp hax)
      rw [List.orderedInsert_of_not_le _ _ hax, List.orderedInsert_cons_of_le _ _ hby]
      exact .cons (le_trans hxa hab) (orderedInsert_of_forall_le hy ▸ ih hxs hys (le_trans hab hby))
    · rw [List.orderedInsert_of_not_le _ _ hax, List.orderedInsert_of_not_le _ _ hby]
      exact .cons first (ih hxs hys hab)

/-- If each outcome is at most the one at its place in another list, then so is each rank. -/
theorem ascending_mono (h : as.Forall₂ (· ≤ ·) bs) : (ascending as).Forall₂ (· ≤ ·) (ascending bs) := by
  induction h with
  | nil => exact (ascending_eq_of_perm .nil .nil).symm ▸ .nil
  | cons first _ ih =>
    rw [ascending_cons, ascending_cons]
    exact orderedInsert_mono ih (pairwise_ascending _) (pairwise_ascending _) first

end Outcome

namespace Selector
variable {as bs : List Outcome}

theorem pick_forall₂ {R : α → β → Prop} {xs : List α} {ys : List β} (h : xs.Forall₂ R ys) (s : Selector)
    (k : Nat) : (s.pick xs k).Forall₂ R (s.pick ys k) := by
  cases s with
  | dropHighest =>
    simp only [pick, h.length_eq]
    exact List.forall₂_take _ h
  | dropLowest => exact List.forall₂_drop _ h
  | keepHighest =>
    simp only [pick, h.length_eq]
    exact List.forall₂_drop _ h
  | keepLowest => exact List.forall₂_take _ h

/-- A selection total is monotone in each of the outcomes, whichever of them are kept. -/
theorem total_kept_mono (h : as.Forall₂ (· ≤ ·) bs) (s : Selector) (k : Nat) :
    Outcome.total (s.kept as k) ≤ Outcome.total (s.kept bs k) :=
  Outcome.total_mono (pick_forall₂ (Outcome.ascending_mono h) s k)

end Selector
end DiceNotation
