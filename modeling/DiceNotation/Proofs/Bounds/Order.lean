import Mathlib.Algebra.BigOperators.Group.List.Basic
import Mathlib.Data.List.Perm.Basic
import DiceNotation.Proofs.Draws.Window

/-! The order of the items of a pool. A total stops at the ends of the range, so what comes after counts from there,
    and the order of the terms can count. It does not count exactly if the terms are all on one side of zero, or if
    the terms on each side of it add up within the range. -/

namespace DiceNotation

namespace Outcome
variable {a start : Outcome} {as bs : List Outcome}

/-- What the outcomes above zero add up to. -/
def gain (as : List Outcome) : Int := (as.map fun a => max a.val 0).sum

/-- What the outcomes below zero add up to. -/
def loss (as : List Outcome) : Int := (as.map fun a => min a.val 0).sum

/-- The outcomes on each side of zero add up within the range, or there are none on one side. -/
def Steady (as : List Outcome) : Prop :=
  (gain as ≤ greatest.val ∧ least.val ≤ loss as) ∨ loss as = 0 ∨ gain as = 0

theorem gain_cons (a : Outcome) (as : List Outcome) : gain (a :: as) = max a.val 0 + gain as := rfl

theorem loss_cons (a : Outcome) (as : List Outcome) : loss (a :: as) = min a.val 0 + loss as := rfl

theorem gain_append (as bs : List Outcome) : gain (as ++ bs) = gain as + gain bs := by
  rw [gain, List.map_append, List.sum_append]
  rfl

theorem loss_append (as bs : List Outcome) : loss (as ++ bs) = loss as + loss bs := by
  rw [loss, List.map_append, List.sum_append]
  rfl

theorem gain_eq_of_perm (h : as.Perm bs) : gain as = gain bs := (h.map _).sum_eq

theorem loss_eq_of_perm (h : as.Perm bs) : loss as = loss bs := (h.map _).sum_eq

theorem Steady.of_perm (steady : Steady as) (h : as.Perm bs) : Steady bs := by
  rwa [Steady, gain_eq_of_perm h, loss_eq_of_perm h] at steady

theorem gain_nonneg (as : List Outcome) : 0 ≤ gain as := by
  induction as with
  | nil => exact Int.le_refl 0
  | cons a as ih =>
    rw [gain_cons]
    omega

theorem loss_nonpos (as : List Outcome) : loss as ≤ 0 := by
  induction as with
  | nil => exact Int.le_refl 0
  | cons a as ih =>
    rw [loss_cons]
    omega

theorem loss_eq_zero (h : ∀ a ∈ as, 0 ≤ a) : loss as = 0 := by
  induction as with
  | nil => rfl
  | cons a as ih =>
    obtain ⟨ha, has⟩ := List.forall_mem_cons.mp h
    have : 0 ≤ a.val := ha
    rw [loss_cons, ih has]
    omega

theorem gain_eq_zero (h : ∀ a ∈ as, a ≤ 0) : gain as = 0 := by
  induction as with
  | nil => rfl
  | cons a as ih =>
    obtain ⟨ha, has⟩ := List.forall_mem_cons.mp h
    have : a.val ≤ 0 := ha
    rw [gain_cons, ih has]
    omega

/-! ### Steady totals -/

/-- A sum that stays within the range, or leaves it only at the one end to which all terms lead, ends at the exact sum
    held within the range. -/
theorem foldl_add_eq (h : (start.val + gain as ≤ greatest.val ∧ least.val ≤ start.val + loss as) ∨
    loss as = 0 ∨ gain as = 0) : as.foldl (· + ·) start = ofInt (start.val + (gain as + loss as)) := by
  induction as generalizing start with
  | nil => exact (congrArg ofInt (Int.add_zero _)).trans (ofInt_val start) |>.symm
  | cons a as ih =>
    have := gain_nonneg as
    have := loss_nonpos as
    have := start.least_le
    have := start.le_greatest
    rw [gain_cons, loss_cons] at h ⊢
    simp only [val_greatest, val_least] at h
    rw [List.foldl_cons, ih]
    · -- Past an end the other terms do not lead back, so it is enough to hold the whole sum.
      apply ext
      rw [add_def, val_ofInt, val_ofInt, val_ofInt]
      omega
    · simp only [add_def, val_ofInt, val_greatest, val_least]
      omega

theorem total_eq_of_steady (h : Steady as) : total as = ofInt (gain as + loss as) := by
  rw [total, foldl_add_eq (by simpa [Steady] using h), val_zero, Int.zero_add]

theorem total_eq_of_perm (steady : Steady as) (h : as.Perm bs) : total as = total bs := by
  rw [total_eq_of_steady steady, total_eq_of_steady (steady.of_perm h), gain_eq_of_perm h, loss_eq_of_perm h]

/-- Of terms on one side of zero, and then on one side again, the first sum is held within the range before the second
    is added. -/
theorem total_append_eq (has : loss as = 0 ∨ gain as = 0) (hbs : loss bs = 0 ∨ gain bs = 0) :
    total (as ++ bs) = ofInt ((ofInt (gain as + loss as)).val + (gain bs + loss bs)) := by
  rw [total, List.foldl_append, ← total, total_eq_of_steady (Or.inr has), foldl_add_eq (Or.inr hbs)]

/-- Terms are steady if the total does not tell whether those above zero come before or after those below. -/
theorem steady_of_total_append_comm (has : ∀ a ∈ as, 0 ≤ a) (hbs : ∀ b ∈ bs, b ≤ 0)
    (h : total (as ++ bs) = total (bs ++ as)) : Steady (as ++ bs) := by
  have up := loss_eq_zero has
  have down := gain_eq_zero hbs
  have above := gain_nonneg as
  have below := loss_nonpos bs
  rw [total_append_eq (Or.inl up) (Or.inr down), total_append_eq (Or.inr down) (Or.inl up)] at h
  have same := congrArg val h
  simp only [val_ofInt] at same
  rw [Steady, gain_append, loss_append, val_greatest, val_least]
  omega

variable {α : Type} {xs : List α}

/-- A total is the same in every order of its terms exactly if the terms are steady. -/
theorem total_reorder_iff {f : α → Outcome} :
    (∀ ys : List α, ys.Perm xs → total (ys.map f) = total (xs.map f)) ↔ Steady (xs.map f) := by
  constructor
  · intro h
    have sides := List.filter_append_perm (fun x => decide (0 ≤ f x)) xs
    have comm := (h _ sides).trans (h _ (List.perm_append_comm.trans sides)).symm
    rw [List.map_append, List.map_append] at comm
    refine (steady_of_total_append_comm ?_ ?_ comm).of_perm (List.map_append ▸ sides.map f)
    · exact List.forall_mem_map.mpr fun x hx => by simpa using List.of_mem_filter hx
    · exact List.forall_mem_map.mpr fun x hx => le_of_lt (not_le.mp (by simpa using List.of_mem_filter hx))
  · exact fun steady ys h => (total_eq_of_perm steady (h.map f).symm).symm

end Outcome

namespace Dice

theorem play_pool_value {op : Operation} (hop : op ≠ .roll) (items : List Dice) (tracer : Option Tracer)
    (supply : Supply) (next : Nat) :
    (play supply (pool items tracer) op next).value = .total (items.map fun d => (play supply d op next).value) := by
  have each : ∀ d ∈ items, ∀ start, (play supply d op start).value = (play supply d op next).value := by
    intro d _ start
    rw [play_bound d hop supply supply next start]
  rw [← playAll_value_eq_map each next]
  rfl

theorem minimum_pool (items : List Dice) (tracer : Option Tracer) :
    (pool items tracer).minimum = .total (items.map minimum) :=
  play_pool_value (by decide) items tracer _ 0

theorem maximum_pool (items : List Dice) (tracer : Option Tracer) :
    (pool items tracer).maximum = .total (items.map maximum) :=
  play_pool_value (by decide) items tracer _ 0

theorem bounds_pool (items : List Dice) (tracer : Option Tracer) :
    (pool items tracer).bounds = ⟨.total (items.map (·.bounds.lo)), .total (items.map (·.bounds.hi))⟩ := by
  rw [bounds, boundsAll_eq_map, Interval.total, List.map_map, List.map_map]
  rfl

/-- The minimum of a pool is the same in every order of its items exactly if their minimums are steady, and so are its
    maximum and its bounds. -/
theorem pool_reorder_iff (items : List Dice) (tracer : Option Tracer) :
    ((∀ items' : List Dice, items'.Perm items → (pool items' tracer).minimum = (pool items tracer).minimum) ↔
        Outcome.Steady (items.map minimum)) ∧
      ((∀ items' : List Dice, items'.Perm items → (pool items' tracer).maximum = (pool items tracer).maximum) ↔
        Outcome.Steady (items.map maximum)) ∧
      ((∀ items' : List Dice, items'.Perm items → (pool items' tracer).bounds = (pool items tracer).bounds) ↔
        Outcome.Steady (items.map (·.bounds.lo)) ∧ Outcome.Steady (items.map (·.bounds.hi))) := by
  refine ⟨?_, ?_, ?_⟩
  · simp only [minimum_pool]
    exact Outcome.total_reorder_iff
  · simp only [maximum_pool]
    exact Outcome.total_reorder_iff
  · simp only [bounds_pool, Interval.mk.injEq, imp_and, forall_and]
    exact and_congr Outcome.total_reorder_iff Outcome.total_reorder_iff

/-- A die that explodes, one that does not, and one that counts less than nothing. -/
def burstAndDebt : List Dice :=
  [.explosion (.die .percentile) .equals 100 maxExplosions none, .die .percentile,
    .arithmetic (.die .percentile) .subtract 150 none]

/-- After the burst the next die is lost and the debt is not, so the order of the three counts. -/
theorem burstAndDebt_order_counts : burstAndDebt.reverse.Perm burstAndDebt ∧
    (pool burstAndDebt.reverse none).maximum ≠ (pool burstAndDebt none).maximum ∧
    (pool burstAndDebt.reverse none).bounds ≠ (pool burstAndDebt none).bounds :=
  ⟨List.reverse_perm _, by decide +kernel, by decide +kernel⟩

end Dice
end DiceNotation
