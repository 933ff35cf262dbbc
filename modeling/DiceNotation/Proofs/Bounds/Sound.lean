import DiceNotation.Proofs.Bounds.Asked

/-! Bounds are sound: whatever is drawn, a roll of a built tree lies within its bounds. The case of an explosion
    rests on signs. If no outcome that repeats is positive, then only the last outcome can push the total up,
    and if none is negative, then only the last can pull it down. -/

namespace DiceNotation

/-! ### Repeated outcomes -/

namespace Comparison
variable {c : Comparison} {t v lo hi : Outcome}

theorem nonpos_of_holds (h : c.holds v t = true) (hv : v ≤ hi) (hs : ¬0 < c.greatestSatisfying t hi) : v ≤ 0 := by
  rw [Outcome.not_lt] at hs
  cases c with
  | equals => exact of_decide_eq_true h ▸ hs
  | greater => exact Outcome.le_trans hv hs
  | lesser =>
    have hvt : v.val < t.val := of_decide_eq_true h
    have := v.least_le
    simp only [greatestSatisfying, Outcome.le_iff, Outcome.sub_def, Outcome.val_ofInt, Outcome.val_zero,
      Outcome.val_one] at hs ⊢
    omega

theorem nonneg_of_holds (h : c.holds v t = true) (hv : lo ≤ v) (hs : ¬c.leastSatisfying t lo < 0) : 0 ≤ v := by
  rw [Outcome.not_lt] at hs
  cases c with
  | equals => exact of_decide_eq_true h ▸ hs
  | lesser => exact Outcome.le_trans hs hv
  | greater =>
    have hvt : t.val < v.val := of_decide_eq_true h
    have := v.le_greatest
    simp only [leastSatisfying, Outcome.le_iff, Outcome.add_def, Outcome.val_ofInt, Outcome.val_zero,
      Outcome.val_one] at hs ⊢
    omega

end Comparison

namespace Played
variable {run : Nat → Played Outcome} {holds : Outcome → Bool} {acc : Outcome}

/-- Adding repeated outcomes on one side of zero, from a start on that side, does not pass the last outcome. -/
theorem foldl_whileHolds {R : Outcome → Outcome → Prop} {b : Outcome} (trans : ∀ x y z, R x y → R y z → R x z)
    (add : ∀ x y, R x 0 → R (x + y) y) (hb : ∀ next, R (run next).value b)
    (repeats : ∀ next, holds (run next).value = true → R (run next).value 0) (hacc : R acc 0) (next limit : Nat) :
    R (((whileHolds run holds next [] (limit + 1)).map value).foldl (· + ·) acc) b := by
  induction limit generalizing next acc with
  | zero =>
    have hlast := trans _ _ _ (add acc (run next).value hacc) (hb next)
    rw [whileHolds_succ]
    split <;> exact hlast
  | succ limit ih =>
    rw [whileHolds_succ]
    split
    · next again => exact ih (trans _ _ _ (add acc _ hacc) (repeats next again)) _
    · exact trans _ _ _ (add acc (run next).value hacc) (hb next)

end Played

theorem Comparison.total_whileHolds_mem {run : Nat → Played Outcome} {range : Interval}
    (h : ∀ next, (run next).value ∈ range) (c : Comparison) (t : Outcome) (next limit : Nat) :
    Outcome.total ((Played.whileHolds run (c.holds · t) next [] (limit + 1)).map Played.value) ∈ c.widen t range := by
  constructor
  · show c.lower t range.lo ≤ _
    unfold lower
    split
    · exact (Outcome.total _).least_le
    · next hs =>
      refine Played.foldl_whileHolds (R := fun x y => y ≤ x) (fun _ _ _ h h' => Outcome.le_trans h' h) ?_
        (fun k => (h k).1) (fun k again => nonneg_of_holds again (h k).1 hs) (Outcome.le_refl 0) next limit
      intro x y hx
      have := y.le_greatest
      simp only [Outcome.le_iff, Outcome.add_def, Outcome.val_ofInt, Outcome.val_zero] at hx ⊢
      omega
  · show _ ≤ c.upper t range.hi
    unfold upper
    split
    · exact (Outcome.total _).le_greatest
    · next hs =>
      refine Played.foldl_whileHolds (R := fun x y => x ≤ y) (fun _ _ _ => Outcome.le_trans) ?_
        (fun k => (h k).2) (fun k again => nonpos_of_holds again (h k).2 hs) (Outcome.le_refl 0) next limit
      intro x y hx
      have := y.least_le
      simp only [Outcome.le_iff, Outcome.add_def, Outcome.val_ofInt, Outcome.val_zero] at hx ⊢
      omega

namespace Dice
variable {supply : Supply} {d : Dice} {items : List Dice}

/-! ### Rolls -/

theorem playAll_roll_between (h : ∀ d ∈ items, ∀ next, (play supply d .roll next).value ∈ d.bounds) (next : Nat) :
    (items.map fun d => d.bounds.lo).Forall₂ (· ≤ ·) (playAll supply items .roll next).value ∧
      (playAll supply items .roll next).value.Forall₂ (· ≤ ·) (items.map fun d => d.bounds.hi) := by
  have inside := playAll_forall₂ (R := fun d a => a ∈ d.bounds) h next
  exact ⟨List.forall₂_map_left_iff.mpr (inside.imp fun _ _ h => h.1),
    List.forall₂_map_right_iff.mpr (inside.flip.imp fun _ _ h => h.2)⟩

theorem play_roll_mem_bounds (h : Built Foreign.Fair d) (next : Nat) :
    (play supply d .roll next).value ∈ d.bounds := by
  induction h generalizing next with
  | die d => exact d.face_mem _
  | foreign fair => exact fair.face_mem _
  | @sum p _ ih =>
    obtain ⟨hlo, hhi⟩ := playAll_roll_between ih next
    show Outcome.total (playAll supply p.items .roll next).value ∈ Interval.total (boundsAll p.items)
    simp only [boundsAll_eq_map, Interval.total, List.map_map]
    exact ⟨Outcome.total_mono hlo, Outcome.total_mono hhi⟩
  | @select p selector count _ _ _ built ih =>
    obtain ⟨-, rfl⟩ := Pool.select_eq_ok_iff.mp built
    obtain ⟨hlo, hhi⟩ := playAll_roll_between ih next
    show Outcome.total (selector.kept (playAll supply p.items .roll next).value count) ∈
      selector.total (boundsAll p.items) count
    simp only [boundsAll_eq_map, Selector.total, List.map_map]
    exact ⟨Selector.total_kept_mono hlo _ _, Selector.total_kept_mono hhi _ _⟩
  | @explode inner _ comparison threshold limit _ _ built ih =>
    obtain ⟨-, rfl⟩ := explode_eq_ok_iff.mp built
    obtain ⟨more, hmore⟩ : ∃ more, max 1 limit = more + 1 := ⟨max 1 limit - 1, by omega⟩
    rw [hmore]
    exact Comparison.total_whileHolds_mem ih comparison threshold next more
  | apply _ built ih =>
    obtain ⟨accepts, rfl⟩ := apply_eq_ok_iff.mp built
    exact Operator.apply_mem_hull accepts (ih next)

/-- A roll of a tree built out of dice and of fair foreign leaves lies between its minimum and its maximum. -/
theorem roll_between_minimum_maximum (h : Built Foreign.Fair d) (supply : Supply) (next : Nat) :
    d.minimum ≤ d.roll supply next ∧ d.roll supply next ≤ d.maximum := by
  rw [minimum_eq h fun _ => Foreign.Fair.ordered, maximum_eq h fun _ => Foreign.Fair.ordered]
  exact play_roll_mem_bounds h next

/-- A die and a foreign leaf that may show the largest outcome, exploded and then multiplied. -/
def multipliedBurst : Dice :=
  .arithmetic
    (.explosion
      (.pool [.die .percentile, .foreign ⟨"coin", [.least, .greatest], .least, .greatest, true⟩] none)
      .greater 7 3 none)
    .multiply (.ofInt (-3)) none

theorem multipliedBurst_built : Built Foreign.Fair multipliedBurst := by
  have fair : Foreign.Fair ⟨"coin", [.least, .greatest], .least, .greatest, true⟩ :=
    ⟨List.cons_ne_nil _ _, fun a _ => ⟨a.least_le, a.le_greatest⟩⟩
  refine .arithmetic (.explosion (.pool ?_) ?_ (by decide)) trivial
  · simp only [List.forall_mem_cons]
    exact ⟨.die _, .foreign fair, List.forall_mem_nil _⟩
  · decide

theorem multipliedBurst_between :
    multipliedBurst.minimum ≤ multipliedBurst.roll (fun k => 3 * k + 1) 0 ∧
      multipliedBurst.roll (fun k => 3 * k + 1) 0 ≤ multipliedBurst.maximum :=
  roll_between_minimum_maximum multipliedBurst_built _ _

end Dice
end DiceNotation
