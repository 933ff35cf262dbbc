import Mathlib.Algebra.Order.Ring.Int
import Mathlib.Algebra.Order.Ring.Abs
import DiceNotation.Operator
import DiceNotation.Proofs.Totals

/-! The hull of an operator over an interval. An accepted operator computes exactly on integers, follows its
    trend, and an even power grows with the size of the value. So the result of every value in an interval
    lies in the hull, and the ends of the hull are the results of values in the interval. -/

namespace DiceNotation.Operator

variable {op : Operator} {n a b v : Outcome} {range : Interval}

/-! ### Exact results -/

/-- The result on integers without ends. -/
def exact : Operator → Int → Int → Int
  | add, value, operand => value + operand
  | subtract, value, operand => value - operand
  | multiply, value, operand => value * operand
  | divide, value, operand => value.tdiv operand
  | power, value, operand => Int.pow value operand.toNat

/-- An accepted operator gives the outcome nearest to its exact result. -/
theorem apply_eq_ofInt_exact (h : op.Accepts n) (a : Outcome) : op.apply a n = .ofInt (op.exact a.val n.val) := by
  cases op with
  | add => rfl
  | subtract => rfl
  | multiply => rfl
  | divide => exact divide_apply h a
  | power =>
    have hn : exponent n = n.val.toNat := if_pos h
    show Outcome.ofInt (Int.pow a.val (shortened (exponent n))) = _
    rw [ofInt_pow_shortened, hn]
    rfl

theorem apply_le_of_exact (h : op.Accepts n) (hab : op.exact a.val n.val ≤ op.exact b.val n.val) :
    op.apply a n ≤ op.apply b n := by
  rw [apply_eq_ofInt_exact h, apply_eq_ofInt_exact h]
  exact Outcome.ofInt_mono hab

/-! ### Trends -/

theorem multiply_rising_iff : multiply.trend n = .rising ↔ 0 ≤ n.val := by
  rw [trend]
  split <;> simp_all

theorem multiply_falling_iff : multiply.trend n = .falling ↔ n.val < 0 := by
  rw [trend]
  split <;> simp_all

theorem power_rising_iff : power.trend n = .rising ↔ n.val = 0 ∨ n.val % 2 = 1 := by
  rw [trend]
  split <;> simp_all

theorem power_ne_falling : power.trend n ≠ .falling := by
  rw [trend]
  split <;> simp

theorem mixed_iff : op.trend n = .mixed ↔ op = .power ∧ n.val ≠ 0 ∧ n.val % 2 = 0 := by
  cases op with
  | add => simp [trend]
  | subtract => simp [trend]
  | multiply => rw [trend]; split <;> simp
  | divide => rw [trend]; split <;> simp
  | power => rw [trend]; split <;> simp <;> omega

theorem tdiv_anti {x y m : Int} (hm : m < 0) (hxy : x ≤ y) : y.tdiv m ≤ x.tdiv m := by
  have := Int.tdiv_le_tdiv (show 0 < -m by omega) hxy
  rw [Int.tdiv_neg, Int.tdiv_neg] at this
  omega

theorem apply_mono (h : op.Accepts n) (ht : op.trend n = .rising) (hab : a ≤ b) : op.apply a n ≤ op.apply b n := by
  apply apply_le_of_exact h
  cases op with
  | add => exact Int.add_le_add_right hab _
  | subtract => exact Int.sub_le_sub_right hab _
  | multiply => exact Int.mul_le_mul_of_nonneg_right hab (multiply_rising_iff.mp ht)
  | divide => exact Int.tdiv_le_tdiv (lt_of_le_of_ne (multiply_rising_iff.mp ht) (Ne.symm h)) hab
  | power =>
    show a.val ^ n.val.toNat ≤ b.val ^ n.val.toNat
    rcases power_rising_iff.mp ht with hn | hn
    · rw [hn, Int.toNat_zero, pow_zero, pow_zero]
    · have := h.1
      have odd : Odd n.val.toNat := Nat.odd_iff.mpr (by omega)
      exact odd.pow_le_pow.mpr hab

theorem apply_anti (h : op.Accepts n) (ht : op.trend n = .falling) (hab : a ≤ b) :
    op.apply b n ≤ op.apply a n := by
  apply apply_le_of_exact h
  cases op with
  | add => cases ht
  | subtract => cases ht
  | multiply => exact Int.mul_le_mul_of_nonpos_right hab (Int.le_of_lt (multiply_falling_iff.mp ht))
  | divide => exact tdiv_anti (multiply_falling_iff.mp ht) hab
  | power => exact absurd ht power_ne_falling

/-- An even power grows with the size of the value. -/
theorem apply_le_of_natAbs_le (h : op.Accepts n) (ht : op.trend n = .mixed) (hab : a.val.natAbs ≤ b.val.natAbs) :
    op.apply a n ≤ op.apply b n := by
  obtain ⟨rfl, -, hn⟩ := mixed_iff.mp ht
  have := h.1
  have even : Even n.val.toNat := Nat.even_iff.mpr (by omega)
  apply apply_le_of_exact h
  show a.val ^ n.val.toNat ≤ b.val ^ n.val.toNat
  rw [← even.pow_abs a.val, ← even.pow_abs b.val, Int.abs_eq_natAbs, Int.abs_eq_natAbs]
  exact pow_le_pow_left₀ (Int.natCast_nonneg _) (Int.ofNat_le.mpr hab) _

/-! ### Extremes -/

theorem foldl_replace_mem (p : Outcome → Outcome → Bool) (best : Outcome) (values : List Outcome) :
    values.foldl (fun best v => if p v best then v else best) best ∈ best :: values := by
  induction values generalizing best with
  | nil => exact List.mem_singleton_self best
  | cons v values ih =>
    rw [List.foldl_cons]
    rcases List.mem_cons.mp (ih (if p v best then v else best)) with h | h
    · rw [h]
      split
      · exact List.mem_cons_of_mem _ List.mem_cons_self
      · exact List.mem_cons_self
    · exact List.mem_cons_of_mem _ (List.mem_cons_of_mem _ h)

/-- What replaces the best only when it is better is the best of all. -/
theorem foldl_replace_best {R : Outcome → Outcome → Prop} {p : Outcome → Outcome → Bool} (refl : ∀ v, R v v)
    (trans : ∀ u v w, R u v → R v w → R u w) (pos : ∀ u v, p u v = true → R u v)
    (neg : ∀ u v, p u v = false → R v u) (best : Outcome) (values : List Outcome) :
    ∀ c ∈ best :: values, R (values.foldl (fun best v => if p v best then v else best) best) c := by
  induction values generalizing best with
  | nil =>
    intro c hc
    rw [List.mem_singleton.mp hc]
    exact refl best
  | cons v values ih =>
    intro c hc
    rw [List.foldl_cons]
    cases hp : p v best with
    | true =>
      rw [if_pos rfl]
      rcases List.mem_cons.mp hc with rfl | hc
      · exact trans _ v _ (ih v v List.mem_cons_self) (pos _ _ hp)
      · exact ih v c hc
    | false =>
      rw [if_neg Bool.false_ne_true]
      rcases List.mem_cons.mp hc with rfl | hc
      · exact ih _ _ List.mem_cons_self
      · rcases List.mem_cons.mp hc with rfl | hc
        · exact trans _ best _ (ih best best List.mem_cons_self) (neg _ _ hp)
        · exact ih best c (List.mem_cons_of_mem _ hc)

/-- The values at which the results over an interval can be extreme. -/
def candidates (op : Operator) (n : Outcome) (range : Interval) : List Outcome :=
  range.lo :: op.turningPoints n range

theorem lo_mem_candidates : range.lo ∈ op.candidates n range := List.mem_cons_self

theorem hi_mem_candidates : range.hi ∈ op.candidates n range := by
  apply List.mem_cons_of_mem
  unfold turningPoints
  split <;> exact List.mem_cons_self

theorem extremeValue_mem_candidates (q : Operation) : op.extremeValue n q range ∈ op.candidates n range :=
  foldl_replace_mem (fun v best => displaces q (op.apply v n) (op.apply best n)) _ _

theorem hull_lo_le {c : Outcome} (hc : c ∈ op.candidates n range) : (op.hull n range).lo ≤ op.apply c n :=
  foldl_replace_best (R := fun u v => op.apply u n ≤ op.apply v n)
    (p := fun v best => displaces .minimum (op.apply v n) (op.apply best n))
    (fun _ => Outcome.le_refl _) (fun _ _ _ => Outcome.le_trans)
    (fun _ _ h => Outcome.le_of_lt (of_decide_eq_true h)) (fun _ _ h => Outcome.not_lt.mp (of_decide_eq_false h))
    _ _ c hc

theorem le_hull_hi {c : Outcome} (hc : c ∈ op.candidates n range) : op.apply c n ≤ (op.hull n range).hi :=
  foldl_replace_best (R := fun u v => op.apply v n ≤ op.apply u n)
    (p := fun v best => displaces .maximum (op.apply v n) (op.apply best n))
    (fun _ => Outcome.le_refl _) (fun _ _ _ h h' => Outcome.le_trans h' h)
    (fun _ _ h => of_decide_eq_true h)
    (fun _ _ h => Outcome.le_of_lt (Outcome.not_le.mp (of_decide_eq_false h)))
    _ _ c hc

/-- Zero is a candidate if it lies strictly inside the interval and the results are mixed. -/
theorem mem_candidates_iff {c : Outcome} :
    c ∈ op.candidates n range ↔
      c = range.lo ∨ c = range.hi ∨ c = 0 ∧ op.trend n = .mixed ∧ range.lo < 0 ∧ 0 < range.hi := by
  unfold candidates turningPoints
  split
  · simp_all
  · next h => simp [h]

theorem mem_of_mem_candidates (h : range.lo ≤ range.hi) {c : Outcome} (hc : c ∈ op.candidates n range) :
    c ∈ range := by
  rcases mem_candidates_iff.mp hc with rfl | rfl | ⟨rfl, -, hlo, hhi⟩
  · exact ⟨Outcome.le_refl _, h⟩
  · exact ⟨h, Outcome.le_refl _⟩
  · exact ⟨Outcome.le_of_lt hlo, Outcome.le_of_lt hhi⟩

theorem extremeValue_mem (h : range.lo ≤ range.hi) (q : Operation) : op.extremeValue n q range ∈ range :=
  mem_of_mem_candidates h (extremeValue_mem_candidates q)

/-! ### The hull -/

/-- The result of a value lies between the results of two candidates. -/
theorem apply_between (h : op.Accepts n) (hv : v ∈ range) :
    (∃ c ∈ op.candidates n range, op.apply c n ≤ op.apply v n) ∧
      ∃ c ∈ op.candidates n range, op.apply v n ≤ op.apply c n := by
  obtain ⟨hlo, hhi⟩ := hv
  cases ht : op.trend n with
  | rising => exact ⟨⟨_, lo_mem_candidates, apply_mono h ht hlo⟩, _, hi_mem_candidates, apply_mono h ht hhi⟩
  | falling => exact ⟨⟨_, hi_mem_candidates, apply_anti h ht hhi⟩, _, lo_mem_candidates, apply_anti h ht hlo⟩
  | mixed =>
    rw [Outcome.le_iff] at hlo hhi
    constructor
    · -- The value of least size: an end on the side of zero, or zero itself.
      rcases lt_or_ge range.lo.val 0 with hneg | hneg <;> rcases lt_or_ge 0 range.hi.val with hpos | hpos
      · exact ⟨0, mem_candidates_iff.mpr (.inr (.inr ⟨rfl, ht, hneg, hpos⟩)),
          apply_le_of_natAbs_le h ht (Nat.zero_le _)⟩
      · exact ⟨_, hi_mem_candidates, apply_le_of_natAbs_le h ht (by omega)⟩
      · exact ⟨_, lo_mem_candidates, apply_le_of_natAbs_le h ht (by omega)⟩
      · exact ⟨_, lo_mem_candidates, apply_le_of_natAbs_le h ht (by omega)⟩
    · rcases Nat.le_total range.lo.val.natAbs range.hi.val.natAbs with hsize | hsize
      · exact ⟨_, hi_mem_candidates, apply_le_of_natAbs_le h ht (by omega)⟩
      · exact ⟨_, lo_mem_candidates, apply_le_of_natAbs_le h ht (by omega)⟩

/-- The result of every value in an interval lies in the hull. -/
theorem apply_mem_hull (h : op.Accepts n) (hv : v ∈ range) : op.apply v n ∈ op.hull n range := by
  obtain ⟨⟨c, hc, hlo⟩, c', hc', hhi⟩ := apply_between h hv
  exact ⟨Outcome.le_trans (hull_lo_le hc) hlo, Outcome.le_trans hhi (le_hull_hi hc')⟩

theorem hull_ordered : (op.hull n range).lo ≤ (op.hull n range).hi :=
  Outcome.le_trans (hull_lo_le lo_mem_candidates) (le_hull_hi lo_mem_candidates)

theorem hull_of_rising (h : op.Accepts n) (ht : op.trend n = .rising) (ordered : range.lo ≤ range.hi) :
    op.hull n range = ⟨op.apply range.lo n, op.apply range.hi n⟩ := by
  have least : op.extremeValue n .minimum range ∈ range := extremeValue_mem ordered _
  have greatest : op.extremeValue n .maximum range ∈ range := extremeValue_mem ordered _
  exact congrArg₂ Interval.mk (Outcome.le_antisymm (hull_lo_le lo_mem_candidates) (apply_mono h ht least.1))
    (Outcome.le_antisymm (apply_mono h ht greatest.2) (le_hull_hi hi_mem_candidates))

theorem hull_of_falling (h : op.Accepts n) (ht : op.trend n = .falling) (ordered : range.lo ≤ range.hi) :
    op.hull n range = ⟨op.apply range.hi n, op.apply range.lo n⟩ := by
  have least : op.extremeValue n .minimum range ∈ range := extremeValue_mem ordered _
  have greatest : op.extremeValue n .maximum range ∈ range := extremeValue_mem ordered _
  exact congrArg₂ Interval.mk (Outcome.le_antisymm (hull_lo_le hi_mem_candidates) (apply_anti h ht least.2))
    (Outcome.le_antisymm (apply_anti h ht greatest.1) (le_hull_hi lo_mem_candidates))

end DiceNotation.Operator
