/-! Outcomes: integers of 64 bits whose arithmetic stops at the ends. What a die shows, what a pool sums to
    and every constant of a notation is an outcome. A result that would pass an end of the range stays at
    that end (`ofInt`), so a long sum depends on its order, and `total` adds from the left. -/

namespace DiceNotation

/-- An integer from -2^63 to 2^63 - 1. -/
structure Outcome where
  val : Int
  least_le : -9223372036854775808 ≤ val
  le_greatest : val ≤ 9223372036854775807

namespace Outcome

@[ext] theorem ext {a b : Outcome} (h : a.val = b.val) : a = b := by
  cases a; cases b; cases h; rfl

instance : DecidableEq Outcome := fun a b =>
  if h : a.val = b.val then .isTrue (ext h) else .isFalse fun hab => h (hab ▸ rfl)

/-- The outcome nearest to an integer. -/
def ofInt (n : Int) : Outcome where
  val := max (-9223372036854775808) (min n 9223372036854775807)
  least_le := by omega
  le_greatest := by omega

theorem val_ofInt (n : Int) :
    (ofInt n).val = max (-9223372036854775808) (min n 9223372036854775807) := rfl

theorem val_ofInt_of_mem {n : Int} (hl : -9223372036854775808 ≤ n) (hg : n ≤ 9223372036854775807) :
    (ofInt n).val = n := by
  rw [val_ofInt]; omega

@[simp] theorem ofInt_val (a : Outcome) : ofInt a.val = a :=
  ext (val_ofInt_of_mem a.least_le a.le_greatest)

def least : Outcome := ofInt (-9223372036854775808)

def greatest : Outcome := ofInt 9223372036854775807

/-- The outcome that an integer is, if it lies within the range. -/
def ofInt? (n : Int) : Option Outcome :=
  if fits : least.val ≤ n ∧ n ≤ greatest.val then some ⟨n, fits.1, fits.2⟩ else none

instance (n : Nat) : OfNat Outcome n := ⟨ofInt n⟩
instance : Inhabited Outcome := ⟨0⟩
instance : Add Outcome := ⟨fun a b => ofInt (a.val + b.val)⟩
instance : Sub Outcome := ⟨fun a b => ofInt (a.val - b.val)⟩
instance : Mul Outcome := ⟨fun a b => ofInt (a.val * b.val)⟩
instance : LE Outcome := ⟨fun a b => a.val ≤ b.val⟩
instance : LT Outcome := ⟨fun a b => a.val < b.val⟩
instance (a b : Outcome) : Decidable (a ≤ b) := inferInstanceAs (Decidable (a.val ≤ b.val))
instance (a b : Outcome) : Decidable (a < b) := inferInstanceAs (Decidable (a.val < b.val))
instance : Min Outcome := minOfLe
instance : Max Outcome := maxOfLe

/-! ### Reading through `val` -/

theorem le_iff {a b : Outcome} : a ≤ b ↔ a.val ≤ b.val := Iff.rfl
theorem lt_iff {a b : Outcome} : a < b ↔ a.val < b.val := Iff.rfl
@[simp] theorem val_least : least.val = -9223372036854775808 := rfl
@[simp] theorem val_greatest : greatest.val = 9223372036854775807 := rfl
@[simp] theorem val_zero : (0 : Outcome).val = 0 := rfl
@[simp] theorem val_one : (1 : Outcome).val = 1 := rfl
theorem add_def (a b : Outcome) : a + b = ofInt (a.val + b.val) := rfl
theorem sub_def (a b : Outcome) : a - b = ofInt (a.val - b.val) := rfl

theorem ofInt_mono {m n : Int} (h : m ≤ n) : ofInt m ≤ ofInt n := by
  rw [le_iff, val_ofInt, val_ofInt]; omega

theorem ofInt_eq_greatest {n : Int} (h : 9223372036854775807 ≤ n) : ofInt n = greatest :=
  ext (by rw [val_ofInt, val_greatest]; omega)

theorem ofInt?_of_mem {n : Int} (low : least.val ≤ n) (high : n ≤ greatest.val) : ofInt? n = some (ofInt n) := by
  rw [ofInt?, dif_pos ⟨low, high⟩]
  exact congrArg some (ext (val_ofInt_of_mem low high).symm)

/-- An integer that can have passed one end only is held at that end if it is no outcome. -/
theorem ofInt_eq_getD {n : Int} {sinks : Prop} [Decidable sinks] (down : sinks → n ≤ greatest.val)
    (up : ¬sinks → least.val ≤ n) :
    ofInt n = (ofInt? n).getD (if sinks then least else greatest) := by
  rw [val_greatest] at down
  rw [val_least] at up
  by_cases fits : least.val ≤ n ∧ n ≤ greatest.val
  · rw [ofInt?_of_mem fits.1 fits.2, Option.getD_some]
  · rw [ofInt?, dif_neg fits, Option.getD_none]
    rw [val_greatest, val_least] at fits
    split
    · next low =>
      have := down low
      exact ext (by rw [val_ofInt, val_least]; omega)
    · next high =>
      have := up high
      exact ofInt_eq_greatest (by omega)

/-! ### Sums and order -/

/-- The sum from the left, each partial sum held within the range. -/
def total (values : List Outcome) : Outcome := values.foldl (· + ·) 0

@[simp] theorem total_singleton (a : Outcome) : total [a] = a := by
  show ofInt (0 + a.val) = a
  rw [Int.zero_add, ofInt_val]

def ascending (values : List Outcome) : List Outcome := values.mergeSort fun a b => decide (a ≤ b)

theorem ascending_perm (values : List Outcome) : (ascending values).Perm values :=
  List.mergeSort_perm values _

@[simp] theorem length_ascending (values : List Outcome) : (ascending values).length = values.length :=
  (ascending_perm values).length_eq

theorem pairwise_ascending (values : List Outcome) : (ascending values).Pairwise (· ≤ ·) := by
  refine (List.pairwise_mergeSort (fun a b c => ?_) (fun a b => ?_) values).imp of_decide_eq_true
  · simp only [decide_eq_true_eq, le_iff]; omega
  · simp only [Bool.or_eq_true, decide_eq_true_eq, le_iff]; omega

/-- The ascending order is the only ordered arrangement of the values. -/
theorem ascending_eq_of_perm {ranked values : List Outcome} (same : ranked.Perm values)
    (ordered : ranked.Pairwise (· ≤ ·)) : ascending values = ranked :=
  List.Perm.eq_of_pairwise (fun _ _ _ _ hab hba => ext (Int.le_antisymm hab hba)) (pairwise_ascending values)
    ordered ((ascending_perm values).trans same.symm)

theorem ascending_congr {values values' : List Outcome} (same : values.Perm values') :
    ascending values = ascending values' :=
  ascending_eq_of_perm ((ascending_perm values').trans same.symm) (pairwise_ascending values')

end Outcome
end DiceNotation
