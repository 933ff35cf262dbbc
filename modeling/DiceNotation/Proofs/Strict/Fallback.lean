import DiceNotation.Proofs.Faces
import DiceNotation.Proofs.Operator.Hull

/-! Strict steps. Some steps of an evaluation have no result of their own in some states: no number lies in an empty
    range, no slice ends past the end of its list, and nothing divides by zero. Written strictly, a step gives nothing
    in such a state, or falls back on another value if that is allowed. A step that its builder checked gives what the
    plain step gives. -/

namespace DiceNotation

/-- Where a step has another value to fall back on. -/
inductive Fallback
  | sidesPastRange | noFaces | zeroDivisor | quotientPastRange | exponentPastRange | noCandidates | noItems
deriving DecidableEq

namespace Fallback

/-- The value to fall back on, if that is allowed. -/
def resort (allowed : Fallback → Bool) (f : Fallback) (value : α) : Option α :=
  if allowed f then some value else none

end Fallback

open Fallback (resort)

variable (allowed : Fallback → Bool)

/-! ### Faces -/

/-- The number from `lo` to `hi` that a draw picks. -/
def between? (lo hi : Int) (draw : Nat) : Option Int :=
  if lo ≤ hi then some (lo + draw % (hi - lo + 1)) else none

/-- The face of a list that a draw picks. -/
def faceAt? (faces : List Outcome) (draw : Nat) : Option Outcome := do
  let place ← between? 0 (faces.length - 1) draw
  faces[place.toNat]?

namespace Die

def least? : Die → Option Outcome
  | standard _ _ => some 1
  | fudge => some (.ofInt (-1))
  | percentile => some 1
  | custom faces _ => faces.min?.or (resort allowed .noFaces 0)

def greatest? : Die → Option Outcome
  | standard sides _ =>
    if sides ≤ 9223372036854775807 then some (.ofInt sides) else resort allowed .sidesPastRange .greatest
  | fudge => some 1
  | percentile => some 100
  | custom faces _ => faces.max?.or (resort allowed .noFaces 0)

def face? : Die → Nat → Option Outcome
  | standard sides enough, draw => do
    let top ← greatest? allowed (standard sides enough)
    let shown ← between? 1 top.val draw
    return .ofInt shown
  | fudge, draw => (between? (-1) 1 draw).map .ofInt
  | percentile, draw => (between? 1 100 draw).map .ofInt
  | custom faces _, draw => faceAt? faces draw

end Die

theorem between?_eq {lo hi : Int} (h : lo ≤ hi) (draw : Nat) :
    between? lo hi draw = some (lo + draw % (hi - lo + 1)) := if_pos h

theorem faceAt?_eq {faces : List Outcome} {draw : Nat} (h : draw % faces.length < faces.length) :
    faceAt? faces draw = some faces[draw % faces.length] := by
  have place : (0 + (draw : Int) % (faces.length - 1 - 0 + 1)).toNat = draw % faces.length := by
    rw [show (faces.length - 1 - 0 + 1 : Int) = faces.length by omega]
    omega
  rw [faceAt?, between?_eq (by omega)]
  show faces[(0 + (draw : Int) % (faces.length - 1 - 0 + 1)).toNat]? = _
  rw [place, List.getElem?_eq_getElem h]

namespace Die

/-- Whether a die has more sides than its greatest face can say. -/
def Oversized : Die → Prop
  | standard sides _ => 9223372036854775807 < sides
  | _ => False

variable {allowed}

theorem least?_eq (d : Die) : d.least? allowed = some d.least := by
  cases d with
  | standard => rfl
  | fudge => rfl
  | percentile => rfl
  | custom faces enough => rw [least?, min?_eq_least enough, Option.some_or]

theorem greatest?_eq {d : Die} (meant : d.Oversized → allowed .sidesPastRange) :
    d.greatest? allowed = some d.greatest := by
  cases d with
  | standard sides enough =>
    rw [greatest?, greatest]
    split
    · rfl
    · next wide =>
      rw [Outcome.ofInt_eq_greatest (by omega)]
      exact if_pos (meant (by rw [Oversized]; omega))
  | fudge => rfl
  | percentile => rfl
  | custom faces enough => rw [greatest?, max?_eq_greatest enough, Option.some_or]

theorem face?_eq {d : Die} (meant : d.Oversized → allowed .sidesPastRange) (draw : Nat) :
    d.face? allowed draw = some (d.face draw) := by
  cases d with
  | standard sides enough =>
    have top : (standard sides enough).greatest.val = (min sides 9223372036854775807 : Nat) := by
      rw [greatest, Outcome.val_ofInt]
      omega
    have shown : between? 1 (standard sides enough).greatest.val draw =
        some (1 + (draw : Int) % (min sides 9223372036854775807 : Nat)) := by
      rw [between?_eq (by omega), Int.sub_add_cancel, top]
    simp only [face?, greatest?_eq meant, Option.bind_eq_bind, Option.bind_some, shown]
    rfl
  | fudge => rfl
  | percentile => rfl
  | custom faces enough => exact faceAt?_eq (Nat.mod_lt draw (by omega))

end Die

namespace Foreign

/-- A foreign leaf can be rolled if it has a face to show. -/
def Rollable (leaf : Foreign) : Prop := leaf.faces ≠ []

def face? (leaf : Foreign) (draw : Nat) : Option Outcome := faceAt? leaf.faces draw

theorem Rollable.face?_eq {leaf : Foreign} (h : leaf.Rollable) (draw : Nat) : leaf.face? draw = some (leaf.face draw) := by
  have inside : draw % leaf.faces.length < leaf.faces.length := Nat.mod_lt _ (List.length_pos_of_ne_nil h)
  rw [face?, faceAt?_eq inside]
  exact congrArg some (List.getElem_eq_getD 0)

end Foreign

/-! ### Slices -/

namespace Selector
variable {ranked : List α} {k : Nat}

/-- What is left of `m` without `n`. -/
def less? (m n : Nat) : Option Nat := if n ≤ m then some (m - n) else none

/-- The slice up to a place. -/
def front? (values : List α) (n : Nat) : Option (List α) := if n ≤ values.length then some (values.take n) else none

/-- The slice from a place on. -/
def back? (values : List α) (n : Nat) : Option (List α) := if n ≤ values.length then some (values.drop n) else none

def pick? : Selector → List α → Nat → Option (List α)
  | dropHighest, ranked, k => (less? ranked.length k).bind (front? ranked)
  | dropLowest, ranked, k => back? ranked k
  | keepHighest, ranked, k => (less? ranked.length k).bind (back? ranked)
  | keepLowest, ranked, k => front? ranked k

theorem pick?_eq (s : Selector) (h : k ≤ ranked.length) : s.pick? ranked k = some (s.pick ranked k) := by
  cases s with
  | dropHighest => simp [pick?, pick, less?, front?, h]
  | dropLowest => simp [pick?, pick, back?, h]
  | keepHighest => simp [pick?, pick, less?, back?, h]
  | keepLowest => simp [pick?, pick, front?, h]

end Selector

/-! ### Operators -/

namespace Operator
variable {operator : Operator} {operand : Outcome}

def exponent? (operand : Outcome) : Option Nat :=
  if 0 ≤ operand.val ∧ operand.val ≤ 4294967295 then some operand.val.toNat
  else resort allowed .exponentPastRange 4294967295

def result? : Operator → Outcome → Outcome → Option Outcome
  | add, value, operand => some (value + operand)
  | subtract, value, operand => some (value - operand)
  | multiply, value, operand => some (value * operand)
  | divide, value, operand =>
    if operand.val = 0 then resort allowed .zeroDivisor .greatest
    else if value.val.tdiv operand.val ≤ 9223372036854775807 then some (.ofInt (value.val.tdiv operand.val))
    else resort allowed .quotientPastRange .greatest
  | power, value, operand => (exponent? allowed operand).map fun n => .ofInt (Int.pow value.val (shortened n))

/-- The first of the values whose result is the least, or the last whose result is the greatest. -/
def extremeValue? (operator : Operator) (operand : Outcome) (op : Operation) : List Outcome → Option Outcome
  | [] => resort allowed .noCandidates 0
  | first :: others =>
    others.foldlM (fun best value => do
      let result ← operator.result? allowed value operand
      let held ← operator.result? allowed best operand
      return if displaces op result held then value else best) first

def hull? (operator : Operator) (operand : Outcome) (range : Interval) : Option Interval := do
  let least ← operator.extremeValue? allowed operand .minimum (operator.candidates operand range)
  let greatest ← operator.extremeValue? allowed operand .maximum (operator.candidates operand range)
  return ⟨← operator.result? allowed least operand, ← operator.result? allowed greatest operand⟩

variable {allowed}

/-- Only a quotient by minus one can pass the range. -/
theorem tdiv_le_greatest (value : Outcome) {n : Int} (nonzero : n ≠ 0) (other : n ≠ -1) :
    value.val.tdiv n ≤ 9223372036854775807 := by
  rcases eq_or_ne n 1 with rfl | noUnit
  · rw [Int.tdiv_one]
    exact value.le_greatest
  · have halved : value.val.natAbs / n.natAbs ≤ value.val.natAbs / 2 := Nat.div_le_div_left (by omega) (by omega)
    have size : (value.val.tdiv n).natAbs = value.val.natAbs / n.natAbs := Int.natAbs_tdiv value.val n
    have low := value.least_le
    have high := value.le_greatest
    omega

theorem result?_eq (accepts : operator.Accepts operand)
    (meant : operator = .divide → operand.val = -1 → allowed .quotientPastRange) (value : Outcome) :
    operator.result? allowed value operand = some (operator.apply value operand) := by
  cases operator with
  | add => rfl
  | subtract => rfl
  | multiply => rfl
  | divide =>
    have nonzero : operand.val ≠ 0 := accepts
    rw [result?, divide_apply nonzero, if_neg nonzero]
    split
    · rfl
    · next past =>
      have turned : operand.val = -1 := by_contra fun other => past (tdiv_le_greatest value nonzero other)
      rw [Outcome.ofInt_eq_greatest (by omega)]
      exact if_pos (meant rfl turned)
  | power =>
    have fits : 0 ≤ operand.val ∧ operand.val ≤ 4294967295 := accepts
    rw [result?, apply, exponent?, exponent, if_pos fits, if_pos fits]
    rfl

theorem extremeValue?_eq (accepts : operator.Accepts operand)
    (meant : operator = .divide → operand.val = -1 → allowed .quotientPastRange) (op : Operation) (range : Interval) :
    operator.extremeValue? allowed operand op (operator.candidates operand range) =
      some (operator.extremeValue operand op range) := by
  simp only [candidates, extremeValue?, result?_eq accepts meant]
  exact List.foldlM_pure

theorem hull?_eq (accepts : operator.Accepts operand)
    (meant : operator = .divide → operand.val = -1 → allowed .quotientPastRange) (range : Interval) :
    operator.hull? allowed operand range = some (operator.hull operand range) := by
  simp only [hull?, extremeValue?_eq accepts meant, result?_eq accepts meant]
  rfl

end Operator
end DiceNotation
