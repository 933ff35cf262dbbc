import DiceNotation.Die
import DiceNotation.Proofs.Totals

/-! The faces of a die lie between the least and the greatest of them, and some draw shows each of these two. -/

namespace DiceNotation

namespace Die
variable {d : Die}

theorem min?_eq_least {faces : List Outcome} (enough : 2 ≤ faces.length) :
    faces.min? = some (custom faces enough).least := by
  obtain ⟨a, ha⟩ := Option.isSome_iff_exists.mp (List.isSome_min?_of_ne_nil (l := faces) (by rintro rfl; cases enough))
  rw [least, ha]
  rfl

theorem max?_eq_greatest {faces : List Outcome} (enough : 2 ≤ faces.length) :
    faces.max? = some (custom faces enough).greatest := by
  obtain ⟨a, ha⟩ := Option.isSome_iff_exists.mp (List.isSome_max?_of_ne_nil (l := faces) (by rintro rfl; cases enough))
  rw [greatest, ha]
  rfl

theorem face_mem (d : Die) (draw : Nat) : d.face draw ∈ (⟨d.least, d.greatest⟩ : Interval) := by
  cases d with
  | standard sides enough =>
    have := Nat.mod_lt draw (show 0 < min sides 9223372036854775807 by omega)
    have hface : ((standard sides enough).face draw).val = 1 + (draw % min sides 9223372036854775807 : Nat) :=
      Outcome.val_ofInt_of_mem (by omega) (by omega)
    have hmax : (standard sides enough).greatest.val = min (sides : Int) 9223372036854775807 := by
      rw [greatest, Outcome.val_ofInt]
      omega
    show (1 : Int) ≤ ((standard sides enough).face draw).val ∧ ((standard sides enough).face draw).val ≤
      (standard sides enough).greatest.val
    omega
  | fudge =>
    have hface : (fudge.face draw).val = -1 + (draw % 3 : Nat) := Outcome.val_ofInt_of_mem (by omega) (by omega)
    show (-1 : Int) ≤ (fudge.face draw).val ∧ (fudge.face draw).val ≤ 1
    omega
  | percentile =>
    have hface : (percentile.face draw).val = 1 + (draw % 100 : Nat) :=
      Outcome.val_ofInt_of_mem (by omega) (by omega)
    show (1 : Int) ≤ (percentile.face draw).val ∧ (percentile.face draw).val ≤ 100
    omega
  | custom faces enough =>
    have shown : (custom faces enough).face draw ∈ faces := List.getElem_mem _
    exact ⟨(List.min?_eq_some_iff.mp (min?_eq_least enough)).2 _ shown,
      (List.max?_eq_some_iff.mp (max?_eq_greatest enough)).2 _ shown⟩

theorem exists_face_of_mem {faces : List Outcome} (enough : 2 ≤ faces.length) {a : Outcome} (ha : a ∈ faces) :
    ∃ draw, (custom faces enough).face draw = a := by
  obtain ⟨i, hi, rfl⟩ := List.getElem_of_mem ha
  exact ⟨i, by simp only [face, Nat.mod_eq_of_lt hi]⟩

theorem exists_face_least (d : Die) : ∃ draw, d.face draw = d.least := by
  cases d with
  | standard sides enough => exact ⟨0, by simp [face, least]; rfl⟩
  | fudge => exact ⟨0, rfl⟩
  | percentile => exact ⟨0, rfl⟩
  | custom faces enough => exact exists_face_of_mem enough (List.min?_eq_some_iff.mp (min?_eq_least enough)).1

theorem exists_face_greatest (d : Die) : ∃ draw, d.face draw = d.greatest := by
  cases d with
  | standard sides enough =>
    refine ⟨min sides 9223372036854775807 - 1, Outcome.ext ?_⟩
    have hmod := Nat.mod_eq_of_lt (show min sides 9223372036854775807 - 1 < min sides 9223372036854775807 by omega)
    simp only [face, greatest, ← Int.natCast_emod, hmod, Outcome.val_ofInt]
    omega
  | fudge => exact ⟨2, rfl⟩
  | percentile => exact ⟨99, rfl⟩
  | custom faces enough => exact exists_face_of_mem enough (List.max?_eq_some_iff.mp (max?_eq_greatest enough)).1

end Die

namespace Foreign

/-- A foreign leaf is fair if it has faces and all of them lie within its bounds. -/
def Fair (leaf : Foreign) : Prop := leaf.faces ≠ [] ∧ ∀ a ∈ leaf.faces, leaf.least ≤ a ∧ a ≤ leaf.greatest

variable {leaf : Foreign}

theorem Fair.face_mem (h : leaf.Fair) (draw : Nat) : leaf.face draw ∈ (⟨leaf.least, leaf.greatest⟩ : Interval) := by
  have hlt : draw % leaf.faces.length < leaf.faces.length := Nat.mod_lt _ (List.length_pos_of_ne_nil h.1)
  have hface : leaf.face draw = leaf.faces[draw % leaf.faces.length] :=
    (List.getElem_eq_getD 0).symm
  rw [hface]
  exact h.2 _ (List.getElem_mem hlt)

theorem Fair.ordered (h : leaf.Fair) : leaf.least ≤ leaf.greatest :=
  Outcome.le_trans (h.face_mem 0).1 (h.face_mem 0).2

end Foreign
end DiceNotation
