import Mathlib.Algebra.Order.BigOperators.Group.List
import Mathlib.Algebra.Order.Group.Nat
import DiceNotation.Dice.Bounds
import DiceNotation.Proofs.Nodes
import DiceNotation.Proofs.Totals

/-! The addends of a tree: what is left when every pool that is added up gives way to its items. While the bounds
    of the addends add up within the range of outcomes, the bounds of the tree are their exact sums, so neither
    the order nor the grouping of the addends counts. -/

namespace DiceNotation

namespace Interval

/-- The greatest size of an end. -/
def reach (range : Interval) : Nat := max range.lo.val.natAbs range.hi.val.natAbs

end Interval

namespace Dice

mutual
/-- The tree itself, or the addends of its items if it is a pool. -/
def addends : Dice → List Dice
  | pool items _ => addendsAll items
  | d => [d]

/-- The addends of each item. -/
def addendsAll : List Dice → List Dice
  | [] => []
  | d :: ds => addends d ++ addendsAll ds
end

theorem addendsAll_eq_flatMap (items : List Dice) : addendsAll items = items.flatMap addends := by
  induction items with
  | nil => rfl
  | cons d ds ih => rw [addendsAll, ih, List.flatMap_cons]

/-- What the bounds of addends can add up to at most, in size. -/
def span (ds : List Dice) : Nat := (ds.map fun d => d.bounds.reach).sum

theorem span_append (ds ds' : List Dice) : span (ds ++ ds') = span ds + span ds' := by
  rw [span, List.map_append, List.sum_append]
  rfl

/-- No pool in the tree can add up to more than the range of outcomes holds. The pool of a selection is no node, so
    it needs no room. -/
def Roomy (d : Dice) : Prop :=
  ∀ items tracer, .pool items tracer ∈ d.nodes → span (addendsAll items) ≤ 9223372036854775807

theorem Roomy.inner {inner : Dice} {operator : Operator} {operand : Outcome} {tracer : Option Tracer}
    (h : (arithmetic inner operator operand tracer).Roomy) : inner.Roomy :=
  fun items tracer hmem => h items tracer (List.mem_cons_of_mem _ hmem)

theorem Roomy.item {items : List Dice} {tracer : Option Tracer} {d : Dice} (h : (pool items tracer).Roomy)
    (hd : d ∈ items) : d.Roomy :=
  fun items tracer hmem => h items tracer (List.mem_cons_of_mem _ (mem_nodesAll.mpr ⟨d, hd, hmem⟩))

theorem Roomy.span_le {items : List Dice} {tracer : Option Tracer} (h : (pool items tracer).Roomy) :
    span (pool items tracer).addends ≤ 9223372036854775807 := h items tracer (mem_nodes_self _)

theorem addendsAll_replicate {count : Nat} {d : Dice} (alone : d.addends = [d]) :
    addendsAll (List.replicate count d) = List.replicate count d := by
  induction count with
  | zero => rfl
  | succ n ih => rw [List.replicate_succ, addendsAll, ih, alone, List.singleton_append]

/-! ### Exact bounds -/

section
variable {f : Interval → Outcome}

mutual
/-- An end of the bounds of a tree is the exact sum of this end over its addends. -/
theorem val_end (size : ∀ r, (f r).val.natAbs ≤ r.reach) (sums : ∀ rs, f (.total rs) = .total (rs.map f)) :
    (d : Dice) → span d.addends ≤ 9223372036854775807 →
      (f d.bounds).val = (d.addends.map fun e => (f e.bounds).val).sum ∧ (f d.bounds).val.natAbs ≤ span d.addends
  | pool items tracer, room => by
    obtain ⟨exact, small⟩ := val_ends size sums items room
    have total : (f (pool items tracer).bounds).val = ((boundsAll items).map fun r => (f r).val).sum := by
      rw [bounds, sums, Outcome.val_total (by rw [List.map_map]; exact Nat.le_trans small room), List.map_map]
      rfl
    refine ⟨total.trans exact, ?_⟩
    rw [total]
    refine Nat.le_trans ?_ small
    have := List.le_sum_of_subadditive Int.natAbs Int.natAbs_zero.le Int.natAbs_add_le ((boundsAll items).map fun r => (f r).val)
    rwa [List.map_map] at this
  | die _, _ | foreign _, _ | selection _ _ _ _ _, _ | explosion _ _ _ _ _, _ | arithmetic _ _ _ _, _ => by
    simpa [addends, span] using size _

theorem val_ends (size : ∀ r, (f r).val.natAbs ≤ r.reach) (sums : ∀ rs, f (.total rs) = .total (rs.map f)) :
    (ds : List Dice) → span (addendsAll ds) ≤ 9223372036854775807 →
      ((boundsAll ds).map fun r => (f r).val).sum = ((addendsAll ds).map fun e => (f e.bounds).val).sum ∧
        ((boundsAll ds).map fun r => (f r).val.natAbs).sum ≤ span (addendsAll ds)
  | [], _ => ⟨rfl, Nat.le_refl 0⟩
  | d :: ds, room => by
    rw [addendsAll, span_append] at room ⊢
    obtain ⟨exact, small⟩ := val_end size sums d (by omega)
    obtain ⟨exacts, smalls⟩ := val_ends size sums ds (by omega)
    rw [boundsAll, List.map_cons, List.map_cons, List.sum_cons, List.sum_cons, List.map_append, List.sum_append, exact,
      exacts]
    exact ⟨rfl, by omega⟩
end

end

/-! ### Profiles -/

/-- What a regrouped tree keeps: the bounds and the largest face. -/
def profile (d : Dice) : Interval × Outcome := (d.bounds, d.highestFace)

variable {d e : Dice} {items items' : List Dice}

theorem boundsAll_eq_of_profiles (h : items.map profile = items'.map profile) : boundsAll items = boundsAll items' := by
  have := congrArg (List.map Prod.fst) h
  rw [List.map_map, List.map_map] at this
  rw [boundsAll_eq_map, boundsAll_eq_map]
  exact this

theorem highestFaces_eq_of_profiles (h : items.map profile = items'.map profile) :
    highestFaces items = highestFaces items' := by
  have := congrArg (List.map Prod.snd) h
  rw [List.map_map, List.map_map] at this
  rw [highestFaces_eq_map, highestFaces_eq_map]
  exact this

theorem profile_pool {tracer tracer' : Option Tracer} (h : items.map profile = items'.map profile) :
    (pool items tracer).profile = (pool items' tracer').profile := by
  unfold profile bounds highestFace
  rw [boundsAll_eq_of_profiles h, highestFaces_eq_of_profiles h]

theorem profile_selection {poolTracer poolTracer' tracer tracer' : Option Tracer} {selector : Selector} {count : Nat}
    (h : items.map profile = items'.map profile) :
    (selection items poolTracer selector count tracer).profile =
      (selection items' poolTracer' selector count tracer').profile := by
  unfold profile bounds highestFace
  rw [boundsAll_eq_of_profiles h, highestFaces_eq_of_profiles h]

theorem profile_explosion {comparison : Comparison} {threshold : Outcome} {limit limit' : Nat}
    {tracer tracer' : Option Tracer} (h : e.profile = d.profile) :
    (explosion e comparison threshold limit tracer).profile =
      (explosion d comparison threshold limit' tracer').profile := by
  obtain ⟨hbounds, hface⟩ := Prod.mk.inj h
  unfold profile bounds highestFace
  rw [hbounds, hface]

theorem profile_arithmetic {operator : Operator} {operand : Outcome} {tracer tracer' : Option Tracer}
    (h : e.profile = d.profile) :
    (arithmetic e operator operand tracer).profile = (arithmetic d operator operand tracer').profile := by
  obtain ⟨hbounds, -⟩ := Prod.mk.inj h
  unfold profile highestFace bounds
  rw [hbounds]

theorem profiles_singleton (h : e.profile = d.profile) : [e].map profile = [d].map profile :=
  congrArg (fun p => [p]) h

mutual
/-- Trees of one structure have one profile, and so have their addends. -/
theorem profile_eq_of_same : (e d : Dice) → same e d = true →
    e.profile = d.profile ∧ e.addends.map profile = d.addends.map profile
  | pool items _, d, h => by
    cases d with
    | pool items' _ =>
      obtain ⟨hitems, haddends⟩ := profiles_eq_of_same items items' h
      exact ⟨profile_pool hitems, haddends⟩
    | _ => cases h
  | selection items _ _ _ _, d, h => by
    cases d with
    | selection items' _ _ _ _ =>
      simp only [same, Bool.and_eq_true, beq_iff_eq] at h
      obtain ⟨⟨rfl, rfl⟩, hall⟩ := h
      obtain ⟨hitems, -⟩ := profiles_eq_of_same items items' hall
      exact ⟨profile_selection hitems, profiles_singleton (profile_selection hitems)⟩
    | _ => cases h
  | explosion inner _ _ _ _, d, h => by
    cases d with
    | explosion inner' _ _ _ _ =>
      simp only [same, Bool.and_eq_true, beq_iff_eq] at h
      obtain ⟨⟨rfl, rfl⟩, hinner⟩ := h
      obtain ⟨hprofile, -⟩ := profile_eq_of_same inner inner' hinner
      exact ⟨profile_explosion hprofile, profiles_singleton (profile_explosion hprofile)⟩
    | _ => cases h
  | arithmetic inner _ _ _, d, h => by
    cases d with
    | arithmetic inner' _ _ _ =>
      simp only [same, Bool.and_eq_true, beq_iff_eq] at h
      obtain ⟨⟨rfl, rfl⟩, hinner⟩ := h
      obtain ⟨hprofile, -⟩ := profile_eq_of_same inner inner' hinner
      exact ⟨profile_arithmetic hprofile, profiles_singleton (profile_arithmetic hprofile)⟩
    | _ => cases h
  | die _, d, h | foreign _, d, h => by
    cases d <;> simp_all [same]

theorem profiles_eq_of_same : (es ds : List Dice) → sameAll es ds = true →
    es.map profile = ds.map profile ∧ (addendsAll es).map profile = (addendsAll ds).map profile
  | [], [], _ => ⟨rfl, rfl⟩
  | e :: es, d :: ds, h => by
    obtain ⟨hfirst, hrest⟩ := (Bool.and_eq_true _ _).mp h
    obtain ⟨hprofile, haddends⟩ := profile_eq_of_same e d hfirst
    obtain ⟨hprofiles, hrests⟩ := profiles_eq_of_same es ds hrest
    rw [List.map_cons, List.map_cons, addendsAll, addendsAll, List.map_append, List.map_append, hprofile, haddends,
      hprofiles, hrests]
    exact ⟨rfl, rfl⟩
  | [], _ :: _, h => by cases h
  | _ :: _, [], h => by cases h
end

end Dice
end DiceNotation
