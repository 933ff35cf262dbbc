import Mathlib.Algebra.BigOperators.Group.List.Basic
import Mathlib.Data.List.Perm.Basic
import DiceNotation.Proofs.Addends
import DiceNotation.Proofs.Notation.Settled

/-! What a notation builds has the range of the tree that it was written for. Written sums are spread out and equal
    dice are gathered, so the addends come back in another order and another grouping, each with the profile that
    it had. -/

namespace DiceNotation

namespace Dice
variable {T : Option Tracer → Prop} {L : Nat → Prop} {d e : Dice} {items : List Dice}

/-! ### Profiles of sums -/

theorem span_eq_sum_profiles (ds : List Dice) : span ds = ((ds.map profile).map fun p => p.1.reach).sum := by
  rw [List.map_map]
  rfl

/-- The bounds of a sum do not depend on the order of its addends if they have room. -/
theorem bounds_eq_of_addends_perm (h : (e.addends.map profile).Perm (d.addends.map profile))
    (room : span d.addends ≤ 9223372036854775807) : e.bounds = d.bounds := by
  have hspan : span e.addends = span d.addends := by
    rw [span_eq_sum_profiles, span_eq_sum_profiles]
    exact (h.map _).sum_eq
  have ends : ∀ f : Interval → Outcome, (∀ r, (f r).val.natAbs ≤ r.reach) →
      (∀ rs, f (.total rs) = .total (rs.map f)) → f e.bounds = f d.bounds := fun f size sums => by
    have hsum := (h.map fun p => (f p.1).val).sum_eq
    rw [List.map_map, List.map_map] at hsum
    exact Outcome.ext ((val_end size sums e (hspan ▸ room)).1.trans (hsum.trans (val_end size sums d room).1.symm))
  have hlo := ends Interval.lo (fun _ => Nat.le_max_left _ _) fun _ => rfl
  have hhi := ends Interval.hi (fun _ => Nat.le_max_right _ _) fun _ => rfl
  show (⟨e.bounds.lo, e.bounds.hi⟩ : Interval) = ⟨d.bounds.lo, d.bounds.hi⟩
  rw [hlo, hhi]

/-- The largest face of a pool is the largest of its addends. -/
theorem max?_addendsAll (tracer : Option Tracer) (hne : items ≠ [])
    (h : ∀ d ∈ items, (d.addends.map highestFace).max? = some d.highestFace) :
    ((addendsAll items).map highestFace).max? = some (pool items tracer).highestFace := by
  obtain ⟨a, ha⟩ := Option.isSome_iff_exists.mp (List.isSome_max?_of_ne_nil
    (l := items.map highestFace) (by rwa [ne_eq, List.map_eq_nil_iff]))
  rw [highestFace, highestFaces_eq_map, ha, Option.getD_some, List.max?_eq_some_iff, addendsAll_eq_flatMap]
  obtain ⟨hmem, hle⟩ := List.max?_eq_some_iff.mp ha
  constructor
  · obtain ⟨d, hd, rfl⟩ := List.mem_map.mp hmem
    obtain ⟨e, he, heq⟩ := List.mem_map.mp (List.max?_eq_some_iff.mp (h d hd)).1
    exact List.mem_map.mpr ⟨e, List.mem_flatMap.mpr ⟨d, hd, he⟩, heq⟩
  · refine List.forall_mem_map.mpr fun e he => ?_
    obtain ⟨d, hd, hed⟩ := List.mem_flatMap.mp he
    exact Outcome.le_trans ((List.max?_eq_some_iff.mp (h d hd)).2 _ (List.mem_map_of_mem hed))
      (hle _ (List.mem_map_of_mem hd))

theorem Shape.max?_faces (h : Shape T L d) : (d.addends.map highestFace).max? = some d.highestFace := by
  induction h with
  | plain group =>
    cases group with
    | explosion => rfl
    | simple inside =>
      cases inside with
      | die => rfl
      | selection => rfl
      | @copies count d tracer two _ _ _ =>
        refine max?_addendsAll tracer (List.ne_nil_of_length_pos (by rw [List.length_replicate]; omega)) ?_
        intro e he
        obtain rfl := List.eq_of_mem_replicate he
        rfl
  | arithmetic => rfl
  | @sum items tracer two _ _ ih =>
    exact max?_addendsAll tracer (List.ne_nil_of_length_pos (by omega)) ih

theorem Shape.highestFace_eq_of_perm {T' : Option Tracer → Prop} {L' : Nat → Prop} (h : Shape T L d)
    (h' : Shape T' L' e) (perm : (e.addends.map profile).Perm (d.addends.map profile)) :
    e.highestFace = d.highestFace := by
  have faces := perm.map Prod.snd
  rw [List.map_map, List.map_map] at faces
  obtain ⟨hmem, hle⟩ := List.max?_eq_some_iff.mp h.max?_faces
  obtain ⟨hmem', hle'⟩ := List.max?_eq_some_iff.mp h'.max?_faces
  exact Outcome.le_antisymm (hle _ (faces.mem_iff.mp hmem')) (hle' _ (faces.mem_iff.mpr hmem))

end Dice

/-! ### What phrases and parts add -/

namespace Phrase
variable {p : Phrase} {ps : List Phrase} {settings : Settings} {e : Dice}

/-- The addends of what a phrase builds. -/
def spread (settings : Settings) (p : Phrase) : List Dice :=
  match p.build settings with
  | .ok e => e.addends
  | .error _ => []

theorem spread_of_build (h : p.build settings = .ok e) : p.spread settings = e.addends := by
  rw [spread, h]

theorem flatMap_spread {es : List Dice} (h : ps.Forall₂ (fun p e => p.build settings = .ok e) es) :
    ps.flatMap (spread settings) = Dice.addendsAll es := by
  induction h with
  | nil => rfl
  | cons first _ ih => rw [List.flatMap_cons, spread_of_build first, ih, Dice.addendsAll]

/-- Joined terms are built if each of them is, and what they build has the addends of all. -/
theorem addends_join (h : (join ps).build settings = .ok e) :
    (∀ p ∈ ps, ∃ e, p.build settings = .ok e) ∧ e.addends = ps.flatMap (spread settings) := by
  have summed : ∀ {ps}, (sum ps).build settings = .ok e →
      (∀ p ∈ ps, ∃ e, p.build settings = .ok e) ∧ e.addends = ps.flatMap (spread settings) := fun h => by
    obtain ⟨es, hes, rfl⟩ := build_sum_eq_ok.mp h
    refine ⟨fun p hp => ?_, (flatMap_spread hes).symm⟩
    obtain ⟨e, -, hbuild⟩ := exists_mem_right hes hp
    exact ⟨e, hbuild⟩
  match ps with
  | [] => exact summed h
  | [p] =>
    have hbuild : p.build settings = .ok e := h
    rw [List.flatMap_singleton, spread_of_build hbuild]
    exact ⟨List.forall_mem_singleton.mpr ⟨e, hbuild⟩, rfl⟩
  | _ :: _ :: _ => exact summed h

theorem exists_build_join (h : ∀ p ∈ ps, ∃ e, p.build settings = .ok e) : ∃ e, (join ps).build settings = .ok e := by
  have summed : ∃ e, (sum ps).build settings = .ok e := by
    obtain ⟨es, hes⟩ := exists_forall₂ h
    exact ⟨_, build_sum_eq_ok.mpr ⟨es, hes, rfl⟩⟩
  match ps with
  | [] => exact summed
  | [p] => exact h p List.mem_cons_self
  | _ :: _ :: _ => exact summed

end Phrase

namespace Part
variable {settings : Settings}

/-- The dice of a part one by one, or the addends of what its terms build. -/
def spread (settings : Settings) : Part → List Dice
  | dice d count => List.replicate count (.die d)
  | other ts => ts.flatMap (Phrase.spread settings)

theorem terms_spread {q : Part} (builds : ∀ p ∈ q.terms, ∃ e, p.build settings = .ok e) :
    q.terms.flatMap (Phrase.spread settings) = q.spread settings := by
  cases q with
  | other ts => rfl
  | dice d count =>
    obtain ⟨e, hbuild⟩ := builds _ List.mem_cons_self
    rw [terms, List.flatMap_singleton, Phrase.spread_of_build hbuild]
    rw [Phrase.build, PlainGroup.build] at hbuild
    split at hbuild
    · cases hbuild
    · obtain rfl := Except.ok.inj hbuild
      split
      · next hone =>
        obtain rfl : count = 1 := hone
        rfl
      · exact Dice.addendsAll_replicate rfl

end Part

/-! ### What a notation builds -/

namespace Dice
variable {T : Option Tracer → Prop} {L : Nat → Prop} {settings : Settings} {d e : Dice}

/-- Gathered parts add what the items add, in another order. -/
theorem gather_spread_perm {items : List Dice}
    (h : ∀ d ∈ items, ((d.part.spread settings).map profile).Perm (d.addends.map profile)) :
    (((Part.gather (items.map part)).flatMap (Part.spread settings)).map profile).Perm
      ((addendsAll items).map profile) := by
  have gathered := Part.gather_flatMap_perm (f := Part.spread settings)
    (fun d m n => by rw [Part.spread, Part.spread, Part.spread, List.replicate_append_replicate]) (items.map part)
  refine (gathered.map profile).trans ?_
  rw [List.flatMap_map, List.map_flatMap, addendsAll_eq_flatMap, List.map_flatMap]
  exact .flatMap_left _ h

/-- What the phrase of a parsed tree builds has the profile of the tree, and addends with the same profiles. -/
theorem Shape.regroups (h : Shape T L d) (roomy : d.Roomy) (built : d.phrase.build settings = .ok e) :
    e.profile = d.profile ∧ (e.addends.map profile).Perm (d.addends.map profile) := by
  have parsed : Parsed settings e := h.phrase_proper.parsed built
  induction h generalizing e with
  | @plain d group =>
    obtain ⟨g, hg, -, few, builds⟩ := group.group
    obtain ⟨e', hbuild, hsame⟩ := builds settings
    rw [phrase, group.terms, hg] at built
    have hgroup : (Phrase.plain g).build settings = .ok e := built
    rw [Phrase.build, PlainGroup.build, if_neg (Nat.not_lt.mpr few), hbuild] at hgroup
    obtain rfl := Except.ok.inj hgroup
    obtain ⟨hprofile, haddends⟩ := profile_eq_of_same _ _ hsame
    exact ⟨hprofile, .of_eq haddends⟩
  | arithmetic inside _ _ _ ih =>
    obtain ⟨e', hinner, -, rfl⟩ := Phrase.build_chain_eq_ok.mp built
    obtain ⟨hprofile, -⟩ := ih roomy.inner hinner (inside.phrase_proper.parsed hinner)
    exact ⟨profile_arithmetic hprofile, .of_eq (profiles_singleton (profile_arithmetic hprofile))⟩
  | @sum items tracer two each traced ih =>
    obtain ⟨builds, haddends⟩ := Phrase.addends_join built
    rw [terms, parts_eq_map] at builds haddends
    have spreads : e.addends = (Part.gather (items.map part)).flatMap (Part.spread settings) := by
      rw [haddends, List.flatMap_assoc]
      exact List.flatMap_congr fun q hq => Part.terms_spread fun p hp => builds p (List.mem_flatMap.mpr ⟨q, hq, hp⟩)
    have perm : (e.addends.map profile).Perm ((pool items tracer).addends.map profile) := by
      rw [spreads]
      refine gather_spread_perm fun d hd => ?_
      -- A die is counted with its equals; the terms of any other item stay together, so they build the item again.
      rcases part_eq d with ⟨a, rfl⟩ | hpart
      · exact .refl _
      · have hmem : Part.other d.terms ∈ Part.gather (items.map part) :=
          Part.other_mem_gather_iff.mpr (hpart ▸ List.mem_map_of_mem hd)
        obtain ⟨e', hbuild⟩ := Phrase.exists_build_join fun p hp => builds p (List.mem_flatMap.mpr ⟨_, hmem, hp⟩)
        obtain ⟨-, regrouped⟩ := ih d hd (roomy.item hd) hbuild ((each d hd).phrase_proper.parsed hbuild)
        rw [(Phrase.addends_join hbuild).2] at regrouped
        rw [hpart]
        exact regrouped
    have hbounds := bounds_eq_of_addends_perm perm roomy.span_le
    have hface := (Shape.sum two each traced).highestFace_eq_of_perm parsed perm
    exact ⟨by rw [profile, profile, hbounds, hface], perm⟩

/-- A notation that is parsed again has the bounds and the largest face of the tree that it was written for, if no
    pool of the tree can add up to more than the range of outcomes holds. -/
theorem parse_text_same_range {written : String} (h : parse written settings = .ok d)
    (again : parse d.text settings = .ok e) (roomy : d.Roomy) :
    e.bounds = d.bounds ∧ e.highestFace = d.highestFace := by
  rcases parse_shape h with rfl | parsed
  · rw [show (pool [] settings.tracer).text = "0" from rfl, parse_zero] at again
    obtain rfl := Except.ok.inj again
    exact ⟨rfl, rfl⟩
  · exact Prod.mk.inj (Shape.regroups parsed roomy (Shape.parse_text_iff parsed |>.mp again)).1

/-- The sum that the notation of the nested sum builds. -/
def flatSum : Dice := .pool [.die six, .die eight, .die six] none

theorem flatSum_parsed : parse nestedSum.text {} = .ok flatSum := by with_unfolding_all rfl

theorem nestedSum_roomy : nestedSum.Roomy := by
  intro items tracer hmem
  have hnodes : nestedSum.nodes = [nestedSum, .pool [.die six, .die eight] none, .die six, .die eight, .die six] := rfl
  rw [hnodes] at hmem
  simp only [nestedSum, List.mem_cons, Dice.pool.injEq, reduceCtorEq, List.not_mem_nil, or_false] at hmem
  obtain ⟨rfl, -⟩ | ⟨rfl, -⟩ := hmem <;> decide

theorem nestedSum_same_range : parse "(d6+d8)+d6" {} = .ok nestedSum ∧ parse nestedSum.text {} = .ok flatSum ∧
    nestedSum.Roomy ∧ flatSum.bounds = nestedSum.bounds ∧ flatSum.highestFace = nestedSum.highestFace :=
  ⟨nestedSum_parsed, flatSum_parsed, nestedSum_roomy,
    parse_text_same_range nestedSum_parsed flatSum_parsed nestedSum_roomy⟩

end Dice

end DiceNotation
