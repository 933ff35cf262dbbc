import Mathlib.Algebra.Order.BigOperators.Group.List
import Mathlib.Algebra.Order.Group.Nat
import DiceNotation.Proofs.Notation.Settled

/-! Notations settle after one round of parsing and printing. The first round writes the sums inside of a sum as
    one sum, and the second gathers the equal dice that this brought together; nothing is left for a third. No
    group grows too large on the way, since its dice come from the die letters of a text that is not too long. -/

namespace DiceNotation

/-! ### Counts of gathered dice -/

namespace Part
variable {items : List Part}

/-- The dice that a part counts, one by one. -/
def copies : Part → List Die
  | dice d count => List.replicate count d
  | other _ => []

theorem count_le_of_mem_gather {d : Die} {count : Nat} (h : dice d count ∈ gather items) :
    count ≤ (items.flatMap copies).length := by
  have same := gather_flatMap_perm (f := copies)
    (fun d m n => by rw [copies, copies, copies, List.replicate_append_replicate]) items
  obtain ⟨before, after, hparts⟩ := List.append_of_mem h
  rw [← same.length_eq, hparts, List.flatMap_append, List.flatMap_cons, copies, List.length_append, List.length_append,
    List.length_replicate]
  omega

end Part

theorem Dice.length_copies_le (items : List Dice) : ((items.map part).flatMap Part.copies).length ≤ items.length := by
  induction items with
  | nil => exact Nat.le_refl 0
  | cons d ds ih =>
    have hone : d.part.copies.length ≤ 1 := by
      cases d <;> simp [part, Part.copies]
    rw [List.map_cons, List.flatMap_cons, List.length_append, List.length_cons]
    omega

/-- A gathered sum counts no die more often than the sum has items. -/
theorem Dice.count_le_of_mem_gather {items : List Dice} {d : Die} {count : Nat}
    (h : .dice d count ∈ Part.gather (items.map part)) : count ≤ items.length :=
  Nat.le_trans (Part.count_le_of_mem_gather h) (length_copies_le items)

/-! ### The first round -/

namespace Phrase

theorem few_join {ps : List Phrase} (h : ∀ p ∈ ps, p.Few) : (join ps).Few := by
  match ps with
  | [] => exact .sum h
  | [p] => exact h p List.mem_cons_self
  | _ :: _ :: _ => exact .sum h

end Phrase

namespace Dice
variable {T : Option Tracer → Prop} {L : Nat → Prop} {d : Dice} {letters : Nat}

theorem total_parts (items : List Dice) :
    Part.total (items.map part) = (items.map fun d => Phrase.diceAll d.terms).sum := by
  induction items with
  | nil => rfl
  | cons d ds ih => rw [List.map_cons, Part.total_cons, part_terms, ih, List.map_cons, List.sum_cons]

theorem Plain.terms_few (h : Plain T L d) : Phrase.diceAll d.terms = 1 ∧ ∀ p ∈ d.terms, p.Few := by
  obtain ⟨g, hg, -, few, -⟩ := h.group
  rw [h.terms, hg]
  refine ⟨?_, List.forall_mem_singleton.mpr (.plain few)⟩
  show Phrase.diceAll [.plain g] = 1
  rw [Phrase.diceAll_cons, Phrase.dice_plain]
  rfl

/-- The notation of a tree has no more groups than the tree was written with, and none of them is too large if the
    tree was written with few. -/
theorem Lettered.terms_few (h : Lettered T L letters d) :
    1 ≤ letters ∧ Phrase.diceAll d.terms ≤ letters ∧ (letters ≤ maxDice → ∀ p ∈ d.terms, p.Few) := by
  induction h with
  | plain group => exact ⟨Nat.le_refl 1, Nat.le_of_eq group.terms_few.1, fun _ => group.terms_few.2⟩
  | @arithmetic letters inner operator operand tracer _ _ _ _ ih =>
    obtain ⟨one, hdice, few⟩ := ih
    rw [terms]
    refine ⟨one, ?_, fun hletters => List.forall_mem_singleton.mpr (.chain (Phrase.few_join (few hletters)))⟩
    rw [Phrase.diceAll_cons, Phrase.dice_chain, Phrase.dice_join]
    exact hdice
  | @sum items tracer two _ _ ih =>
    have hlength : items.length ≤ (items.map Prod.fst).sum := by
      have := List.length_le_sum_of_one_le (items.map Prod.fst) (List.forall_mem_map.mpr fun item hitem => (ih item hitem).1)
      rwa [List.length_map] at this
    have htotal : Part.total ((items.map Prod.snd).map part) ≤ (items.map Prod.fst).sum := by
      rw [total_parts, List.map_map]
      exact List.sum_le_sum fun item hitem => (ih item hitem).2.1
    rw [terms, parts_eq_map]
    refine ⟨by omega, Nat.le_trans (Part.total_gather_le _) htotal, fun hletters p hp => ?_⟩
    obtain ⟨q, hq, hpq⟩ := List.mem_flatMap.mp hp
    cases q with
    | other ts =>
      obtain ⟨_, hd, -, rfl⟩ := exists_item_of_other hq
      obtain ⟨item, hitem, rfl⟩ := List.mem_map.mp hd
      have hle : item.1 ≤ (items.map Prod.fst).sum := List.le_sum_of_mem (List.mem_map_of_mem hitem)
      exact (ih item hitem).2.2 (Nat.le_trans hle hletters) p hpq
    | dice die count =>
      have hcount := count_le_of_mem_gather hq
      rw [List.length_map] at hcount
      rw [List.mem_singleton.mp hpq]
      exact .plain (by show count ≤ maxDice; omega)

end Dice

/-! ### The second round -/

namespace Phrase
variable {p : Phrase} {ps : List Phrase} {settings : Settings} {e : Dice} {es : List Dice}

theorem Proper.one_le_dice (h : p.Proper) : 1 ≤ p.dice := by
  induction h with
  | plain => rw [dice_plain]
  | chain _ _ _ ih => rwa [dice_chain]
  | @sum ps two _ _ ih =>
    obtain ⟨p, q, ps, rfl⟩ := exists_cons_cons two
    have := ih p List.mem_cons_self
    rw [dice_sum, diceAll_cons]
    omega

theorem diceAll_eq_sum (ps : List Phrase) : diceAll ps = (ps.map dice).sum := by
  induction ps with
  | nil => rfl
  | cons p ps ih => rw [diceAll_cons, ih, List.map_cons, List.sum_cons]

theorem settled_join (distinct : (ps.filterMap lone?).Nodup) (each : ∀ p ∈ ps, p.Settled) : (join ps).Settled := by
  match ps with
  | [] => exact .sum distinct each
  | [p] => exact each p List.mem_cons_self
  | _ :: _ :: _ => exact .sum distinct each

/-- A node that is written as one settled phrase, which is a lone die if the node is a leaf. -/
def SettledTerm (e : Dice) : Prop := ∃ q, e.terms = [q] ∧ q.lone? = e.leaf? ∧ q.Settled

theorem settledTerm_plain {g : PlainGroup} (h : g.Proper) (built : (plain g).build settings = .ok e) :
    SettledTerm e := by
  have settled : (plain g).Settled := .plain (build_plain h built).1
  obtain ⟨q, hterms, hleaf, kept⟩ := keptTerm_plain h built
  obtain rfl := kept.eq_of_settled settled
  exact ⟨_, hterms, hleaf.symm, settled⟩

/-- The lone dice among the terms of parts are dice that the parts count. -/
theorem lone_sublist {parts : List Part} (h : ∀ q ∈ parts, ∀ ts, q = .other ts → ts.filterMap lone? = []) :
    ((parts.flatMap Part.terms).filterMap lone?).Sublist (Part.diceOf parts) := by
  induction parts with
  | nil => exact .slnil
  | cons q parts ih =>
    obtain ⟨hq, hparts⟩ := List.forall_mem_cons.mp h
    have later := ih hparts
    rw [List.flatMap_cons, List.filterMap_append]
    cases q with
    | other ts =>
      show (ts.filterMap lone? ++ _).Sublist _
      rw [hq ts rfl]
      exact later
    | dice d count =>
      have first : ([plain { count, die := d }].filterMap lone?).Sublist [d] := by
        rw [List.filterMap_cons, List.filterMap_nil, lone?]
        split <;> simp_all
      exact first.append later

/-- A pool of settled terms is written as a settled phrase, since its equal dice are gathered. -/
theorem settled_pool {tracer : Option Tracer} (each : ∀ e ∈ es, SettledTerm e) (few : es.length ≤ maxDice) :
    (Dice.pool es tracer).phrase.Settled := by
  have others : ∀ q ∈ Part.gather (es.map Dice.part), ∀ ts, q = .other ts →
      ts.filterMap lone? = [] ∧ ∀ p ∈ ts, p.Settled := by
    rintro q hq ts rfl
    obtain ⟨e, he, noLeaf, rfl⟩ := Dice.exists_item_of_other hq
    obtain ⟨q, hterms, hlone, settled⟩ := each e he
    have hleaf : e.leaf? = none := by
      cases e with
      | die a => exact absurd rfl (noLeaf a)
      | _ => rfl
    rw [hterms, List.filterMap_cons, hlone, hleaf]
    exact ⟨rfl, List.forall_mem_singleton.mpr settled⟩
  rw [Dice.phrase, Dice.terms, Dice.parts_eq_map]
  refine settled_join ((Part.nodup_diceOf_gather _).sublist (lone_sublist fun q hq ts heq => (others q hq ts heq).1)) ?_
  intro p hp
  obtain ⟨q, hq, hpq⟩ := List.mem_flatMap.mp hp
  cases q with
  | other ts => exact (others _ hq ts rfl).2 p hpq
  | dice d count =>
    rw [List.mem_singleton.mp hpq]
    exact .plain (Nat.le_trans (Dice.count_le_of_mem_gather hq) few)

/-- What a proper phrase with few groups builds is written as a settled phrase. -/
theorem Proper.settles (h : p.Proper) (few : p.dice ≤ maxDice) (built : p.build settings = .ok e) :
    (p.isSum = false → SettledTerm e) ∧ e.phrase.Settled := by
  have single : ∀ {e : Dice}, SettledTerm e → e.phrase.Settled := by
    rintro e ⟨q, hterms, -, settled⟩
    rw [Dice.phrase, hterms]
    exact settled
  induction h generalizing e with
  | plain group =>
    have term := settledTerm_plain group built
    exact ⟨fun _ => term, single term⟩
  | @chain inner operator operand _ _ _ ih =>
    obtain ⟨d, hinner, -, rfl⟩ := build_chain_eq_ok.mp built
    rw [dice_chain] at few
    have term : SettledTerm (.arithmetic d operator operand settings.tracer) :=
      ⟨_, rfl, rfl, .chain (ih few hinner).2⟩
    exact ⟨fun _ => term, single term⟩
  | @sum ps _ each flat ih =>
    obtain ⟨es, hes, rfl⟩ := build_sum_eq_ok.mp built
    rw [dice_sum, diceAll_eq_sum] at few
    have hlength := List.length_le_sum_of_one_le (ps.map dice)
      (List.forall_mem_map.mpr fun p hp => (each p hp).one_le_dice)
    rw [List.length_map] at hlength
    refine ⟨fun h => (by cases h), settled_pool (fun e he => ?_) (hes.length_eq ▸ Nat.le_trans hlength few)⟩
    obtain ⟨p, hp, hbuild⟩ := exists_mem_left hes he
    have hdice : p.dice ≤ maxDice := Nat.le_trans (List.le_sum_of_mem (List.mem_map_of_mem hp)) few
    exact (ih p hp hdice hbuild).1 (flat p hp)

end Phrase

/-! ### Rounds of parsing and printing -/

namespace Dice
variable {settings : Settings} {d : Dice}

/-- The notation of a text that is not too long is parsed, and what it is parsed as has a notation that is kept:
    parsing that one and printing again gives the same text. -/
theorem exists_settled_notation {written : String} (short : written.length ≤ maxDice)
    (h : parse written settings = .ok d) :
    ∃ e, parse d.text settings = .ok e ∧ ∃ f, parse e.text settings = .ok f ∧ f.text = e.text := by
  rcases parse_written h with rfl | ⟨letters, hletters, lettered⟩
  · exact ⟨_, parse_zero settings, _, parse_zero settings, rfl⟩
  · obtain ⟨-, hdice, few⟩ := lettered.terms_few
    have proper := lettered.shape.phrase_proper
    obtain ⟨e, built⟩ := proper.exists_build (Phrase.few_join (few (Nat.le_trans hletters short))) settings
    have settled : e.phrase.Settled := by
      refine (proper.settles ?_ built).2
      rw [phrase, Phrase.dice_join]
      exact Nat.le_trans hdice (Nat.le_trans hletters short)
    exact ⟨e, lettered.shape.parse_text_iff.mpr built,
      (Shape.round_trip_iff (Phrase.Proper.parsed proper built)).mpr settled⟩

theorem nestedSum_settles : "(d6+d8)+d6".length ≤ maxDice ∧ parse "(d6+d8)+d6" {} = .ok nestedSum ∧
    ∃ e, parse nestedSum.text {} = .ok e ∧ ∃ f, parse e.text {} = .ok f ∧ f.text = e.text :=
  ⟨by decide, nestedSum_parsed, exists_settled_notation (by decide) nestedSum_parsed⟩

end Dice

end DiceNotation
