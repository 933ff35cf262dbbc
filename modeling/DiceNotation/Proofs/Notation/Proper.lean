import DiceNotation.Proofs.Notation.Shape
import DiceNotation.Proofs.Notation.Terms

/-! Proper phrases: legible phrases whose nodes the builders accept, apart from the size of a group. The phrase
    of a parsed tree is proper, and the plain groups in it build the nodes that they were taken from. -/

namespace DiceNotation

section
variable {R : α → β → Prop} {as : List α} {bs : List β} {a : α} {b : β}

theorem exists_forall₂ (h : ∀ a ∈ as, ∃ b, R a b) : ∃ bs, as.Forall₂ R bs := by
  induction as with
  | nil => exact ⟨[], .nil⟩
  | cons a as ih =>
    obtain ⟨⟨b, hb⟩, hlater⟩ := List.forall_mem_cons.mp h
    obtain ⟨bs, hbs⟩ := ih hlater
    exact ⟨b :: bs, .cons hb hbs⟩

theorem exists_mem_right (h : as.Forall₂ R bs) (ha : a ∈ as) : ∃ b ∈ bs, R a b := by
  obtain ⟨i, hi, rfl⟩ := List.getElem_of_mem ha
  exact ⟨_, List.getElem_mem (h.length_eq ▸ hi), h.get hi (h.length_eq ▸ hi)⟩

theorem exists_mem_left (h : as.Forall₂ R bs) (hb : b ∈ bs) : ∃ a ∈ as, R a b := exists_mem_right h.flip hb

end

/-- A group is proper if its words are legible, its numbers can be written, and the node that it builds is the
    node of this very group. -/
structure PlainGroup.Proper (g : PlainGroup) : Prop where
  legible : g.Legible
  die : g.die.Writable
  threshold : ∀ t ∈ g.modifiers.trigger, ∀ n ∈ t.threshold, n ≠ .least
  built : ∀ settings, ∃ e, buildGroup settings g.count g.die g.modifiers = .ok e ∧ e.plainGroup? = some g

/-- The group with a trigger. -/
def PlainGroup.exploding (g : PlainGroup) (t : Trigger) : PlainGroup :=
  { g with modifiers := { g.modifiers with trigger := some t } }

namespace Phrase

/-- A phrase is proper if its groups are and its operators accept and can be written with their operands. -/
inductive Proper : Phrase → Prop
  | plain {g : PlainGroup} (group : g.Proper) : Proper (.plain g)
  | chain {inner : Phrase} {operator : Operator} {operand : Outcome} (inside : Proper inner)
      (accepts : operator.Accepts operand) (writable : operator.Writable operand) :
      Proper (.chain inner operator operand)
  | sum {terms : List Phrase} (two : 2 ≤ terms.length) (each : ∀ p ∈ terms, Proper p)
      (flat : ∀ p ∈ terms, p.isSum = false) : Proper (.sum terms)

variable {p : Phrase} {settings : Settings}

theorem Proper.legible (h : p.Proper) : p.Legible := by
  induction h with
  | plain group => exact .plain group.legible
  | chain _ _ writable ih => exact .chain ih writable.2
  | sum two _ flat ih => exact .sum two ih flat

theorem proper_join {ps : List Phrase} (hne : ps ≠ []) (h : ∀ p ∈ ps, p.Proper ∧ p.isSum = false) :
    (join ps).Proper := by
  obtain ⟨p, ps, rfl⟩ := List.exists_cons_of_ne_nil hne
  cases ps with
  | nil => exact (h p List.mem_cons_self).1
  | cons q ps => exact .sum (by simp) (fun r hr => (h r hr).1) fun r hr => (h r hr).2

theorem proper_dice {count : Nat} {d : Die} (hcount : 1 ≤ count) (writable : d.Writable) :
    (Phrase.plain { count, die := d }).Proper :=
  .plain {
    legible := ⟨hcount, fun _ ht => (by cases ht)⟩
    die := writable
    threshold := fun _ ht => (by cases ht)
    built := fun settings => by
      refine ⟨_, rfl, ?_⟩
      split
      · next hone =>
        cases hone
        rfl
      · exact Dice.simpleGroup?_pool hcount d settings.tracer }

end Phrase

/-! ### Numbers -/

theorem fits_outcome {n : Outcome} (h : n ≠ .least) : ∀ t ∈ n.words, t.Fits := by
  have hsize : n.val.natAbs ≤ Token.greatestNumber := by
    have hne : n.val ≠ -9223372036854775808 := fun heq => h (Outcome.ext heq)
    have := n.least_le
    have := n.le_greatest
    unfold Token.greatestNumber
    omega
  unfold Outcome.words
  split
  · exact List.forall_mem_cons.mpr ⟨trivial, List.forall_mem_singleton.mpr hsize⟩
  · exact List.forall_mem_singleton.mpr hsize

theorem fits_die {d : Die} (h : d.Writable) : ∀ t ∈ d.words, t.Fits := by
  cases d with
  | standard sides _ => exact List.forall_mem_singleton.mpr h
  | fudge => exact List.forall_mem_singleton.mpr trivial
  | percentile => exact List.forall_mem_singleton.mpr trivial
  | custom faces _ =>
    have listed : ∀ t ∈ [.comma].intercalate (faces.map Outcome.words), t.Fits :=
      forall_mem_intercalate (List.forall_mem_singleton.mpr trivial)
        (List.forall_mem_map.mpr fun n hn => fits_outcome (h n hn))
    exact List.forall_mem_cons.mpr ⟨trivial, List.forall_mem_append.mpr ⟨listed, List.forall_mem_singleton.mpr trivial⟩⟩

theorem maxDice_le : maxDice ≤ Token.greatestNumber := by decide

theorem fits_trigger {t : Trigger} (h : ∀ n ∈ t.threshold, n ≠ .least) : ∀ w ∈ t.words, w.Fits := by
  obtain ⟨c, threshold⟩ := t
  cases threshold with
  | none => exact List.forall_mem_singleton.mpr trivial
  | some n => exact List.forall_mem_cons.mpr ⟨trivial, List.forall_mem_cons.mpr ⟨trivial, fits_outcome (h n rfl)⟩⟩

theorem fits_selection {selection : Option (Selector × Nat)} {count : Nat} (few : count ≤ maxDice)
    (h : ∀ s k, selection = some (s, k) → k ≤ count) : ∀ w ∈ selectionWords selection, w.Fits := by
  cases selection with
  | none => exact List.forall_mem_nil _
  | some selection =>
    have hle := h _ _ rfl
    exact List.forall_mem_cons.mpr ⟨trivial, List.forall_mem_singleton.mpr
      (Nat.le_trans (Nat.le_trans hle few) maxDice_le)⟩

namespace PlainGroup
variable {g : PlainGroup} {settings : Settings}

/-- A proper group selects no more dice than it has. -/
theorem Proper.selection_le (h : g.Proper) : ∀ s k, g.modifiers.selection = some (s, k) → k ≤ g.count := by
  intro s k selected
  obtain ⟨_, built, -⟩ := h.built {}
  rw [buildGroup, selected] at built
  split at built
  · cases built
  · next assembled _ =>
    have hle := (Pool.select_eq_ok_iff.mp assembled).1.2
    rwa [Pool.replicate, List.length_replicate] at hle
  · next assembled _ =>
    have hle := (Pool.select_eq_ok_iff.mp assembled).1.2
    rwa [Pool.replicate, List.length_replicate] at hle

theorem count_le_of_build {d : Dice} (h : g.build settings = .ok d) : g.count ≤ maxDice := by
  unfold build at h
  split at h
  · cases h
  · next few => exact Nat.not_lt.mp few

theorem Proper.fits {d : Dice} (h : g.Proper) (built : g.build settings = .ok d) : ∀ t ∈ g.words, t.Fits := by
  have few := count_le_of_build built
  refine List.forall_mem_append.mpr ⟨?_, List.forall_mem_cons.mpr ⟨trivial, List.forall_mem_append.mpr
    ⟨fits_die h.die, List.forall_mem_append.mpr ⟨?_, fits_selection few h.selection_le⟩⟩⟩⟩
  · split
    · exact List.forall_mem_singleton.mpr (Nat.le_trans few maxDice_le)
    · exact List.forall_mem_nil _
  · cases trigger : g.modifiers.trigger with
    | none => exact List.forall_mem_nil _
    | some t => exact fits_trigger (h.threshold t trigger)

end PlainGroup

namespace Phrase
variable {p : Phrase} {settings : Settings}

theorem build_chain_eq_ok {inner : Phrase} {operator : Operator} {operand : Outcome} {d : Dice} :
    (chain inner operator operand).build settings = .ok d ↔
      ∃ e, inner.build settings = .ok e ∧ operator.Accepts operand ∧
        d = .arithmetic e operator operand settings.tracer := by
  rw [build]
  cases inner.build settings with
  | error e => simp
  | ok e => simp [Dice.apply_eq_ok_iff]

theorem buildAll_eq_ok {ps : List Phrase} {ds : List Dice} :
    buildAll settings ps = .ok ds ↔ ps.Forall₂ (fun p d => p.build settings = .ok d) ds := by
  induction ps generalizing ds with
  | nil =>
    rw [buildAll, List.forall₂_nil_left_iff]
    exact ⟨fun h => by cases h; rfl, fun h => by rw [h]⟩
  | cons p ps ih =>
    rw [buildAll, List.forall₂_cons_left_iff]
    cases p.build settings with
    | error e => simp
    | ok d =>
      constructor
      · intro h
        obtain ⟨ds, hds, rfl⟩ := map_eq_ok h
        exact ⟨d, ds, rfl, ih.mp hds, rfl⟩
      · rintro ⟨_, ds, ⟨⟩, hds, rfl⟩
        simp only [ih.mpr hds]
        rfl

theorem build_sum_eq_ok {ps : List Phrase} {d : Dice} :
    (sum ps).build settings = .ok d ↔
      ∃ ds, ps.Forall₂ (fun p d => p.build settings = .ok d) ds ∧ d = .pool ds settings.tracer := by
  rw [build]
  constructor
  · intro h
    obtain ⟨ds, hds, rfl⟩ := map_eq_ok h
    exact ⟨ds, buildAll_eq_ok.mp hds, rfl⟩
  · rintro ⟨ds, hds, rfl⟩
    rw [buildAll_eq_ok.mpr hds]
    rfl

/-- The numbers of a proper phrase that is built fit. -/
theorem Proper.fits (h : p.Proper) {d : Dice} (built : p.build settings = .ok d) : ∀ t ∈ p.words, t.Fits := by
  induction h generalizing d with
  | plain group => exact group.fits built
  | @chain inner operator operand _ _ writable ih =>
    obtain ⟨e, hinner, -, -⟩ := build_chain_eq_ok.mp built
    refine List.forall_mem_append.mpr ⟨?_, List.forall_mem_cons.mpr ⟨trivial, fits_outcome writable.1⟩⟩
    split
    · exact List.forall_mem_cons.mpr ⟨trivial, List.forall_mem_append.mpr
        ⟨ih hinner, List.forall_mem_singleton.mpr trivial⟩⟩
    · exact ih hinner
  | @sum ps _ _ _ ih =>
    obtain ⟨ds, hds, -⟩ := build_sum_eq_ok.mp built
    rw [words, wordsAll_eq_map]
    refine forall_mem_intercalate (List.forall_mem_singleton.mpr trivial) (List.forall_mem_map.mpr fun q hq => ?_)
    obtain ⟨_, -, hbuild⟩ := exists_mem_right hds hq
    exact ih q hq hbuild

end Phrase

/-! ### Phrases of parsed trees -/

namespace Dice

mutual
theorem same_refl : (d : Dice) → same d d = true
  | die d => by simp [same]
  | foreign leaf => by simp [same]
  | pool items _ => sameAll_refl items
  | selection items _ _ _ _ => by simp [same, sameAll_refl items]
  | explosion inner _ _ _ _ => by simp [same, same_refl inner]
  | arithmetic inner _ _ _ => by simp [same, same_refl inner]

theorem sameAll_refl : (ds : List Dice) → sameAll ds ds = true
  | [] => rfl
  | d :: ds => by simp [sameAll, same_refl d, sameAll_refl ds]
end

/-- A group describes a node if its dice, before they explode, are the same. -/
structure Describes (g : PlainGroup) (d : Dice) : Prop where
  count : 1 ≤ g.count ∧ g.count ≤ maxDice
  die : g.die.Writable
  trigger : g.modifiers.trigger = none
  assembled : ∀ settings, ∃ e, assemble settings g.count g.die g.modifiers.selection = .ok e ∧
    simpleGroup? e = some g ∧ same e d = true ∧ e.bounds = d.bounds ∧ e.highestFace = d.highestFace

variable {T : Option Tracer → Prop} {L : Nat → Prop} {d : Dice}

theorem Simple.describes (h : Simple T d) : ∃ g, simpleGroup? d = some g ∧ Describes g d := by
  cases h with
  | @die d writable =>
    exact ⟨_, rfl, ⟨Nat.le_refl 1, Nat.le_add_left 1 9999⟩, writable, rfl,
      fun _ => ⟨_, rfl, rfl, same_refl _, rfl, rfl⟩⟩
  | @copies count d tracer two few writable =>
    have one : 1 ≤ count := by omega
    refine ⟨_, simpleGroup?_pool one d tracer, ⟨one, few⟩, writable, rfl, fun settings =>
      ⟨.pool (List.replicate count (.die d)) settings.tracer, ?_, simpleGroup?_pool one d _, sameAll_refl _, rfl, rfl⟩⟩
    simp only [assemble, Pool.sum, Pool.replicate]
    rw [if_neg (by omega)]
  | @selection count k d selector poolTracer tracer one le few writable =>
    have pos : 1 ≤ count := Nat.le_trans one le
    refine ⟨_, simpleGroup?_selection pos d selector k poolTracer tracer, ⟨pos, few⟩, writable, rfl, fun settings =>
      ⟨.selection (List.replicate count (.die d)) settings.tracer selector k settings.tracer,
        Pool.select_eq_ok_iff.mpr ⟨⟨one, ?_⟩, rfl⟩, simpleGroup?_selection pos d selector k _ _, ?_, rfl, rfl⟩⟩
    · rwa [Pool.replicate, List.length_replicate]
    · simp [same, sameAll_refl]

section
variable {g : PlainGroup} {comparison : Comparison} {threshold : Outcome}

theorem plainGroup?_of_simple (h : simpleGroup? d = some g) : plainGroup? d = some g := by
  unfold plainGroup?
  split
  · cases h
  · exact h

/-- A described node is built again from its group. -/
theorem Describes.built (h : Describes g d) (settings : Settings) :
    ∃ e, buildGroup settings g.count g.die g.modifiers = .ok e ∧ plainGroup? e = some g ∧ same e d = true := by
  obtain ⟨e, assembled, group, hsame, -, -⟩ := h.assembled settings
  exact ⟨e, by simp only [buildGroup, assembled, h.trigger], plainGroup?_of_simple group, hsame⟩

theorem Describes.proper (h : Describes g d) : g.Proper where
  legible := ⟨h.count.1, by rw [h.trigger]; exact fun _ ht => by cases ht⟩
  die := h.die
  threshold := by rw [h.trigger]; exact fun _ ht => by cases ht
  built settings := (h.built settings).imp fun _ built => ⟨built.1, built.2.1⟩

theorem Describes.explosion_built {limit : Nat} {tracer : Option Tracer} (h : Describes g d)
    (splits : comparison.Splits threshold d.bounds) (settings : Settings) :
    ∃ e, buildGroup settings g.count g.die (g.exploding (d.trigger comparison threshold)).modifiers = .ok e ∧
      plainGroup? e = some (g.exploding (d.trigger comparison threshold)) ∧
      same e (.explosion d comparison threshold limit tracer) = true := by
  obtain ⟨e, assembled, group, hsame, hbounds, hface⟩ := h.assembled settings
  have hthreshold : (d.trigger comparison threshold).threshold.getD e.highestFace = threshold := by
    rw [hface, getD_trigger]
  refine ⟨.explosion e comparison threshold (max 1 settings.explodeLimit) settings.tracer, ?_, ?_, ?_⟩
  · simp only [PlainGroup.exploding, buildGroup, assembled, hthreshold]
    exact explode_eq_ok_iff.mpr ⟨hbounds ▸ splits, rfl⟩
  · rw [plainGroup?, group, trigger_congr hface]
    rfl
  · simp [same, hsame]

theorem Describes.explosion_proper (h : Describes g d) (splits : comparison.Splits threshold d.bounds)
    (writable : threshold ≠ .least) : (g.exploding (d.trigger comparison threshold)).Proper where
  legible := ⟨h.count.1, by
    rintro _ ⟨⟩ hnone
    exact equals_of_trigger hnone⟩
  die := h.die
  threshold := by
    rintro _ ⟨⟩ n hn
    rw [eq_of_trigger hn]
    exact writable
  built settings := (@explosion_built d g comparison threshold 0 none h splits settings).imp fun _ built =>
    ⟨built.1, built.2.1⟩

end

/-- The group of a node of a plain group is proper, and it builds the same node. -/
theorem Plain.group (h : Plain T L d) :
    ∃ g, plainGroup? d = some g ∧ g.Proper ∧ g.count ≤ maxDice ∧
      ∀ settings, ∃ e, buildGroup settings g.count g.die g.modifiers = .ok e ∧ same e d = true := by
  cases h with
  | simple inside =>
    obtain ⟨g, hg, describes⟩ := inside.describes
    exact ⟨g, plainGroup?_of_simple hg, describes.proper, describes.count.2,
      fun settings => (describes.built settings).imp fun _ h => ⟨h.1, h.2.2⟩⟩
  | @explosion inner comparison threshold limit tracer inside splits writable =>
    obtain ⟨g, hg, describes⟩ := inside.describes
    refine ⟨g.exploding (inner.trigger comparison threshold), by rw [plainGroup?, hg]; rfl,
      describes.explosion_proper splits writable, describes.count.2, fun settings => ?_⟩
    exact (describes.explosion_built splits settings).imp fun _ h => ⟨h.1, h.2.2⟩

/-- The node of a plain group has this group as its only term. -/
theorem Plain.terms (h : Plain T L d) : d.terms = (plainGroup? d).toList.map .plain := by
  cases h with
  | explosion => rfl
  | simple inside =>
    cases inside with
    | die => rfl
    | selection => rfl
    | @copies count d tracer two few _ _ =>
      have one : 1 ≤ count := by omega
      rw [Dice.terms, parts_eq_map, List.map_replicate, part, Part.gather_replicate _ one,
        plainGroup?_of_simple (simpleGroup?_pool one d tracer)]
      rfl

/-- The terms of a parsed tree are proper and none is a sum. -/
theorem Shape.terms_proper (h : Shape T L d) :
    d.terms ≠ [] ∧ ∀ p ∈ d.terms, p.Proper ∧ p.isSum = false := by
  induction h with
  | plain group =>
    obtain ⟨g, hg, proper, -⟩ := group.group
    rw [group.terms, hg]
    exact ⟨List.cons_ne_nil _ _, List.forall_mem_singleton.mpr ⟨.plain proper, rfl⟩⟩
  | @arithmetic inner operator operand _ _ accepts writable _ ih =>
    rw [terms]
    have inside := Phrase.proper_join ih.1 ih.2
    exact ⟨List.cons_ne_nil _ _, List.forall_mem_singleton.mpr ⟨.chain inside accepts writable, rfl⟩⟩
  | @sum items tracer two _ _ ih =>
    rw [terms, parts_eq_map]
    have each : ∀ q ∈ Part.gather (items.map part), q.terms ≠ [] ∧ ∀ p ∈ q.terms, p.Proper ∧ p.isSum = false := by
      refine Part.forall_gather (List.forall_mem_map.mpr fun d hd => ?_) fun d n m hm hn => ?_
      · rw [part_terms]
        exact ih d hd
      · obtain ⟨group⟩ := (hm.2 _ List.mem_cons_self).1
        have hcount : 1 ≤ m := group.legible.1
        exact ⟨List.cons_ne_nil _ _, List.forall_mem_singleton.mpr ⟨Phrase.proper_dice (by omega) group.die, rfl⟩⟩
    constructor
    · intro hnil
      obtain ⟨p, hp⟩ := List.exists_mem_of_ne_nil _ (Part.gather_ne_nil (map_part_ne_nil two))
      exact (each p hp).1 (List.flatMap_eq_nil_iff.mp hnil p hp)
    · intro p hp
      obtain ⟨q, hq, hpq⟩ := List.mem_flatMap.mp hp
      exact (each q hq).2 p hpq

theorem Shape.phrase_proper (h : Shape T L d) : d.phrase.Proper :=
  Phrase.proper_join h.terms_proper.1 h.terms_proper.2

end Dice

end DiceNotation
