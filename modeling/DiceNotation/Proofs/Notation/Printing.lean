import DiceNotation.Dice.Spelling
import DiceNotation.Proofs.Notation.Proper
import DiceNotation.Proofs.Notation.Reading
import DiceNotation.Proofs.Notation.Wrapping

/-! The canonical text of a parsed tree is the text of its phrase. The groups of a pool are keyed by text, and
    two dice have the same text only if they are the same, so the groups are the gathered parts of the pool. -/

namespace DiceNotation

open Wrap

/-! ### Groups as words -/

theorem spelled_outcome (n : Outcome) : spelled n.words = n.chars := by
  unfold Outcome.words Outcome.chars Numeral.ofInt
  split
  · simp [spelled, Token.chars, Operator.symbol]
  · simp [spelled, Token.chars]

theorem spelled_die (d : Die) : 'D' :: spelled d.words = d.chars := by
  cases d with
  | standard sides _ => simp [spelled, Die.words, Token.chars, Die.chars]
  | fudge => rfl
  | percentile => rfl
  | custom faces _ =>
    have listed : spelled ([.comma].intercalate (faces.map Outcome.words)) =
        [','].intercalate (faces.map Outcome.chars) := by
      rw [spelled, flatMap_intercalate, List.map_map]
      exact congrArg _ (List.map_congr_left fun n _ => spelled_outcome n)
    rw [Die.words, spelled_append, spelled_cons, listed]
    rfl

/-- The group without its modifiers. -/
def PlainGroup.bare (g : PlainGroup) : PlainGroup := { g with modifiers := {} }

theorem spelled_group (g : PlainGroup) : spelled g.words = spelled g.bare.words ++ spelled g.modifiers.words := by
  have nothing : ({} : Modifiers).words = [] := rfl
  rw [← spelled_append, PlainGroup.words, PlainGroup.words, PlainGroup.bare, nothing, List.append_nil,
    List.append_assoc, List.cons_append]

theorem spelled_bare (g : PlainGroup) :
    spelled g.bare.words = (if 1 < g.count then Numeral.ofNat g.count else []) ++ g.die.chars := by
  have nothing : ({} : Modifiers).words = [] := rfl
  rw [PlainGroup.words, PlainGroup.bare, nothing, List.append_nil, spelled_append, spelled_cons, ← spelled_die]
  split
  · simp [spelled, Token.chars]
  · rfl

theorem spelled_selection (selection : Option (Selector × Nat)) :
    spelled (selectionWords selection) =
      (selection.map fun (s, k) => s.tag ++ Numeral.ofNat k).getD [] := by
  cases selection with
  | none => rfl
  | some selection => simp [spelled, selectionWords, Token.chars]

/-- Dice with the same text are the same. -/
theorem die_eq_of_chars {d d' : Die} (h : d.Writable) (same : d.chars = d'.chars) : d = d' := by
  have spaced : ∀ d : Die, Spaced (.die :: d.words) := fun d => .cons rfl (spaced_die d)
  have hwords : Token.die :: d.words = .die :: d'.words := by
    refine words_injective (spaced d) (spaced d') (List.forall_mem_cons.mpr ⟨trivial, fits_die h⟩) ?_
    rw [spelled_cons, spelled_cons]
    exact (spelled_die d).trans (same.trans (spelled_die d').symm)
  have placed : (d.words.map (Placed.mk 0)).map Placed.token = d.words ++ [] := by simp [Function.comp_def]
  obtain ⟨rest, hrest, hstarts⟩ := starts_of_map_token placed
  have hread := readDie_of_starts hstarts
  have hread' : readDie (d.words.map (Placed.mk 0)) = .ok (d', rest) :=
    readDie_of_starts (by rwa [← (List.cons.inj hwords).2])
  rw [hread'] at hread
  cases hread
  rfl

/-! ### Groups of a pool -/

/-- A group is written for a part. -/
inductive Spells : Group → Part → Prop
  | dice {d : Die} {count : Nat} (writable : d.Writable) : Spells ⟨d.chars, true, count⟩ (.dice d count)
  | other (terms : List Phrase) : Spells ⟨(Phrase.join terms).chars, false, 1⟩ (.other terms)

variable {groups : List Group} {parts : List Part}

theorem insert_spells {item : List Char} {isDie : Bool} {part : Part} (h : Spells ⟨item, isDie, 1⟩ part)
    (hgroups : groups.Forall₂ Spells parts) :
    (Group.insert item isDie groups).Forall₂ Spells (Part.insert part parts) := by
  induction hgroups with
  | nil => exact .cons h .nil
  | @cons g p groups parts hg hgroups ih =>
    cases h with
    | other ts =>
      cases hg with
      | dice writable => exact .cons (.dice writable) ih
      | other us => exact .cons (.other us) ih
    | @dice d _ writable =>
      cases hg with
      | other us =>
        simp only [Group.insert, Bool.and_false, Bool.false_and]
        exact .cons (.other us) ih
      | @dice d' count writable' =>
        rw [Part.insert]
        by_cases heq : d = d'
        · subst heq
          simp only [Group.insert, Bool.and_self, beq_self_eq_true, if_true]
          exact .cons (.dice writable) hgroups
        · have hne : (d'.chars == d.chars) = false := by
            cases hbeq : d'.chars == d.chars with
            | false => rfl
            | true => exact absurd (die_eq_of_chars writable (eq_of_beq hbeq).symm) heq
          simp only [Group.insert, hne, Bool.and_false, Bool.false_eq_true, if_false, if_neg heq]
          exact .cons (.dice writable') ih

/-- The groups of items are written for the gathered parts. -/
theorem ofItems_spells {items : List (List Char × Bool)} {added : List Part}
    (h : items.Forall₂ (fun item part => Spells ⟨item.1, item.2, 1⟩ part) added) :
    (Group.ofItems items).Forall₂ Spells (Part.gather added) := by
  suffices ∀ {groups : List Group} {parts : List Part}, groups.Forall₂ Spells parts →
      (items.foldl (fun groups item => Group.insert item.1 item.2 groups) groups).Forall₂ Spells
        (added.foldl (fun parts part => Part.insert part parts) parts) from this .nil
  induction h with
  | nil => exact id
  | cons hitem _ ih => exact fun hgroups => ih (insert_spells hitem hgroups)

namespace Phrase

theorem chars_join (ps : List Phrase) : (join ps).chars = ['+'].intercalate (ps.map chars) := by
  match ps with
  | [] => rfl
  | [p] => simp [join]
  | p :: q :: ps => exact chars_sum _

theorem intercalate_append {sep : List α} {xs ys : List (List α)} (hxs : xs ≠ []) (hys : ys ≠ []) :
    sep.intercalate (xs ++ ys) = sep.intercalate xs ++ sep ++ sep.intercalate ys := by
  induction xs with
  | nil => exact absurd rfl hxs
  | cons x xs ih =>
    cases xs with
    | nil =>
      obtain ⟨y, ys, rfl⟩ := List.exists_cons_of_ne_nil hys
      simp [List.intercalate_cons_cons]
    | cons x' xs =>
      rw [List.cons_append, List.cons_append, List.intercalate_cons_cons, ← List.cons_append, ih (List.cons_ne_nil _ _),
        List.intercalate_cons_cons]
      simp only [List.append_assoc]

/-- Sums inside of a sum are written as one sum. -/
theorem chars_join_flatMap (hne : ∀ p ∈ parts, p.terms ≠ []) :
    (join (parts.flatMap Part.terms)).chars = ['+'].intercalate (parts.map fun p => (join p.terms).chars) := by
  rw [chars_join]
  induction parts with
  | nil => rfl
  | cons p parts ih =>
    obtain ⟨hp, hparts⟩ := List.forall_mem_cons.mp hne
    cases parts with
    | nil => simp [chars_join]
    | cons q parts =>
      have later : ((q :: parts).flatMap Part.terms).map chars ≠ [] := by
        rw [List.flatMap_cons, Ne, List.map_eq_nil_iff, List.append_eq_nil_iff]
        exact fun hnil => hparts q List.mem_cons_self hnil.1
      rw [List.flatMap_cons, List.map_append, intercalate_append (by simpa using hp) later, ih hparts]
      simp only [List.map_cons, List.intercalate_cons_cons, chars_join]

end Phrase

theorem chars_of_spells {g : Group} {p : Part} (h : Spells g p) : g.chars = (Phrase.join p.terms).chars := by
  cases h with
  | other ts => rfl
  | @dice d count _ =>
    have hbare : (Phrase.join (Part.dice d count).terms).chars = _ := spelled_bare { count, die := d }
    rw [hbare, Group.chars]
    split
    · rfl
    · rfl

theorem join_of_spells (h : groups.Forall₂ Spells parts) (hne : parts ≠ []) (hterms : ∀ p ∈ parts, p.terms ≠ []) :
    Group.join groups = (Phrase.join (parts.flatMap Part.terms)).chars := by
  have texts : ∀ {groups : List Group} {parts : List Part}, groups.Forall₂ Spells parts →
      groups.map Group.chars = parts.map fun p => (Phrase.join p.terms).chars := fun h => by
    induction h with
    | nil => rfl
    | cons hg _ ih => rw [List.map_cons, List.map_cons, ih, chars_of_spells hg]
  have hgroups : groups.isEmpty = false := by
    cases h with
    | nil => exact absurd rfl hne
    | cons => rfl
  rw [Group.join, hgroups, Phrase.chars_join_flatMap hterms, texts h]
  rfl

/-! ### Texts of parsed trees -/

namespace Dice
variable {T : Option Tracer → Prop} {L : Nat → Prop} {d : Dice}

theorem ofItems_replicate {count : Nat} {d : Die} (hcount : 1 ≤ count) (writable : d.Writable) :
    Group.ofItems (spelledItems (List.replicate count (.die d))) = [⟨d.chars, true, count⟩] := by
  have copies : ∀ n : Nat, (List.replicate n (d.chars, true)).Forall₂ (fun item part => Spells ⟨item.1, item.2, 1⟩ part)
      (List.replicate n (.dice d 1)) := fun n => by
    induction n with
    | zero => exact .nil
    | succ n ih => exact .cons (.dice writable) ih
  have spells := ofItems_spells (copies count)
  rw [Part.gather_replicate d hcount] at spells
  rw [spelledItems_eq_map, List.map_replicate]
  obtain ⟨g, groups, hg, hgroups, hitems⟩ := List.forall₂_cons_right_iff.mp spells
  obtain rfl := List.forall₂_nil_right_iff.mp hgroups
  cases hg
  exact hitems

theorem join_replicate {count : Nat} {d : Die} (hcount : 1 ≤ count) (writable : d.Writable) :
    Group.join (Group.ofItems (spelledItems (List.replicate count (.die d)))) =
      (if 1 < count then Numeral.ofNat count else []) ++ d.chars := by
  rw [ofItems_replicate hcount writable]
  show ['+'].intercalate [Group.chars ⟨d.chars, true, count⟩] = _
  rw [List.intercalate_singleton, Group.chars]
  split
  · rfl
  · rfl

/-- The spelling of equal dice: the group without modifiers, and the tag of the selection. -/
theorem Simple.spelling (h : Simple T d) : ∃ g, simpleGroup? d = some g ∧ g.modifiers.trigger = none ∧
    d.spelling = ⟨spelled g.bare.words, g.modifiers.selection.map fun (s, k) => s.tag ++ Numeral.ofNat k⟩ := by
  cases h with
  | @die d _ =>
    refine ⟨_, rfl, rfl, ?_⟩
    rw [spelled_bare]
    rfl
  | @copies count d tracer two few writable =>
    have one : 1 ≤ count := by omega
    refine ⟨_, simpleGroup?_pool one d tracer, rfl, ?_⟩
    rw [Dice.spelling, join_replicate one writable, spelled_bare]
    rfl
  | @selection count k d selector poolTracer tracer one le few writable =>
    have pos : 1 ≤ count := Nat.le_trans one le
    refine ⟨_, simpleGroup?_selection pos d selector k poolTracer tracer, rfl, ?_⟩
    rw [Dice.spelling, join_replicate pos writable, spelled_bare]
    rfl

theorem suffix_eq (inner : Dice) (comparison : Comparison) (threshold : Outcome) :
    comparison.suffix threshold inner.highestFace = spelled (inner.trigger comparison threshold).words := by
  unfold Comparison.suffix trigger Trigger.words
  split
  · rfl
  · rw [spelled_cons, spelled_cons, spelled_outcome]
    rfl

/-- No group is wrapped before its modifiers are attached. -/
theorem withSuffix_group (g : PlainGroup) (tag : Option (List Char)) (suffix : List Char) :
    Spelling.withSuffix ⟨spelled g.bare.words, tag⟩ suffix = spelled g.bare.words ++ suffix ++ tag.getD [] := by
  rw [Spelling.withSuffix, wrap_of_not_hasPlus (quiet_group g.bare).2]

theorem Plain.chars (h : Plain T L d) : d.chars = d.phrase.chars := by
  have text : ∃ g, plainGroup? d = some g ∧ d.chars = spelled g.words := by
    cases h with
    | simple inside =>
      obtain ⟨g, hg, htrigger, hspelling⟩ := inside.spelling
      refine ⟨g, ?_, ?_⟩
      · cases inside <;> exact hg
      · rw [Dice.chars, hspelling, spelled_group g, Modifiers.words, htrigger, Option.map_none, Option.getD_none,
          List.nil_append, spelled_selection]
        cases g.modifiers.selection with
        | none => exact (List.append_nil _).symm
        | some selection =>
          rw [Option.map_some, Spelling.chars, withSuffix_group, List.append_nil]
    | @explosion inner comparison threshold limit tracer inside splits =>
      obtain ⟨g, hg, htrigger, hspelling⟩ := inside.spelling
      refine ⟨g.exploding (inner.trigger comparison threshold), by rw [plainGroup?, hg]; rfl, ?_⟩
      rw [spelled_group, PlainGroup.exploding, Modifiers.words, Option.map_some, Option.getD_some, spelled_append,
        spelled_selection, ← suffix_eq, ← List.append_assoc]
      show Spelling.withSuffix inner.spelling _ = _
      rw [hspelling, withSuffix_group]
      rfl
  obtain ⟨g, hg, hchars⟩ := text
  rw [phrase, h.terms, hg, hchars]
  rfl

theorem Shape.spells (h : Shape T L d) (hchars : d.chars = d.phrase.chars) :
    Spells ⟨d.chars, d.isDie, 1⟩ d.part := by
  cases h with
  | plain group =>
    cases group with
    | simple inside =>
      cases inside with
      | die writable => exact .dice writable
      | copies => rw [hchars]; exact .other _
      | selection => rw [hchars]; exact .other _
    | explosion => rw [hchars]; exact .other _
  | arithmetic => rw [hchars]; exact .other _
  | sum => rw [hchars]; exact .other _

/-- The canonical text of a parsed tree is the text of its phrase. -/
theorem Shape.chars_eq (h : Shape T L d) : d.chars = d.phrase.chars := by
  induction h with
  | plain group => exact group.chars
  | @arithmetic inner operator operand tracer inside _ _ _ ih =>
    show Wrap.wrap inner.chars ++ operator.symbol :: operand.chars = _
    show _ = (Phrase.chain inner.phrase operator operand).chars
    rw [ih, inside.phrase_proper.legible.wrap, Phrase.chars_chain, spelled_outcome]
  | @sum items tracer two each traced ih =>
    show Group.join (Group.ofItems (spelledItems items)) = _
    have spells : (spelledItems items).Forall₂ (fun item part => Spells ⟨item.1, item.2, 1⟩ part) (items.map part) := by
      rw [spelledItems_eq_map, List.forall₂_map_left_iff, List.forall₂_map_right_iff, List.forall₂_same]
      exact fun d hd => (each d hd).spells (ih d hd)
    have hterms : ∀ p ∈ Part.gather (items.map part), p.terms ≠ [] := by
      refine Part.forall_gather (List.forall_mem_map.mpr fun d hd => ?_) fun _ _ _ _ _ => List.cons_ne_nil _ _
      rw [part_terms]
      exact (each d hd).terms_proper.1
    rw [join_of_spells (ofItems_spells spells) (Part.gather_ne_nil (map_part_ne_nil two)) hterms, phrase,
      terms, parts_eq_map]

/-- The canonical text of a parsed tree is parsed as what its phrase builds. -/
theorem Shape.parse_text_iff (h : Shape T L d) {settings : Settings} {e : Dice} :
    parse d.text settings = .ok e ↔ d.phrase.build settings = .ok e := by
  rw [text, h.chars_eq, Phrase.chars, h.phrase_proper.legible.parse_iff]
  exact ⟨fun hparse => hparse.2, fun built => ⟨h.phrase_proper.fits built, built⟩⟩

end Dice

end DiceNotation
