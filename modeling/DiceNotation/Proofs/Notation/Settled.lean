import DiceNotation.Proofs.Notation.Canonical

/-! When the notation of a parsed tree is kept by another round of parsing and printing. A phrase is settled if no
    die stands alone twice in one of its sums and no group is too large. What a settled phrase builds is written
    as the same phrase; any other phrase loses a group or is not built at all. -/

namespace DiceNotation

/-! ### Dice of a phrase -/

namespace Phrase

/-- The die of a group that is a single die without modifiers. -/
def lone? : Phrase → Option Die
  | plain g => if g.count = 1 ∧ g.modifiers = {} then some g.die else none
  | _ => none

/-- No die stands alone twice in one sum, and no group is too large. -/
inductive Settled : Phrase → Prop
  | plain {g : PlainGroup} (few : g.count ≤ maxDice) : Settled (.plain g)
  | chain {inner : Phrase} {operator : Operator} {operand : Outcome} (inside : Settled inner) :
      Settled (.chain inner operator operand)
  | sum {terms : List Phrase} (distinct : (terms.filterMap lone?).Nodup) (each : ∀ p ∈ terms, Settled p) :
      Settled (.sum terms)

/-- No group is too large. -/
inductive Few : Phrase → Prop
  | plain {g : PlainGroup} (few : g.count ≤ maxDice) : Few (.plain g)
  | chain {inner : Phrase} {operator : Operator} {operand : Outcome} (inside : Few inner) :
      Few (.chain inner operator operand)
  | sum {terms : List Phrase} (each : ∀ p ∈ terms, Few p) : Few (.sum terms)

theorem Settled.few {p : Phrase} (h : p.Settled) : p.Few := by
  induction h with
  | plain few => exact .plain few
  | chain _ ih => exact .chain ih
  | sum _ _ ih => exact .sum ih

/-- The number of groups that a phrase is written with. -/
def dice (p : Phrase) : Nat := p.words.count .die

theorem count_outcome (n : Outcome) : n.words.count .die = 0 := by
  unfold Outcome.words
  split <;> simp

theorem count_intercalate {t : Token} (ht : t ≠ .die) (parts : List (List Token)) :
    ([t].intercalate parts).count .die = parts.flatten.count .die := by
  induction parts with
  | nil => rfl
  | cons words parts ih =>
    cases parts with
    | nil => simp
    | cons more parts =>
      rw [List.intercalate_cons_cons, List.count_append, List.count_append, ih, List.flatten_cons, List.count_append,
        List.count_singleton]
      simp [ht]

theorem count_die (d : Die) : d.words.count .die = 0 := by
  cases d with
  | standard sides _ => simp [Die.words]
  | fudge => rfl
  | percentile => rfl
  | custom faces enough =>
    have listed : ([.comma].intercalate (faces.map Outcome.words)).count .die = 0 := by
      rw [count_intercalate (t := .comma) (by decide)]
      clear enough
      induction faces with
      | nil => rfl
      | cons n faces ih => rw [List.map_cons, List.flatten_cons, List.count_append, count_outcome, ih]
    simp [Die.words, listed]

theorem count_modifiers (m : Modifiers) : m.words.count .die = 0 := by
  obtain ⟨trigger, selection⟩ := m
  rw [Modifiers.words, List.count_append]
  have htrigger : ((trigger.map Trigger.words).getD []).count .die = 0 := by
    cases trigger with
    | none => rfl
    | some t =>
      obtain ⟨c, threshold⟩ := t
      cases threshold with
      | none => rfl
      | some n => simp [Trigger.words, count_outcome]
  rw [htrigger]
  cases selection with
  | none => rfl
  | some selection => simp [selectionWords]

theorem dice_plain (g : PlainGroup) : (plain g).dice = 1 := by
  rw [dice, words, PlainGroup.words, List.count_append, List.count_cons_self, List.count_append, count_die,
    count_modifiers]
  split
  · simp
  · rfl

theorem dice_chain (inner : Phrase) (operator : Operator) (operand : Outcome) :
    (chain inner operator operand).dice = inner.dice := by
  rw [dice, words, List.count_append, List.count_cons, count_outcome]
  split
  · simp [dice]
  · rfl

/-- The number of groups that a list of phrases is written with. -/
def diceAll (ps : List Phrase) : Nat := (ps.flatMap words).count .die

theorem diceAll_cons (p : Phrase) (ps : List Phrase) : diceAll (p :: ps) = p.dice + diceAll ps := by
  rw [diceAll, List.flatMap_cons, List.count_append]
  rfl

theorem diceAll_append (ps qs : List Phrase) : diceAll (ps ++ qs) = diceAll ps + diceAll qs := by
  rw [diceAll, List.flatMap_append, List.count_append]
  rfl

theorem dice_sum (ps : List Phrase) : (sum ps).dice = diceAll ps := by
  rw [dice, words, wordsAll_eq_map, count_intercalate (t := .operator .add) (by decide), ← List.flatMap_def]
  rfl

theorem dice_join (ps : List Phrase) : (join ps).dice = diceAll ps := by
  cases ps with
  | nil => rfl
  | cons p ps =>
    cases ps with
    | nil => exact (diceAll_cons p []).symm
    | cons q ps => exact dice_sum _

end Phrase

/-! ### Gathering loses groups -/

namespace Part
variable {ps items : List Part}

/-- The number of groups that parts are written with. -/
def total (ps : List Part) : Nat := Phrase.diceAll (ps.flatMap terms)

theorem total_cons (p : Part) (ps : List Part) : total (p :: ps) = Phrase.diceAll p.terms + total ps := by
  rw [total, List.flatMap_cons, Phrase.diceAll_append]
  rfl

theorem total_append (ps qs : List Part) : total (ps ++ qs) = total ps + total qs := by
  rw [total, List.flatMap_append, Phrase.diceAll_append]
  rfl

theorem diceAll_dice (d : Die) (count : Nat) : Phrase.diceAll (dice d count).terms = 1 := by
  rw [terms, Phrase.diceAll_cons, Phrase.dice_plain]
  rfl

theorem total_insert_of_mem {d : Die} (n : Nat) (h : d ∈ diceOf ps) : total (insert (dice d n) ps) = total ps := by
  induction ps with
  | nil => cases h
  | cons p ps ih =>
    cases p with
    | other ts =>
      show total (other ts :: insert (dice d n) ps) = _
      rw [total_cons, total_cons, ih h]
    | dice d' m =>
      by_cases heq : d = d'
      · rw [insert, if_pos heq, total_cons, total_cons, diceAll_dice, diceAll_dice]
      · have hmem : d ∈ diceOf ps := (List.mem_cons.mp h).resolve_left heq
        rw [insert, if_neg heq, total_cons, total_cons, ih hmem]

/-- A part whose die is there already is lost. -/
theorem total_foldl_insert (hps : (diceOf ps).Nodup) :
    total (items.foldl (fun parts item => insert item parts) ps) ≤ total ps + total items ∧
      (total (items.foldl (fun parts item => insert item parts) ps) = total ps + total items →
        (diceOf (ps ++ items)).Nodup) := by
  induction items generalizing ps with
  | nil => exact ⟨Nat.le_refl _, fun _ => by rwa [List.append_nil]⟩
  | cons item items ih =>
    rw [List.foldl_cons, total_cons]
    by_cases hmem : ∃ d ∈ item.die?, d ∈ diceOf ps
    · -- The item is lost in the part that is there, so the total falls behind and stays behind.
      obtain ⟨d, hd, hmem⟩ := hmem
      cases item with
      | other ts => cases hd
      | dice d' n =>
        cases hd
        have hinsert := @ih (insert (dice d n) ps) (by rwa [diceOf_insert_of_mem n hmem])
        rw [total_insert_of_mem n hmem] at hinsert
        rw [diceAll_dice]
        exact ⟨by omega, fun heq => by omega⟩
    · have hnew : ∀ d ∈ item.die?, d ∉ diceOf ps := fun d hd hd' => hmem ⟨d, hd, hd'⟩
      obtain ⟨hle, hnext⟩ := ih (nodup_append_singleton hps hnew)
      rw [insert_of_not_mem hnew]
      rw [total_append, total_cons item [], show total [] = 0 from rfl] at hle hnext
      rw [List.append_assoc] at hnext
      exact ⟨by omega, fun heq => hnext (by omega)⟩

theorem total_gather_le (items : List Part) : total (gather items) ≤ total items := by
  have h := (@total_foldl_insert [] items List.nodup_nil).1
  rwa [show total [] = 0 from rfl, Nat.zero_add] at h

theorem nodup_of_total_gather (h : total (gather items) = total items) : (diceOf items).Nodup :=
  (@total_foldl_insert [] items List.nodup_nil).2 (by rw [show total [] = 0 from rfl, Nat.zero_add]; exact h)

end Part

/-! ### Building and writing again -/

namespace Phrase
variable {p q : Phrase} {ps qs : List Phrase} {settings : Settings} {e : Dice}

/-- The second phrase is what the first one becomes when it is built and written again. -/
structure Kept (p q : Phrase) : Prop where
  eq_of_settled : p.Settled → q = p
  le : q.dice ≤ p.dice
  settled_of_eq : q.dice = p.dice → p.Settled

theorem Kept.all (h : ps.Forall₂ Kept qs) :
    diceAll qs ≤ diceAll ps ∧ (diceAll qs = diceAll ps → ∀ p ∈ ps, p.Settled) ∧ ((∀ p ∈ ps, p.Settled) → qs = ps) := by
  induction h with
  | nil => exact ⟨Nat.le_refl _, fun _ => List.forall_mem_nil _, fun _ => rfl⟩
  | @cons p q ps qs hpq _ ih =>
    obtain ⟨hle, hsettled, heq⟩ := ih
    have := hpq.le
    rw [diceAll_cons, diceAll_cons, List.forall_mem_cons]
    refine ⟨by omega, fun h => ⟨hpq.settled_of_eq (by omega), hsettled (by omega)⟩, fun h => ?_⟩
    rw [hpq.eq_of_settled h.1, heq h.2]

theorem Kept.of_settled (h : p.Settled) : Kept p p := ⟨fun _ => rfl, Nat.le_refl _, fun _ => h⟩

theorem Kept.chain {operator : Operator} {operand : Outcome} (h : Kept p q) :
    Kept (.chain p operator operand) (.chain q operator operand) where
  eq_of_settled settled := by
    obtain ⟨_⟩ | ⟨inside⟩ := settled
    rw [h.eq_of_settled inside]
  le := by
    rw [dice_chain, dice_chain]
    exact h.le
  settled_of_eq heq := by
    rw [dice_chain, dice_chain] at heq
    exact .chain (h.settled_of_eq heq)

/-- A group that is built is no larger than allowed, and it is the group of its node. -/
theorem build_plain {g : PlainGroup} (h : g.Proper) (built : (plain g).build settings = .ok e) :
    g.count ≤ maxDice ∧ buildGroup settings g.count g.die g.modifiers = .ok e ∧ e.plainGroup? = some g := by
  rw [build, PlainGroup.build] at built
  split at built
  · cases built
  · next hlarge =>
    obtain ⟨e', built', hgroup⟩ := h.built settings
    rw [built] at built'
    cases built'
    exact ⟨Nat.not_lt.mp hlarge, built, hgroup⟩

/-- What a proper phrase builds is a parsed tree. -/
theorem Proper.parsed (h : p.Proper) (built : p.build settings = .ok e) : Parsed settings e := by
  induction h generalizing e with
  | @plain g group =>
    obtain ⟨few, hbuild, -⟩ := build_plain group built
    exact .plain (buildGroup_plain ⟨group.legible.1, few⟩ group.die group.threshold hbuild)
  | chain _ accepts writable ih =>
    obtain ⟨inner, hinner, -, rfl⟩ := build_chain_eq_ok.mp built
    exact .arithmetic (ih hinner) accepts writable rfl
  | @sum ps two _ _ ih =>
    obtain ⟨es, hes, rfl⟩ := build_sum_eq_ok.mp built
    refine .sum (hes.length_eq ▸ two) (fun e he => ?_) rfl
    obtain ⟨p, hp, hbuild⟩ := exists_mem_left hes he
    exact ih p hp hbuild

/-- A proper phrase is built if its groups are not too large. -/
theorem Proper.exists_build (h : p.Proper) (few : p.Few) (settings : Settings) :
    ∃ e, p.build settings = .ok e := by
  induction h with
  | @plain g group =>
    obtain ⟨few⟩ := few
    obtain ⟨e, hbuild, -⟩ := group.built settings
    exact ⟨e, by rw [build, PlainGroup.build, if_neg (Nat.not_lt.mpr few), hbuild]⟩
  | chain _ accepts _ ih =>
    obtain ⟨_⟩ | ⟨inside⟩ := few
    obtain ⟨e, hbuild⟩ := ih inside
    exact ⟨_, build_chain_eq_ok.mpr ⟨e, hbuild, accepts, rfl⟩⟩
  | @sum ps _ _ _ ih =>
    obtain ⟨_⟩ | ⟨_⟩ | ⟨each⟩ := few
    obtain ⟨es, hes⟩ := exists_forall₂ fun p hp => ih p hp (each p hp)
    exact ⟨_, build_sum_eq_ok.mpr ⟨es, hes, rfl⟩⟩

/-- A term and its node: the node is written as one phrase again, and it is a leaf if the term is a lone die. -/
def KeptTerm (p : Phrase) (e : Dice) : Prop := ∃ q, e.terms = [q] ∧ e.leaf? = p.lone? ∧ Kept p q

theorem keptTerm_plain {g : PlainGroup} (h : g.Proper) (built : (plain g).build settings = .ok e) :
    KeptTerm (plain g) e := by
  obtain ⟨few, hbuild, hgroup⟩ := build_plain h built
  have plain := buildGroup_plain ⟨h.legible.1, few⟩ h.die h.threshold hbuild
  refine ⟨.plain g, by rw [plain.terms, hgroup]; rfl, ?_, .of_settled (.plain few)⟩
  rw [lone?]
  split
  · next hlone =>
    rw [hlone.1, hlone.2] at hbuild
    cases hbuild
    rfl
  · next hlone =>
    cases e with
    | die d =>
      cases hgroup
      exact absurd ⟨rfl, rfl⟩ hlone
    | _ => rfl

theorem kept_terms {es : List Dice} (h : ps.Forall₂ KeptTerm es) :
    ∃ qs, (es.map Dice.part).flatMap Part.terms = qs ∧ es.filterMap Dice.leaf? = ps.filterMap lone? ∧
      ps.Forall₂ Kept qs := by
  induction h with
  | nil => exact ⟨[], rfl, rfl, .nil⟩
  | @cons p e ps es hpe _ ih =>
    obtain ⟨q, hterms, hleaf, hkept⟩ := hpe
    obtain ⟨qs, hqs, hleaves, hkepts⟩ := ih
    refine ⟨q :: qs, ?_, ?_, .cons hkept hkepts⟩
    · rw [List.map_cons, List.flatMap_cons, Dice.part_terms, hterms, hqs]
      rfl
    · rw [List.filterMap_cons, List.filterMap_cons, hleaf, hleaves]

theorem kept_sum {es : List Dice} {tracer : Option Tracer} (two : 2 ≤ ps.length) (h : ps.Forall₂ KeptTerm es) :
    Kept (sum ps) (Dice.pool es tracer).phrase := by
  obtain ⟨qs, hqs, hleaves, hkepts⟩ := kept_terms h
  obtain ⟨hle, hsettled, heq⟩ := Kept.all hkepts
  have hphrase : (Dice.pool es tracer).phrase = join ((Part.gather (es.map Dice.part)).flatMap Part.terms) := by
    rw [Dice.phrase, Dice.terms, Dice.parts_eq_map]
  have htotal : (Dice.pool es tracer).phrase.dice = Part.total (Part.gather (es.map Dice.part)) := by
    rw [hphrase, dice_join]
    rfl
  have hitems : Part.total (es.map Dice.part) = diceAll qs := by
    rw [Part.total, hqs]
  have hgather := Part.total_gather_le (es.map Dice.part)
  -- The terms of the sum lose groups where they are written again, and then where equal dice are gathered.
  refine ⟨fun settled => ?_, ?_, fun hdice => ?_⟩
  · obtain ⟨_⟩ | ⟨_⟩ | ⟨distinct, each⟩ := settled
    rw [hphrase, Part.gather_of_nodup (by rw [Dice.diceOf_parts, hleaves]; exact distinct), hqs, heq each,
      Dice.join_eq_sum two]
  · rw [htotal, dice_sum]
    omega
  · rw [htotal, dice_sum] at hdice
    refine .sum ?_ (hsettled (by omega))
    rw [← hleaves, ← Dice.diceOf_parts]
    exact Part.nodup_of_total_gather (by omega)

/-- What a proper phrase builds is written as a phrase that it is kept as. -/
theorem Proper.kept (h : p.Proper) (built : p.build settings = .ok e) :
    (p.isSum = false → KeptTerm p e) ∧ Kept p e.phrase := by
  have single : ∀ {p : Phrase} {e : Dice}, KeptTerm p e → Kept p e.phrase := by
    rintro p e ⟨q, hterms, -, hkept⟩
    rw [Dice.phrase, hterms]
    exact hkept
  induction h generalizing e with
  | plain group =>
    have term := keptTerm_plain group built
    exact ⟨fun _ => term, single term⟩
  | @chain inner operator operand _ _ _ ih =>
    obtain ⟨d, hinner, -, rfl⟩ := build_chain_eq_ok.mp built
    have term : KeptTerm (.chain inner operator operand) (.arithmetic d operator operand settings.tracer) :=
      ⟨_, rfl, rfl, (ih hinner).2.chain⟩
    exact ⟨fun _ => term, single term⟩
  | @sum ps two _ flat ih =>
    obtain ⟨es, hes, rfl⟩ := build_sum_eq_ok.mp built
    refine ⟨fun h => (by cases h), kept_sum two (List.forall₂_iff_get.mpr ⟨hes.length_eq, fun i hi hi' => ?_⟩)⟩
    exact (ih _ (List.getElem_mem _) (hes.get hi hi')).1 (flat _ (List.getElem_mem _))

end Phrase

/-! ### Another round -/

namespace Dice
variable {T : Option Tracer → Prop} {L : Nat → Prop} {settings : Settings} {d : Dice}

theorem Shape.round_trip_iff (h : Shape T L d) :
    (∃ e, parse d.text settings = .ok e ∧ e.text = d.text) ↔ d.phrase.Settled := by
  constructor
  · rintro ⟨e, hparse, htext⟩
    have built := h.parse_text_iff.mp hparse
    have parsed : Parsed settings e := h.phrase_proper.parsed built
    -- Equal texts have equal words, so no group was lost on the way, and only settled phrases lose none.
    have hchars : e.phrase.chars = d.phrase.chars := by
      rw [← Shape.chars_eq parsed, ← h.chars_eq]
      exact String.ofList_injective htext
    have hwords : d.phrase.words = e.phrase.words :=
      words_injective h.phrase_proper.legible.spaced (Shape.phrase_proper parsed).legible.spaced
        (h.phrase_proper.fits built) hchars.symm
    exact (h.phrase_proper.kept built).2.settled_of_eq (congrArg (List.count Token.die) hwords.symm)
  · intro settled
    obtain ⟨e, built⟩ := h.phrase_proper.exists_build settled.few settings
    have parsed : Parsed settings e := h.phrase_proper.parsed built
    refine ⟨e, h.parse_text_iff.mpr built, ?_⟩
    rw [text, text, Shape.chars_eq parsed, h.chars_eq, (h.phrase_proper.kept built).2.eq_of_settled settled]

/-- The notation of a parsed tree is parsed and written as the same text just if its phrase is settled. -/
theorem parse_round_trip_iff {written : String} (h : parse written settings = .ok d) :
    (∃ e, parse d.text settings = .ok e ∧ e.text = d.text) ↔ d.phrase.Settled := by
  rcases parse_shape h with rfl | parsed
  · exact ⟨fun _ => .sum List.nodup_nil (List.forall_mem_nil _), fun _ => ⟨_, parse_zero settings, rfl⟩⟩
  · exact Shape.round_trip_iff parsed

/-- A six-sided die after a sum in parentheses that holds another one. -/
def nestedSum : Dice := .pool [.pool [.die six, .die eight] none, .die six] none

theorem nestedSum_parsed : parse "(d6+d8)+d6" {} = .ok nestedSum := by with_unfolding_all rfl

theorem nestedSum_not_settled : ¬nestedSum.phrase.Settled := by
  have hphrase : nestedSum.phrase = .sum [.plain { count := 1, die := six }, .plain { count := 1, die := eight },
      .plain { count := 1, die := six }] := rfl
  rw [hphrase]
  intro settled
  obtain ⟨_⟩ | ⟨_⟩ | ⟨distinct, -⟩ := settled
  exact absurd distinct (by decide)

theorem nestedSum_not_kept :
    parse "(d6+d8)+d6" {} = .ok nestedSum ∧ ¬∃ e, parse nestedSum.text {} = .ok e ∧ e.text = nestedSum.text :=
  ⟨nestedSum_parsed, fun kept => nestedSum_not_settled ((parse_round_trip_iff nestedSum_parsed).mp kept)⟩

end Dice

end DiceNotation
