import DiceNotation.Proofs.Notation.Printing

/-! Canonical trees, and that parsing undoes their notation. What the notation of a canonical tree builds again
    has its structure, node by node: a pool without equal dice is gathered into its items as they stand. -/

namespace DiceNotation.Dice

/-- The layers of an expression. -/
inductive Layer
  | term | expression

/-- The die of a leaf. -/
def leaf? : Dice → Option Die
  | die d => some d
  | _ => none

/-- A canonical expression is a term, or a pool of at least two terms in which no two leaves are equal. A term is
    the node of a plain group, or an operator over a canonical expression. -/
inductive CanonicalAt : Layer → Dice → Prop
  | group {d : Dice} (plain : Plain (fun _ => True) (fun _ => True) d) : CanonicalAt .term d
  | arithmetic {inner : Dice} {operator : Operator} {operand : Outcome} {tracer : Option Tracer}
      (inside : CanonicalAt .expression inner) (accepts : operator.Accepts operand)
      (writable : operator.Writable operand) : CanonicalAt .term (.arithmetic inner operator operand tracer)
  | term {d : Dice} (inside : CanonicalAt .term d) : CanonicalAt .expression d
  | sum {items : List Dice} {tracer : Option Tracer} (two : 2 ≤ items.length)
      (each : ∀ d ∈ items, CanonicalAt .term d) (distinct : (items.filterMap leaf?).Nodup) :
      CanonicalAt .expression (.pool items tracer)

/-- A canonical tree is the empty pool or a canonical expression. -/
def Canonical (d : Dice) : Prop := (∃ tracer, d = .pool [] tracer) ∨ CanonicalAt .expression d

variable {layer : Layer} {d : Dice} {items : List Dice}

theorem CanonicalAt.shape (h : CanonicalAt layer d) : Shape (fun _ => True) (fun _ => True) d := by
  induction h with
  | group plain => exact .plain plain
  | arithmetic _ accepts writable ih => exact .arithmetic ih accepts writable trivial
  | term _ ih => exact ih
  | sum two _ _ ih => exact .sum two ih trivial

theorem die?_part (d : Dice) : d.part.die? = d.leaf? := by
  cases d <;> rfl

theorem diceOf_parts (items : List Dice) : Part.diceOf (items.map part) = items.filterMap leaf? := by
  rw [Part.diceOf, List.filterMap_map]
  exact List.filterMap_congr fun d _ => die?_part d

/-- A term that is written as one phrase, which builds a node of the same structure. -/
def Rebuilt (settings : Settings) (d : Dice) : Prop :=
  ∃ p e, d.terms = [p] ∧ p.build settings = .ok e ∧ same e d = true

/-- The phrases of the items of a pool build a pool of the same structure. -/
theorem exists_phrases {settings : Settings} (h : ∀ d ∈ items, Rebuilt settings d) :
    ∃ ps es, (items.map part).flatMap Part.terms = ps ∧ ps.length = items.length ∧
      ps.Forall₂ (fun p e => p.build settings = .ok e) es ∧ sameAll es items = true := by
  induction items with
  | nil => exact ⟨[], [], rfl, rfl, .nil, rfl⟩
  | cons d ds ih =>
    obtain ⟨⟨p, e, hterms, hbuild, hsame⟩, hds⟩ := List.forall_mem_cons.mp h
    obtain ⟨ps, es, hps, hlength, hbuilds, hsames⟩ := ih hds
    refine ⟨p :: ps, e :: es, ?_, ?_, .cons hbuild hbuilds, ?_⟩
    · rw [List.map_cons, List.flatMap_cons, part_terms, hterms, hps]
      rfl
    · rw [List.length_cons, List.length_cons, hlength]
    · rw [sameAll, hsame, hsames]
      rfl

theorem join_eq_sum {ps : List Phrase} (h : 2 ≤ ps.length) : Phrase.join ps = .sum ps := by
  obtain ⟨p, q, ps, rfl⟩ := exists_cons_cons h
  rfl

/-- What the phrase of a canonical tree builds has the structure of the tree. -/
theorem CanonicalAt.rebuilt (h : CanonicalAt layer d) (settings : Settings) :
    (layer = .term → Rebuilt settings d) ∧ ∃ e, d.phrase.build settings = .ok e ∧ same e d = true := by
  have single : ∀ {d : Dice}, Rebuilt settings d → ∃ e, d.phrase.build settings = .ok e ∧ same e d = true := by
    rintro d ⟨p, e, hterms, hbuild, hsame⟩
    rw [phrase, hterms]
    exact ⟨e, hbuild, hsame⟩
  induction h with
  | @group d plain =>
    obtain ⟨g, hg, -, few, built⟩ := plain.group
    obtain ⟨e, hbuild, hsame⟩ := built settings
    have rebuilt : Rebuilt settings d := by
      refine ⟨.plain g, e, by rw [plain.terms, hg]; rfl, ?_, hsame⟩
      rw [Phrase.build, PlainGroup.build, if_neg (Nat.not_lt.mpr few), hbuild]
    exact ⟨fun _ => rebuilt, single rebuilt⟩
  | @arithmetic inner operator operand tracer _ accepts _ ih =>
    obtain ⟨-, e, hbuild, hsame⟩ := ih
    have rebuilt : Rebuilt settings (.arithmetic inner operator operand tracer) := by
      refine ⟨.chain inner.phrase operator operand, .arithmetic e operator operand settings.tracer, rfl,
        Phrase.build_chain_eq_ok.mpr ⟨e, hbuild, accepts, rfl⟩, ?_⟩
      simp [same, hsame]
    exact ⟨fun _ => rebuilt, single rebuilt⟩
  | term _ ih => exact ⟨fun h => (by cases h), ih.2⟩
  | @sum items tracer two _ distinct ih =>
    obtain ⟨ps, es, hps, hlength, hbuilds, hsames⟩ := exists_phrases fun d hd => (ih d hd).1 rfl
    refine ⟨fun h => (by cases h), .pool es settings.tracer, ?_, hsames⟩
    have hterms : (pool items tracer).terms = ps := by
      rw [terms, parts_eq_map, Part.gather_of_nodup (by rw [diceOf_parts]; exact distinct), hps]
    rw [phrase, hterms, join_eq_sum (by omega), Phrase.build_sum_eq_ok]
    exact ⟨es, hbuilds, rfl⟩

theorem parse_zero (settings : Settings) : parse "0" settings = .ok (.pool [] settings.tracer) := by
  have hspaced : Spaced [.number 0] := .number 0
  obtain ⟨tokens, scanned⟩ := exists_scan hspaced (List.forall_mem_singleton.mpr (Nat.zero_le _))
  have hwords := token_of_scan hspaced scanned
  obtain ⟨a, b, rfl⟩ : ∃ a b, tokens = [⟨a, .number 0⟩, ⟨b, .finish⟩] := by
    match tokens, hwords with
    | [⟨a, _⟩, ⟨b, _⟩], rfl => exact ⟨a, b, rfl⟩
  have htext : scan "0" = .ok [⟨a, .number 0⟩, ⟨b, .finish⟩] := scanned
  rw [parse, htext]
  rfl

/-- Parsing undoes the notation of a canonical tree: it succeeds with a tree of the same structure. -/
theorem exists_parse_text_of_canonical (h : Canonical d) (settings : Settings) :
    ∃ e, parse d.text settings = .ok e ∧ (e == d) = true := by
  rcases h with ⟨tracer, rfl⟩ | h
  · exact ⟨_, parse_zero settings, rfl⟩
  · obtain ⟨-, e, hbuild, hsame⟩ := h.rebuilt settings
    exact ⟨e, h.shape.parse_text_iff.mpr hbuild, hsame⟩

def six : Die := .standard 6 (Nat.le_add_left 2 4)

def eight : Die := .standard 8 (Nat.le_add_left 2 6)

/-- An exploding pair and a die of eight, together multiplied by a negative number. -/
def scaledSum : Dice :=
  .arithmetic (.pool [.explosion (.pool (List.replicate 2 (.die six)) none) .greater 10 3 none, .die eight] none)
    .multiply (.ofInt (-3)) none

theorem scaledSum_canonical : scaledSum.Canonical := by
  have hsix : six.Writable := show 6 ≤ Token.greatestNumber by decide
  have height : eight.Writable := show 8 ≤ Token.greatestNumber by decide
  have pair : Simple (fun _ => True) (.pool (List.replicate 2 (.die six)) none) :=
    .copies (Nat.le_refl 2) (Nat.le_add_left 2 9998) hsix trivial
  refine .inr (.term (.arithmetic (.sum (Nat.le_refl 2) ?_ (by decide)) trivial ⟨by decide, by decide⟩))
  exact List.forall_mem_cons.mpr ⟨.group (.explosion pair (by decide) (by decide) trivial trivial),
    List.forall_mem_singleton.mpr (.group (.simple (.die height)))⟩

theorem scaledSum_reparsed :
    scaledSum.Canonical ∧ ∃ e, parse scaledSum.text {} = .ok e ∧ (e == scaledSum) = true :=
  ⟨scaledSum_canonical, exists_parse_text_of_canonical scaledSum_canonical {}⟩

end DiceNotation.Dice
