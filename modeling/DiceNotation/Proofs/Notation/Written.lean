import DiceNotation.Proofs.Notation.Composition
import DiceNotation.Proofs.Notation.Interleaving

/-! Groups as they are written, with any part left out that may be. A text that writes a group is parsed as the node
    that the group builds, whichever of its modifiers is written first. -/

namespace DiceNotation

/-- A number that a notation can hold. -/
abbrev Number := Fin (Token.greatestNumber + 1)

/-! ### Groups as they are written -/

/-- What is written after the letter of a die. -/
inductive WrittenFaces
  | omitted
  | sides (n : Number)
  | fudge
  | percent
  | list (first : Outcome) (others : List Outcome)

namespace WrittenFaces

def words : WrittenFaces → List Token
  | omitted => []
  | sides n => [.number n]
  | fudge => [.fudge]
  | percent => [.percent]
  | list first others => .openFaces :: [.comma].intercalate ((first :: others).map Outcome.words) ++ [.closeFaces]

def die : WrittenFaces → Except Error Die
  | omitted => Die.ofSides defaultSides
  | sides n => Die.ofSides n
  | fudge => .ok .fudge
  | percent => .ok .percentile
  | list first others => Die.ofFaces (first :: others)

/-- The largest face. -/
def highest : WrittenFaces → Outcome
  | omitted => .ofInt defaultSides
  | sides n => .ofInt n
  | fudge => 1
  | percent => 100
  | list first others => others.foldl max first

/-- The numbers that may have a sign. -/
def constants : WrittenFaces → List Outcome
  | list first others => first :: others
  | _ => []

end WrittenFaces

/-- A bang and the threshold after it. -/
inductive WrittenExplosion
  | bare
  | number (n : Number)
  | compared (comparison : Comparison) (threshold : Outcome)

namespace WrittenExplosion

def words : WrittenExplosion → List Token
  | bare => [.bang]
  | number n => [.bang, .number n]
  | compared comparison threshold => .bang :: .comparison comparison :: threshold.words

def trigger : WrittenExplosion → Trigger
  | bare => ⟨.equals, none⟩
  | number n => ⟨.equals, some (.ofInt n)⟩
  | compared comparison threshold => ⟨comparison, some threshold⟩

def constants : WrittenExplosion → List Outcome
  | compared _ threshold => [threshold]
  | _ => []

end WrittenExplosion

/-- A number that may be left out. -/
def optionalNumber : Option Number → List Token
  | none => []
  | some n => [.number n]

def optionalSelection : Option (Selector × Option Number) → List Token
  | none => []
  | some (selector, rank) => .selector selector :: optionalNumber rank

def optionalExplosion : Option WrittenExplosion → List Token
  | none => []
  | some explosion => explosion.words

/-- Dice with at most one modifier of each kind. -/
structure WrittenGroup where
  count : Option Number := none
  faces : WrittenFaces := .omitted
  selection : Option (Selector × Option Number) := none
  explosion : Option WrittenExplosion := none
  /-- The explosion is written before the selection. -/
  explodesFirst : Bool := false

/-- The count of a group, which is one when left out. -/
def checkedCount : Option Number → Except Error Nat
  | none => .ok 1
  | some n =>
    if n.val = 0 then .error (.illegal .noDice)
    else if maxDice < n.val then .error (.illegal (.tooManyDice n maxDice))
    else .ok n

namespace WrittenGroup

def modifierWords (g : WrittenGroup) : List Token :=
  if g.explodesFirst then optionalExplosion g.explosion ++ optionalSelection g.selection
  else optionalSelection g.selection ++ optionalExplosion g.explosion

def words (g : WrittenGroup) : List Token :=
  optionalNumber g.count ++ .die :: (g.faces.words ++ g.modifierWords)

def modifiers (g : WrittenGroup) : Modifiers where
  trigger := g.explosion.map WrittenExplosion.trigger
  selection := g.selection.map fun (selector, rank) => (selector, rank.elim 1 Fin.val)

/-- The node of a group: the count is checked first, then the faces, and then what the modifiers ask for. -/
def build (settings : Settings) (g : WrittenGroup) : Except Error Dice :=
  match checkedCount g.count with
  | .error e => .error e
  | .ok count =>
    match g.faces.die with
    | .error e => .error e
    | .ok die => buildGroup settings count die g.modifiers

def constants (g : WrittenGroup) : List Outcome :=
  g.faces.constants ++ g.explosion.elim [] WrittenExplosion.constants

end WrittenGroup

/-! ### Reading -/

/-- A token that no part of a group before it takes. -/
def Token.delimits : Token → Bool
  | bang => true
  | selector _ => true
  | t => t.ends

theorem Token.delimits_of_ends {t : Token} (h : t.ends = true) : t.delimits = true := by
  cases t with
  | operator _ => rfl
  | closeGroup => rfl
  | finish => rfl
  | _ => cases h

section
variable {tokens rest : List Placed} {words : List Token}

/-- What comes after a part of a group is no number, comparison or sign of faces. -/
theorem peek_of_delimits (h : (peek rest).delimits = true) :
    (∀ n, peek rest ≠ .number n) ∧ (∀ c, peek rest ≠ .comparison c) ∧ peek rest ≠ .die ∧ peek rest ≠ .fudge ∧
      peek rest ≠ .percent ∧ peek rest ≠ .openFaces := by
  refine ⟨fun n heq => ?_, fun c heq => ?_, fun heq => ?_, fun heq => ?_, fun heq => ?_, fun heq => ?_⟩ <;>
    · rw [heq] at h
      cases h

theorem delimits_of_selection {selection : Option (Selector × Option Number)}
    (h : Starts tokens (optionalSelection selection) rest) (after : (peek rest).delimits = true) :
    (peek tokens).delimits = true := by
  cases selection with
  | none =>
    obtain rfl := h
    exact after
  | some selection =>
    obtain ⟨_, _, rfl, -⟩ := h
    rfl

theorem delimits_of_explosion {explosion : Option WrittenExplosion}
    (h : Starts tokens (optionalExplosion explosion) rest) (after : (peek rest).delimits = true) :
    (peek tokens).delimits = true := by
  cases explosion with
  | none =>
    obtain rfl := h
    exact after
  | some explosion => cases explosion <;> obtain ⟨_, _, rfl, -⟩ := h <;> rfl

theorem delimits_of_modifiers {g : WrittenGroup} (h : Starts tokens g.modifierWords rest)
    (after : (peek rest).delimits = true) : (peek tokens).delimits = true := by
  unfold WrittenGroup.modifierWords at h
  split at h
  · obtain ⟨middle, hexplosion, hselection⟩ := starts_append.mp h
    exact delimits_of_explosion hexplosion (delimits_of_selection hselection after)
  · obtain ⟨middle, hselection, hexplosion⟩ := starts_append.mp h
    exact delimits_of_selection hselection (delimits_of_explosion hexplosion after)

theorem readCount_of_starts {count : Option Number} (h : Starts tokens (optionalNumber count ++ .die :: words) rest) :
    ∃ offset after, readCount tokens = (checkedCount count).map (·, ⟨offset, .die⟩ :: after) ∧
      Starts after words rest := by
  cases count with
  | none =>
    obtain ⟨offset, after, rfl, h⟩ := h
    exact ⟨offset, after, rfl, h⟩
  | some n =>
    obtain ⟨_, _, rfl, offset, after, rfl, h⟩ := h
    refine ⟨offset, after, ?_, h⟩
    rw [readCount, checkedCount]
    split
    · rfl
    · split <;> rfl

theorem readDie_of_faces {faces : WrittenFaces} (h : Starts tokens faces.words rest)
    (after : (peek rest).delimits = true) : readDie tokens = faces.die.map (·, rest) := by
  cases faces with
  | omitted =>
    obtain rfl := h
    obtain ⟨number, -, -, fudge, percent, openFaces⟩ := peek_of_delimits after
    unfold readDie
    split
    · exact absurd rfl (number _)
    · exact absurd rfl fudge
    · exact absurd rfl percent
    · exact absurd rfl openFaces
    · rfl
  | list first others =>
    obtain ⟨_, _, rfl, h⟩ := h
    simp only [readDie, readFaces_of_starts (List.cons_ne_nil first others) h, WrittenFaces.die]
  | _ =>
    obtain ⟨_, _, rfl, rfl⟩ := h
    rfl

theorem readRank_of_starts {rank : Option Number} (h : Starts tokens (optionalNumber rank) rest)
    (after : (peek rest).delimits = true) : readRank tokens = (rank.elim 1 Fin.val, rest) := by
  obtain ⟨number, -, die, -⟩ := peek_of_delimits after
  cases rank with
  | none =>
    obtain rfl := h
    rw [readRank, looseNumber?_of_peek number]
    rfl
  | some n =>
    obtain ⟨_, _, rfl, rfl⟩ := h
    rw [readRank, looseNumber?_cons die]
    rfl

theorem readTrigger_of_explosion {explosion : WrittenExplosion} {offset : Nat}
    (h : Starts (⟨offset, .bang⟩ :: tokens) explosion.words rest) (after : (peek rest).delimits = true) :
    readTrigger tokens = .ok (explosion.trigger, rest) := by
  obtain ⟨number, comparison, die, -⟩ := peek_of_delimits after
  cases explosion with
  | bare => exact readTrigger_of_starts (t := ⟨.equals, none⟩) h (fun _ => rfl) number comparison
  | number n =>
    obtain ⟨_, _, heq, _, _, rfl, rfl⟩ := h
    cases heq
    simp only [readTrigger, looseNumber?_cons die]
    rfl
  | compared c threshold =>
    exact readTrigger_of_starts (t := ⟨c, some threshold⟩) h (fun none => by cases none) number comparison

/-! ### Modifiers in either order -/

theorem readModifiers_of_explosion {found : Modifiers} {explosion : Option WrittenExplosion}
    (h : Starts tokens (optionalExplosion explosion) rest) (after : (peek rest).delimits = true)
    (first : found.trigger = none) :
    readModifiers found tokens =
      readModifiers { found with trigger := explosion.map WrittenExplosion.trigger } rest := by
  cases explosion with
  | none =>
    obtain rfl := h
    rw [Option.map_none, ← first]
  | some explosion =>
    obtain ⟨offset, later, rfl⟩ : ∃ offset later, tokens = ⟨offset, .bang⟩ :: later := by
      cases explosion <;> obtain ⟨offset, later, rfl, -⟩ := h <;> exact ⟨offset, later, rfl⟩
    rw [readModifiers_bang, readTrigger_of_explosion h after, first]
    rfl

theorem readModifiers_of_selected {found : Modifiers} {selection : Option (Selector × Option Number)}
    (h : Starts tokens (optionalSelection selection) rest) (after : (peek rest).delimits = true)
    (first : found.selection = none) : readModifiers found tokens =
      readModifiers { found with selection := selection.map fun (selector, rank) => (selector, rank.elim 1 Fin.val) }
        rest := by
  cases selection with
  | none =>
    obtain rfl := h
    rw [Option.map_none, ← first]
  | some selection =>
    obtain ⟨_, _, rfl, h⟩ := h
    rw [readModifiers_selector, readRank_of_starts h after, first]
    rfl

/-- Whichever modifier is written first, both are found. -/
theorem readModifiers_of_written {g : WrittenGroup} (h : Starts tokens g.modifierWords rest)
    (ends : (peek rest).ends = true) : readModifiers {} tokens = .ok (g.modifiers, rest) := by
  have after := Token.delimits_of_ends ends
  unfold WrittenGroup.modifierWords at h
  split at h
  · obtain ⟨middle, hexplosion, hselection⟩ := starts_append.mp h
    rw [readModifiers_of_explosion hexplosion (delimits_of_selection hselection after) rfl,
      readModifiers_of_selected hselection after rfl, readModifiers_of_ends ends]
    rfl
  · obtain ⟨middle, hselection, hexplosion⟩ := starts_append.mp h
    rw [readModifiers_of_selected hselection (delimits_of_explosion hexplosion after) rfl,
      readModifiers_of_explosion hexplosion after rfl, readModifiers_of_ends ends]
    rfl

/-! ### The group -/

namespace WrittenGroup
variable {g : WrittenGroup} {settings : Settings}

theorem readPlain_of_written (h : Starts tokens g.words rest) (ends : (peek rest).ends = true) :
    readPlain settings tokens = (g.build settings).map (·, rest) := by
  obtain ⟨offset, later, counted, h⟩ := readCount_of_starts h
  obtain ⟨middle, hfaces, hmodifiers⟩ := starts_append.mp h
  have faced := readDie_of_faces hfaces (delimits_of_modifiers hmodifiers (Token.delimits_of_ends ends))
  have modified := readModifiers_of_written hmodifiers ends
  unfold readPlain build
  rw [counted]
  cases checkedCount g.count with
  | error e => rfl
  | ok count =>
    simp only [Except.map, faced]
    cases g.faces.die with
    | error e => rfl
    | ok die => simp only [modified]

/-- The words of a group are read as the node that it builds. -/
theorem ofTokens_of_written (h : tokens.map Placed.token = g.words ++ [.finish]) :
    Dice.ofTokens settings tokens = g.build settings := by
  obtain ⟨rest, hrest, starts⟩ := starts_of_map_token h
  obtain ⟨last, rfl⟩ : ∃ last, rest = [⟨last, .finish⟩] := by
    match rest, hrest with
    | [⟨last, _⟩], rfl => exact ⟨last, rfl⟩
  have opened : ((peek tokens).startsTerm = true ∧ looseNumber? tokens = none) ∧
      readGroup settings (expressions settings) tokens = readPlain settings tokens := by
    unfold words at starts
    cases hcount : g.count with
    | none =>
      rw [hcount] at starts
      obtain ⟨_, _, rfl, -⟩ := starts
      exact ⟨⟨rfl, rfl⟩, rfl⟩
    | some n =>
      rw [hcount] at starts
      obtain ⟨_, _, rfl, _, _, rfl, -⟩ := starts
      exact ⟨⟨rfl, rfl⟩, rfl⟩
  obtain ⟨⟨startsTerm, loose⟩, group⟩ := opened
  have run : (terms settings).run tokens = (g.build settings).map (·, [⟨last, .finish⟩]) := by
    simp only [terms, termOf, groupOf, group, readPlain_of_written starts rfl]
    cases g.build settings with
    | error e => rfl
    | ok d => exact readChain_of_none (Phrase.Closes.operatorAhead? (.inr rfl))
  exact ofTokens_of_terms (readsEmpty_of_opens startsTerm loose) run rfl

/-- A text that writes a group is parsed as the node that the group builds, if its numbers fit. -/
theorem parse_of_writes {text : String} (h : Writes text g.words) (fits : ∀ t ∈ g.words, t.Fits) :
    Dice.parse text settings = g.build settings := by
  obtain ⟨tokens, scanned, hwords⟩ := scan_of_writes h fits
  rw [Dice.parse, scanned]
  exact ofTokens_of_written hwords

end WrittenGroup

end

end DiceNotation
