import DiceNotation.Grammar.Group
import DiceNotation.Proofs.Notation.Lexeme

/-! Phrases: notations as syntax. A phrase is a plain group, a phrase with an operator and a constant, or a sum
    of phrases. Its words are the tokens that it is written with; a phrase with a plus outside of parentheses
    is put in parentheses before an operator. To build a phrase is to do what the grammar does when it reads
    these words. -/

namespace DiceNotation

theorem exists_cons_cons {ps : List α} (h : 2 ≤ ps.length) : ∃ p q qs, ps = p :: q :: qs := by
  obtain ⟨p, ps, rfl⟩ := List.exists_cons_of_length_pos (show 0 < ps.length by omega)
  obtain ⟨q, ps, rfl⟩ := List.exists_cons_of_length_pos (show 0 < ps.length by rw [List.length_cons] at h; omega)
  exact ⟨p, q, ps, rfl⟩

theorem flatMap_intercalate (f : α → List β) (sep : List α) (parts : List (List α)) :
    (sep.intercalate parts).flatMap f = (sep.flatMap f).intercalate (parts.map (·.flatMap f)) := by
  induction parts with
  | nil => rfl
  | cons a parts ih =>
    cases parts with
    | nil => simp
    | cons b parts =>
      rw [List.intercalate_cons_cons, List.flatMap_append, List.flatMap_append, ih]
      simp only [List.map_cons, List.intercalate_cons_cons]

theorem forall_mem_intercalate {P : α → Prop} {sep : List α} {parts : List (List α)} (hsep : ∀ a ∈ sep, P a)
    (h : ∀ part ∈ parts, ∀ a ∈ part, P a) : ∀ a ∈ sep.intercalate parts, P a := by
  induction parts with
  | nil => exact List.forall_mem_nil _
  | cons part parts ih =>
    obtain ⟨hpart, hparts⟩ := List.forall_mem_cons.mp h
    cases parts with
    | nil => simpa using hpart
    | cons next parts =>
      rw [List.intercalate_cons_cons, List.append_assoc]
      exact List.forall_mem_append.mpr ⟨hpart, List.forall_mem_append.mpr ⟨hsep, ih hparts⟩⟩

/-! ### Words -/

/-- A minus sign if the number is negative, and its size. -/
def Outcome.words (n : Outcome) : List Token :=
  if n.val < 0 then [.operator .subtract, .number n.val.natAbs] else [.number n.val.natAbs]

/-- The words after the letter of a die. -/
def Die.words : Die → List Token
  | .standard sides _ => [.number sides]
  | .fudge => [.fudge]
  | .percentile => [.percent]
  | .custom faces _ => .openFaces :: [.comma].intercalate (faces.map Outcome.words) ++ [.closeFaces]

def Trigger.words (t : Trigger) : List Token :=
  .bang :: match t.threshold with
    | none => []
    | some threshold => .comparison t.comparison :: threshold.words

def selectionWords : Option (Selector × Nat) → List Token
  | none => []
  | some (selector, k) => [.selector selector, .number k]

/-- The explosion is written before the selection. -/
def Modifiers.words (m : Modifiers) : List Token :=
  (m.trigger.map Trigger.words).getD [] ++ selectionWords m.selection

/-- Equal dice with modifiers. -/
structure PlainGroup where
  count : Nat
  die : Die
  modifiers : Modifiers := {}
deriving DecidableEq

/-- A count of one is not written. -/
def PlainGroup.words (g : PlainGroup) : List Token :=
  (if 1 < g.count then [.number g.count] else []) ++ .die :: (g.die.words ++ g.modifiers.words)

inductive Phrase
  | plain (group : PlainGroup)
  | chain (inner : Phrase) (operator : Operator) (operand : Outcome)
  | sum (terms : List Phrase)

namespace Phrase

def isSum : Phrase → Bool
  | sum _ => true
  | _ => false

/-- A plus is written outside of parentheses. -/
def hasPlus : Phrase → Bool
  | plain _ => false
  | chain _ operator _ => operator == .add
  | sum _ => true

mutual
def words : Phrase → List Token
  | plain g => g.words
  | chain inner operator operand =>
    (if inner.hasPlus then .openGroup :: words inner ++ [.closeGroup] else words inner) ++
      .operator operator :: operand.words
  | sum terms => [.operator .add].intercalate (wordsAll terms)

def wordsAll : List Phrase → List (List Token)
  | [] => []
  | p :: ps => words p :: wordsAll ps
end

theorem wordsAll_eq_map (terms : List Phrase) : wordsAll terms = terms.map words := by
  induction terms with
  | nil => rfl
  | cons p ps ih => rw [wordsAll, ih, List.map_cons]

end Phrase

/-! ### Building -/

/-- The node of a group that is not too large. -/
def PlainGroup.build (settings : Settings) (g : PlainGroup) : Except Error Dice :=
  if maxDice < g.count then .error (.illegal (.tooManyDice g.count maxDice))
  else buildGroup settings g.count g.die g.modifiers

/-- Only the highest face goes without its comparison. -/
def PlainGroup.Legible (g : PlainGroup) : Prop :=
  1 ≤ g.count ∧ ∀ t ∈ g.modifiers.trigger, t.threshold = none → t.comparison = .equals

namespace Phrase

mutual
/-- The node of a phrase, or the first error from the left. -/
def build (settings : Settings) : Phrase → Except Error Dice
  | plain g => g.build settings
  | chain inner operator operand =>
    match build settings inner with
    | .error e => .error e
    | .ok d => d.apply operator operand settings.tracer
  | sum terms => (buildAll settings terms).map fun items => .pool items settings.tracer

def buildAll (settings : Settings) : List Phrase → Except Error (List Dice)
  | [] => .ok []
  | p :: ps =>
    match build settings p with
    | .error e => .error e
    | .ok d => (buildAll settings ps).map (d :: ·)
end

/-- A phrase is legible if its words can be told apart: its groups are, no sign stands between a plus or minus
    and its constant, and the terms of a sum, at least two, are no sums. -/
inductive Legible : Phrase → Prop
  | plain {g : PlainGroup} (group : g.Legible) : Legible (.plain g)
  | chain {inner : Phrase} {operator : Operator} {operand : Outcome} (inside : Legible inner)
      (unsigned : operator = .add ∨ operator = .subtract → 0 ≤ operand) : Legible (.chain inner operator operand)
  | sum {terms : List Phrase} (two : 2 ≤ terms.length) (each : ∀ p ∈ terms, Legible p)
      (flat : ∀ p ∈ terms, p.isSum = false) : Legible (.sum terms)

end Phrase

/-! ### Spacing -/

section
variable {t : Token}

theorem spaced_outcome (n : Outcome) : Spaced n.words := by
  unfold Outcome.words
  split
  · exact .cons rfl (.number _)
  · exact .number _

theorem spaced_intercalate (ht : t.separates = true) {parts : List (List Token)}
    (h : ∀ words ∈ parts, Spaced words) : Spaced ([t].intercalate parts) := by
  induction parts with
  | nil => exact trivial
  | cons words parts ih =>
    have later := ih fun more hmore => h more (List.mem_cons_of_mem words hmore)
    cases parts with
    | nil => simpa using h words List.mem_cons_self
    | cons more parts =>
      rw [List.intercalate_cons_cons, List.append_assoc]
      exact .append ht (h words List.mem_cons_self) (.cons ht later)

theorem spaced_die (d : Die) : Spaced d.words := by
  cases d with
  | standard sides _ => exact .number sides
  | fudge => exact .cons rfl trivial
  | percentile => exact .cons rfl trivial
  | custom faces _ =>
    have listed : Spaced ([.comma].intercalate (faces.map Outcome.words)) :=
      spaced_intercalate (t := .comma) rfl (List.forall_mem_map.mpr fun n _ => spaced_outcome n)
    exact .cons rfl (.append rfl listed (.cons rfl trivial))

theorem spaced_trigger (t : Trigger) : Spaced t.words := by
  obtain ⟨c, threshold⟩ := t
  cases threshold with
  | none => exact .cons rfl trivial
  | some n => exact .cons rfl (.cons rfl (spaced_outcome n))

theorem spaced_modifiers (m : Modifiers) {words : List Token} (h : Spaced words) : Spaced (words ++ m.words) := by
  obtain ⟨trigger, selection⟩ := m
  have selected : ∀ {words : List Token}, Spaced words → Spaced (words ++ selectionWords selection) := fun h => by
    cases selection with
    | none => simpa [selectionWords] using h
    | some selection => exact .append rfl h (.cons rfl (.number _))
  cases trigger with
  | none => exact selected h
  | some t =>
    have ht := spaced_trigger t
    rw [Modifiers.words, ← List.append_assoc]
    exact selected (.append rfl h ht)

theorem spaced_group (g : PlainGroup) : Spaced g.words := by
  have body : Spaced (.die :: (g.die.words ++ g.modifiers.words)) :=
    .cons rfl (spaced_modifiers g.modifiers (spaced_die g.die))
  unfold PlainGroup.words
  split
  · exact .append rfl (.number _) body
  · exact body

theorem Phrase.Legible.spaced {p : Phrase} (h : p.Legible) : Spaced p.words := by
  induction h with
  | @plain g _ => exact spaced_group g
  | @chain inner operator operand _ _ ih =>
    unfold Phrase.words
    refine .append rfl ?_ (.cons rfl (spaced_outcome operand))
    split
    · exact .cons rfl (.append rfl ih (.cons rfl trivial))
    · exact ih
  | @sum terms _ _ _ ih =>
    unfold Phrase.words
    rw [Phrase.wordsAll_eq_map]
    exact spaced_intercalate (t := .operator .add) rfl (List.forall_mem_map.mpr ih)

end

end DiceNotation
