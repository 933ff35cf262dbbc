import DiceNotation.Dice.Parse
import DiceNotation.Proofs.Notation.Phrase

/-! The grammar reads the words of a legible phrase as that phrase: it builds its node and stops right after
    it, whatever follows that can follow an expression. -/

namespace DiceNotation

/-- The tokens are these words and then the rest. -/
def Starts : List Placed → List Token → List Placed → Prop
  | tokens, [], rest => rest = tokens
  | tokens, t :: words, rest => ∃ offset after, tokens = ⟨offset, t⟩ :: after ∧ Starts after words rest

variable {tokens rest : List Placed}

theorem starts_append {words more : List Token} :
    Starts tokens (words ++ more) rest ↔ ∃ middle, Starts tokens words middle ∧ Starts middle more rest := by
  induction words generalizing tokens with
  | nil => exact ⟨fun h => ⟨tokens, rfl, h⟩, fun ⟨_, rfl, h⟩ => h⟩
  | cons t words ih =>
    constructor
    · rintro ⟨offset, after, rfl, h⟩
      obtain ⟨middle, hwords, hmore⟩ := ih.mp h
      exact ⟨middle, ⟨offset, after, rfl, hwords⟩, hmore⟩
    · rintro ⟨middle, ⟨offset, after, rfl, hwords⟩, hmore⟩
      exact ⟨offset, after, rfl, ih.mpr ⟨middle, hwords, hmore⟩⟩

theorem starts_of_map_token {words more : List Token} (h : tokens.map Placed.token = words ++ more) :
    ∃ rest, rest.map Placed.token = more ∧ Starts tokens words rest := by
  induction words generalizing tokens with
  | nil => exact ⟨tokens, h, rfl⟩
  | cons t words ih =>
    cases tokens with
    | nil => cases h
    | cons p tokens =>
      obtain ⟨rfl, htail⟩ := List.cons.inj h
      obtain ⟨rest, hrest, hstarts⟩ := ih htail
      exact ⟨rest, hrest, p.offset, tokens, rfl, hstarts⟩

/-- A token that can follow a group. -/
def Token.ends : Token → Bool
  | operator _ => true
  | closeGroup => true
  | finish => true
  | _ => false

/-! ### Numbers and dice -/

theorem readSigned_of_starts {n : Outcome} (h : Starts tokens n.words rest) : readSigned tokens = .ok (n, rest) := by
  unfold Outcome.words at h
  split at h
  · obtain ⟨_, _, rfl, _, _, rfl, rfl⟩ := h
    have hn : -(n.val.natAbs : Int) = n.val := by omega
    simp only [readSigned, hn, Outcome.ofInt_val]
  · obtain ⟨_, _, rfl, rfl⟩ := h
    have hn : (n.val.natAbs : Int) = n.val := by omega
    simp only [readSigned, hn, Outcome.ofInt_val]

theorem readFaces_of_starts {faces : List Outcome} (hne : faces ≠ [])
    (h : Starts tokens ([.comma].intercalate (faces.map Outcome.words) ++ [.closeFaces]) rest) :
    readFaces tokens = .ok (faces, rest) := by
  induction faces generalizing tokens with
  | nil => exact absurd rfl hne
  | cons n faces ih =>
    cases faces with
    | nil =>
      obtain ⟨_, hn, _, _, rfl, rfl⟩ := starts_append.mp (by simpa using h)
      have hread := readSigned_of_starts hn
      unfold readFaces
      split <;> simp_all
    | cons m faces =>
      rw [List.map_cons, List.map_cons, List.intercalate_cons_cons, List.append_assoc, List.append_assoc,
        starts_append] at h
      obtain ⟨_, hn, _, after, rfl, hmore⟩ := h
      have hread := readSigned_of_starts hn
      have later := ih (List.cons_ne_nil _ _) hmore
      unfold readFaces
      split <;> simp_all [Except.map]

theorem readDie_of_starts {d : Die} (h : Starts tokens d.words rest) : readDie tokens = .ok (d, rest) := by
  cases d with
  | standard sides enough =>
    obtain ⟨_, _, rfl, rfl⟩ := h
    simp [readDie, Die.ofSides, enough, Except.map]
  | fudge =>
    obtain ⟨_, _, rfl, rfl⟩ := h
    rfl
  | percentile =>
    obtain ⟨_, _, rfl, rfl⟩ := h
    rfl
  | custom faces enough =>
    obtain ⟨_, _, rfl, h⟩ := h
    have hread := readFaces_of_starts (by rintro rfl; cases enough) h
    simp [readDie, hread, Die.ofFaces, enough, Except.map]

/-! ### Modifiers -/

theorem looseNumber?_of_peek (h : ∀ n, peek tokens ≠ .number n) : looseNumber? tokens = none := by
  unfold looseNumber?
  split
  · rfl
  · exact absurd rfl (h _)
  · rfl

theorem readTrigger_of_starts {t : Trigger} {offset : Nat} {after : List Placed}
    (h : Starts (⟨offset, .bang⟩ :: after) t.words rest) (bare : t.threshold = none → t.comparison = .equals)
    (hnumber : ∀ n, peek rest ≠ .number n) (hcomparison : ∀ c, peek rest ≠ .comparison c) :
    readTrigger after = .ok (t, rest) := by
  obtain ⟨c, threshold⟩ := t
  obtain ⟨_, _, heq, h⟩ := h
  cases heq
  cases threshold with
  | none =>
    obtain rfl := h
    cases bare rfl
    unfold readTrigger
    split
    · exact absurd rfl (hcomparison _)
    · rw [looseNumber?_of_peek hnumber]
  | some n =>
    obtain ⟨_, _, rfl, h⟩ := h
    simp [readTrigger, readSigned_of_starts h, Except.map]

theorem readModifiers_of_ends (h : (peek rest).ends = true) (found : Modifiers) :
    readModifiers found rest = .ok (found, rest) := by
  unfold readModifiers
  split
  · cases h
  · cases h
  · rfl

section
variable {trigger : Option Trigger} {selection : Option (Selector × Nat)}

/-- A selection is read whatever explosion was found before it. -/
theorem readModifiers_of_selection (h : Starts tokens (selectionWords selection) rest)
    (hends : (peek rest).ends = true) : readModifiers { trigger } tokens = .ok ({ trigger, selection }, rest) := by
  cases selection with
  | none =>
    obtain rfl := h
    exact readModifiers_of_ends hends _
  | some selection =>
    obtain ⟨_, _, rfl, _, _, rfl, rfl⟩ := h
    have hdie : peek rest ≠ .die := fun hd => by rw [hd] at hends; cases hends
    rw [readModifiers_selector, if_neg (fun h => by cases h), readRank, looseNumber?_cons hdie]
    exact readModifiers_of_ends hends _

/-- What follows an explosion is not taken for its threshold. -/
theorem peek_of_selection (h : Starts tokens (selectionWords selection) rest) (hends : (peek rest).ends = true) :
    (∀ n, peek tokens ≠ .number n) ∧ ∀ c, peek tokens ≠ .comparison c := by
  cases selection with
  | none =>
    obtain rfl := h
    constructor
    · intro n hn
      rw [hn] at hends
      cases hends
    · intro c hc
      rw [hc] at hends
      cases hends
  | some selection =>
    obtain ⟨_, _, rfl, -⟩ := h
    exact ⟨fun _ hn => (by cases hn), fun _ hc => (by cases hc)⟩

end

theorem readModifiers_of_starts {m : Modifiers} (h : Starts tokens m.words rest)
    (bare : ∀ t ∈ m.trigger, t.threshold = none → t.comparison = .equals) (hends : (peek rest).ends = true) :
    readModifiers {} tokens = .ok (m, rest) := by
  obtain ⟨trigger, selection⟩ := m
  obtain ⟨middle, htrigger, hselection⟩ := starts_append.mp h
  cases trigger with
  | none =>
    obtain rfl := htrigger
    exact readModifiers_of_selection hselection hends
  | some t =>
    obtain ⟨offset, after, rfl, -⟩ := id htrigger
    obtain ⟨hnumber, hcomparison⟩ := peek_of_selection hselection hends
    rw [readModifiers_bang, readTrigger_of_starts htrigger (bare t rfl) hnumber hcomparison]
    exact readModifiers_of_selection hselection hends

/-! ### Groups -/

theorem readPlain_of_starts {g : PlainGroup} (settings : Settings) (legible : g.Legible)
    (h : Starts tokens g.words rest) (hends : (peek rest).ends = true) :
    readPlain settings tokens = (g.build settings).map (·, rest) := by
  -- From the letter of the die on, the group is read the same way with or without a count.
  have body : ∀ (offset : Nat) {after : List Placed},
      Starts after (g.die.words ++ g.modifiers.words) rest → readCount tokens = .ok (g.count, ⟨offset, .die⟩ :: after) →
      readPlain settings tokens = (buildGroup settings g.count g.die g.modifiers).map (·, rest) :=
    fun _ _ h counted => by
      obtain ⟨middle, hdie, hmodifiers⟩ := starts_append.mp h
      simp only [readPlain, counted, readDie_of_starts hdie,
        readModifiers_of_starts hmodifiers legible.2 hends]
  unfold PlainGroup.words at h
  unfold PlainGroup.build
  split at h
  · obtain ⟨_, _, rfl, offset, after, rfl, h⟩ := h
    by_cases large : maxDice < g.count
    · have counted : g.count ≠ 0 := by omega
      simp [readPlain, readCount, counted, large, Except.map]
    · rw [if_neg large]
      refine body offset h ?_
      have counted : g.count ≠ 0 := by omega
      simp [readCount, counted, large]
  · next hone =>
    obtain ⟨offset, after, rfl, h⟩ := h
    have hcount : g.count = 1 := by have := legible.1; omega
    rw [if_neg (by rw [hcount]; decide)]
    refine body offset h ?_
    rw [hcount]
    rfl

/-! ### Expressions of any depth -/

/-- Expressions with parentheses nested in any depth. -/
def expressions (settings : Settings) : Reader Dice where
  run tokens := (expression settings tokens.length).run tokens
  shorter h := (expression settings _).shorter h

def terms (settings : Settings) : Reader Dice := termOf settings (groupOf settings (expressions settings))

theorem expression_agreeUpTo_expressions (settings : Settings) (n : Nat) :
    Reader.AgreeUpTo n (expression settings n) (expressions settings) := fun tokens short =>
  expression_agreeUpTo settings n tokens.length tokens (by omega)

/-- Expressions are sums of terms, whose groups hold expressions again. -/
theorem expressions_run (settings : Settings) (tokens : List Placed) :
    (expressions settings).run tokens = (sumOf settings (terms settings)).run tokens := by
  have deeper : (expressions settings).run tokens = (expression settings (tokens.length + 1)).run tokens :=
    expression_agreeUpTo settings tokens.length (tokens.length + 1) tokens (by omega)
  rw [deeper]
  exact sumOf_agreeUpTo (termOf_agreeUpTo (groupOf_agreeUpTo
    (expression_agreeUpTo_expressions settings tokens.length))) tokens (Nat.le_succ _)

/-! ### Phrases -/

namespace Phrase
variable {p : Phrase} {settings : Settings}

/-- The first words of a term. -/
theorem Legible.starts (legible : p.Legible) (h : Starts tokens p.words rest) :
    ∃ offset after, tokens = ⟨offset, .die⟩ :: after ∨ tokens = ⟨offset, .openGroup⟩ :: after ∨
      ∃ n offset', tokens = ⟨offset', .number n⟩ :: ⟨offset, .die⟩ :: after := by
  induction legible generalizing rest with
  | @plain g _ =>
    unfold words PlainGroup.words at h
    split at h
    · obtain ⟨offset', _, rfl, offset, after, rfl, -⟩ := h
      exact ⟨offset, after, .inr (.inr ⟨_, _, rfl⟩)⟩
    · obtain ⟨offset, after, rfl, -⟩ := h
      exact ⟨offset, after, .inl rfl⟩
  | @chain inner operator operand _ _ ih =>
    unfold words at h
    obtain ⟨middle, h, -⟩ := starts_append.mp h
    split at h
    · obtain ⟨offset, after, rfl, -⟩ := h
      exact ⟨offset, after, .inr (.inl rfl)⟩
    · exact ih h
  | @sum terms two _ _ ih =>
    obtain ⟨p, q, terms, rfl⟩ := exists_cons_cons two
    rw [words, wordsAll, wordsAll, List.intercalate_cons_cons, List.append_assoc] at h
    obtain ⟨middle, h, -⟩ := starts_append.mp h
    exact ih p List.mem_cons_self h

/-- No plus or minus takes the first number of a term as its constant. -/
theorem Legible.looseNumber? (legible : p.Legible) (h : Starts tokens p.words rest) : looseNumber? tokens = none := by
  obtain ⟨offset, after, rfl | rfl | ⟨n, offset', rfl⟩⟩ := legible.starts h <;> rfl

/-- The end of an expression: a closing parenthesis or the end of the text. -/
def Closes (rest : List Placed) : Prop := peek rest = .closeGroup ∨ peek rest = .finish

theorem Closes.ends (h : Closes rest) : (peek rest).ends = true := by
  rcases h with h | h <;> rw [h] <;> rfl

theorem Closes.operatorAhead? (h : Closes rest) : operatorAhead? rest = none := by
  unfold DiceNotation.operatorAhead?
  split
  · rcases h with h | h <;> cases h
  · rcases h with h | h <;> cases h
  · rcases h with h | h <;> cases h
  · rfl

theorem Closes.nextTerm? (h : Closes rest) : nextTerm? rest = none := by
  unfold DiceNotation.nextTerm?
  split
  · rcases h with h | h <;> cases h
  · rcases h with h | h <;> rw [h] <;> rfl

theorem readTerms_of_closes (h : Closes rest) (term : Reader Dice) : readTerms term rest = .ok ([], rest) := by
  rw [readTerms_of_none h.nextTerm?, if_neg]
  rcases h with h | h <;> rw [h] <;> decide

/-- An operator and its constant are applied to the node before them. -/
theorem readChain_of_starts {operator : Operator} {operand : Outcome} (d : Dice)
    (unsigned : operator = .add ∨ operator = .subtract → 0 ≤ operand) (hends : (peek rest).ends = true)
    (h : Starts tokens (.operator operator :: operand.words) rest) :
    readChain settings d tokens =
      match d.apply operator operand settings.tracer with
      | .error e => .error e
      | .ok d => readChain settings d rest := by
  obtain ⟨offset, after, rfl, h⟩ := h
  have hsigned := readSigned_of_starts h
  have hahead : operatorAhead? (⟨offset, .operator operator⟩ :: after) = some (operator, after) := by
    refine operatorAhead?_eq_some_iff.mpr ⟨⟨_, rfl⟩, fun hsign => ?_⟩
    rw [Outcome.words, if_neg (show ¬operand.val < 0 from Int.not_lt.mpr (unsigned hsign))] at h
    obtain ⟨_, _, rfl, rfl⟩ := h
    rw [looseNumber?_cons fun hd => by rw [hd] at hends; cases hends]
    rfl
  have step := @readChain_of_some settings d _ after operator hahead
  rw [hsigned] at step
  exact step

/-- The words of a phrase are read as its node when they end an expression. -/
def ReadAsExpression (settings : Settings) (p : Phrase) : Prop :=
  ∀ ⦃tokens rest : List Placed⦄, Starts tokens p.words rest → Closes rest →
    (expressions settings).run tokens = (p.build settings).map (·, rest)

/-- The words of a phrase are read as its node, to which the operators after them are applied. -/
def ReadAsTerm (settings : Settings) (p : Phrase) : Prop :=
  ∀ ⦃tokens rest : List Placed⦄, Starts tokens p.words rest → (peek rest).ends = true →
    (terms settings).run tokens =
      match p.build settings with
      | .error e => .error e
      | .ok d => readChain settings d rest

theorem ReadAsTerm.run_of_none (term : ReadAsTerm settings p) (h : Starts tokens p.words rest)
    (hends : (peek rest).ends = true) (none : operatorAhead? rest = none) :
    (terms settings).run tokens = (p.build settings).map (·, rest) := by
  rw [term h hends]
  cases p.build settings with
  | error e => rfl
  | ok d => exact readChain_of_none none

theorem ReadAsTerm.expression (term : ReadAsTerm settings p) : ReadAsExpression settings p := by
  intro tokens rest h closes
  rw [expressions_run, sumOf]
  simp only [term.run_of_none h closes.ends closes.operatorAhead?]
  cases p.build settings with
  | error e => rfl
  | ok d =>
    simp only [Except.map, readTerms_of_closes closes]
    rfl

theorem readAsTerm_plain {g : PlainGroup} (legible : g.Legible) : ReadAsTerm settings (plain g) := by
  intro tokens rest h hends
  have hgroup : readGroup settings (expressions settings) tokens = readPlain settings tokens := by
    obtain ⟨offset, after, rfl | rfl | ⟨n, offset', rfl⟩⟩ := (Legible.plain legible).starts h
    · rfl
    · -- A plain group does not start with a parenthesis.
      unfold words PlainGroup.words at h
      split at h
      · obtain ⟨_, _, heq, -⟩ := h
        cases heq
      · obtain ⟨_, _, heq, -⟩ := h
        cases heq
    · rfl
  simp only [terms, termOf, groupOf, hgroup, readPlain_of_starts settings legible h hends, build]
  cases g.build settings with
  | error e => rfl
  | ok d => rfl

theorem readGroup_enclosed (legible : p.Legible) (expression : ReadAsExpression settings p)
    (h : Starts tokens (.openGroup :: p.words ++ [.closeGroup]) rest) :
    readGroup settings (expressions settings) tokens = (p.build settings).map (·, rest) := by
  obtain ⟨offset, inside, rfl, h⟩ := h
  obtain ⟨last, hwords, hclose⟩ := starts_append.mp h
  obtain ⟨_, _, rfl, rfl⟩ := hclose
  have hinside := expression hwords (.inl rfl)
  unfold readGroup
  split
  · next heq =>
    obtain ⟨_, _, hstart⟩ := legible.starts hwords
    cases heq
    rcases hstart with hstart | hstart | ⟨_, _, hstart⟩ <;> cases hstart
  · next heq =>
    cases heq
    rw [hinside]
    cases p.build settings with
    | error e => rfl
    | ok d => rfl
  · next heq => cases heq
  · next heq => cases heq
  · next hopen _ _ => exact absurd rfl (hopen _ _)

theorem readAsTerm_chain {inner : Phrase} {operator : Operator} {operand : Outcome} (legible : inner.Legible)
    (unsigned : operator = .add ∨ operator = .subtract → 0 ≤ operand) (expression : ReadAsExpression settings inner)
    (term : inner.isSum = false → ReadAsTerm settings inner) : ReadAsTerm settings (chain inner operator operand) := by
  intro tokens rest h hends
  unfold words at h
  obtain ⟨middle, hinner, hoperator⟩ := starts_append.mp h
  have hmiddle : (peek middle).ends = true := by
    obtain ⟨_, _, rfl, -⟩ := hoperator
    rfl
  have hread : (terms settings).run tokens =
      match inner.build settings with
      | .error e => .error e
      | .ok d => readChain settings d middle := by
    split at hinner
    · simp only [terms, termOf, groupOf, readGroup_enclosed legible expression hinner]
      cases inner.build settings with
      | error e => rfl
      | ok d => rfl
    · next hplus =>
      have hsum : inner.isSum = false := by
        cases inner with
        | sum _ => exact absurd rfl hplus
        | _ => rfl
      exact term hsum hinner hmiddle
  rw [hread, build]
  cases inner.build settings with
  | error e => rfl
  | ok d => exact readChain_of_starts d unsigned hends hoperator

/-- The words of further terms of a sum. -/
def moreWords (ps : List Phrase) : List Token := ps.flatMap fun p => .operator .add :: p.words

theorem words_sum (p : Phrase) (ps : List Phrase) : (sum (p :: ps)).words = p.words ++ moreWords ps := by
  rw [words, wordsAll_eq_map]
  induction ps generalizing p with
  | nil => simp [moreWords]
  | cons q ps ih =>
    rw [List.map_cons, List.map_cons, List.intercalate_cons_cons, ← List.map_cons, ih q]
    simp [moreWords]

/-- After a term, a plus goes on with the next term. -/
theorem ends_of_moreWords {ps : List Phrase} (h : Starts tokens (moreWords ps) rest)
    (legible : ∀ p ∈ ps, Legible p) (closes : Closes rest) :
    (peek tokens).ends = true ∧ operatorAhead? tokens = none := by
  cases ps with
  | nil =>
    obtain rfl := h
    exact ⟨closes.ends, closes.operatorAhead?⟩
  | cons p ps =>
    obtain ⟨offset, after, rfl, h⟩ := h
    obtain ⟨_, hp, -⟩ := starts_append.mp h
    have loose := (legible p List.mem_cons_self).looseNumber? hp
    exact ⟨rfl, by simp [DiceNotation.operatorAhead?, loose]⟩

theorem readTerms_of_starts {ps : List Phrase} (h : Starts tokens (moreWords ps) rest)
    (legible : ∀ p ∈ ps, Legible p) (term : ∀ p ∈ ps, ReadAsTerm settings p) (closes : Closes rest) :
    readTerms (terms settings) tokens = (buildAll settings ps).map (·, rest) := by
  induction ps generalizing tokens with
  | nil =>
    obtain rfl := h
    exact readTerms_of_closes closes _
  | cons p ps ih =>
    obtain ⟨offset, after, rfl, h⟩ := h
    obtain ⟨middle, hp, hmore⟩ := starts_append.mp h
    have legibleMore : ∀ q ∈ ps, Legible q := fun q hq => legible q (List.mem_cons_of_mem p hq)
    obtain ⟨hends, hnone⟩ := ends_of_moreWords hmore legibleMore closes
    rw [readTerms_of_some (show nextTerm? (⟨offset, .operator .add⟩ :: after) = some after from rfl),
      (term p List.mem_cons_self).run_of_none hp hends hnone, buildAll]
    cases p.build settings with
    | error e => rfl
    | ok d =>
      simp only [Except.map, ih hmore legibleMore fun q hq => term q (List.mem_cons_of_mem p hq)]
      cases buildAll settings ps <;> rfl

theorem readAsExpression_sum {p q : Phrase} {ps : List Phrase} (legible : ∀ r ∈ p :: q :: ps, Legible r)
    (term : ∀ r ∈ p :: q :: ps, ReadAsTerm settings r) : ReadAsExpression settings (sum (p :: q :: ps)) := by
  intro tokens rest h closes
  rw [words_sum] at h
  obtain ⟨middle, hp, hmore⟩ := starts_append.mp h
  have legibleMore : ∀ r ∈ q :: ps, Legible r := fun r hr => legible r (List.mem_cons_of_mem p hr)
  obtain ⟨hends, hnone⟩ := ends_of_moreWords hmore legibleMore closes
  have hfirst := (term p List.mem_cons_self).run_of_none hp hends hnone
  have hothers := readTerms_of_starts hmore legibleMore (fun r hr => term r (List.mem_cons_of_mem p hr)) closes
  rw [expressions_run, sumOf]
  simp only [hfirst]
  rw [build, buildAll]
  cases p.build settings with
  | error e => rfl
  | ok d =>
    simp only [Except.map, hothers, buildAll]
    cases q.build settings with
    | error e => rfl
    | ok e => cases buildAll settings ps <;> rfl

/-- Legible phrases are read back. -/
theorem Legible.read (legible : p.Legible) :
    ReadAsExpression settings p ∧ (p.isSum = false → ReadAsTerm settings p) := by
  induction legible with
  | plain legible =>
    have term : ReadAsTerm settings _ := readAsTerm_plain legible
    exact ⟨term.expression, fun _ => term⟩
  | chain legible unsigned ih =>
    have term : ReadAsTerm settings _ := readAsTerm_chain legible unsigned ih.1 ih.2
    exact ⟨term.expression, fun _ => term⟩
  | @sum ps two legible flat ih =>
    obtain ⟨p, q, ps, rfl⟩ := exists_cons_cons two
    exact ⟨readAsExpression_sum legible fun r hr => (ih r hr).2 (flat r hr), fun h => (by cases h)⟩

/-! ### Parsing -/

/-- Scanned words of a phrase are read as the node that it builds. -/
theorem Legible.ofTokens (legible : p.Legible) (h : tokens.map Placed.token = p.words ++ [.finish]) :
    Dice.ofTokens settings tokens = p.build settings := by
  obtain ⟨rest, hrest, hstarts⟩ := starts_of_map_token h
  obtain ⟨offset, rfl⟩ : ∃ offset, rest = [⟨offset, .finish⟩] := by
    match rest, hrest with
    | [⟨offset, _⟩], rfl => exact ⟨offset, rfl⟩
  have hempty : Dice.readsEmpty tokens = false := by
    obtain ⟨_, _, rfl | rfl | ⟨_, _, rfl⟩⟩ := legible.starts hstarts
    · rfl
    · rfl
    · unfold Dice.readsEmpty
      split
      · next heq => cases heq
      · rfl
  have hrun : (expression settings tokens.length).run tokens = (p.build settings).map (·, [⟨offset, .finish⟩]) :=
    legible.read.1 hstarts (.inr rfl)
  rw [Dice.ofTokens, hempty, hrun]
  cases p.build settings with
  | error e => rfl
  | ok d => rfl

/-- A written phrase is parsed as the node that it builds, if its numbers fit. -/
theorem Legible.parse_iff (legible : p.Legible) {d : Dice} :
    Dice.parse (String.ofList (spelled p.words)) settings = .ok d ↔
      (∀ t ∈ p.words, t.Fits) ∧ p.build settings = .ok d := by
  unfold Dice.parse
  constructor
  · intro h
    split at h
    · cases h
    · next tokens scanned =>
      have hwords := token_of_scan legible.spaced scanned
      refine ⟨fun t ht => ?_, (legible.ofTokens hwords).symm.trans h⟩
      have hmem : t ∈ tokens.map Placed.token := by
        rw [hwords]
        exact List.mem_append_left _ ht
      obtain ⟨placed, hplaced, rfl⟩ := List.mem_map.mp hmem
      exact fits_of_scan scanned placed hplaced
  · rintro ⟨fits, built⟩
    obtain ⟨tokens, scanned⟩ := exists_scan legible.spaced fits
    rw [scanned]
    exact (legible.ofTokens (token_of_scan legible.spaced scanned)).trans built

end Phrase

end DiceNotation
