import DiceNotation.Proofs.Draws.Parsed
import DiceNotation.Proofs.Notation.Grouping
import DiceNotation.Proofs.Notation.Wrapping

/-! Brackets in written trees. Read from left to right, the text of a tree keeps a stack of open brackets: each one that
    closes closes the innermost, and none is left open. The depth that is read off the text is the height of the stack,
    so it never stops at zero where a bracket closes, and a text in parentheses has no plus outside of its brackets. -/

namespace DiceNotation

namespace Wrap

/-! ### Nested brackets -/

/-- The bracket that closes an opening one. -/
def closer (c : Char) : Char := if c = '[' then ']' else ')'

/-- The open brackets after a character, innermost first. A bracket that closes another one than the innermost is out
    of place. -/
def nest? (stack : List Char) (c : Char) : Option (List Char) :=
  if opens c then some (c :: stack)
  else if closes c then
    match stack with
    | [] => none
    | o :: outer => if closer o = c then some outer else none
  else some stack

/-- The open brackets after a text; none if one of its brackets is out of place. -/
def unclosed (stack text : List Char) : Option (List Char) := text.foldlM nest? stack

/-- No bracket of the text is out of place, and none is left open. -/
def Nested (text : List Char) : Prop := unclosed [] text = some []

instance (text : List Char) : Decidable (Nested text) := inferInstanceAs (Decidable (unclosed [] text = some []))

/-- Every plus of the text stands where a bracket is open. -/
def Sheltered (text : List Char) : Prop :=
  ∀ before after, text = before ++ '+' :: after → ∃ o outer, unclosed [] before = some (o :: outer)

variable {a b text stack rest : List Char} {c o k : Char}

theorem nest?_cases (h : nest? stack c = some rest) :
    (opens c = true ∧ rest = c :: stack) ∨
      (opens c = false ∧ closes c = true ∧ ∃ o, closer o = c ∧ stack = o :: rest) ∨
      (opens c = false ∧ closes c = false ∧ rest = stack) := by
  unfold nest? at h
  split at h
  · next ho =>
    cases h
    exact .inl ⟨ho, rfl⟩
  · next ho =>
    refine .inr ?_
    rw [Bool.not_eq_true] at ho
    split at h
    · next hc =>
      cases stack with
      | nil => cases h
      | cons o outer =>
        obtain ⟨closed, hrest⟩ := Option.ite_none_right_eq_some.mp h
        cases hrest
        exact .inl ⟨ho, hc, o, closed, rfl⟩
    · next hc =>
      cases h
      exact .inr ⟨ho, Bool.not_eq_true _ ▸ hc, rfl⟩

theorem unclosed_cons_eq_some : unclosed stack (c :: text) = some rest ↔
    ∃ inner, nest? stack c = some inner ∧ unclosed inner text = some rest := by
  rw [unclosed, List.foldlM_cons]
  exact Option.bind_eq_some_iff

theorem unclosed_append_eq_some : unclosed stack (a ++ b) = some rest ↔
    ∃ inner, unclosed stack a = some inner ∧ unclosed inner b = some rest := by
  rw [unclosed, List.foldlM_append]
  exact Option.bind_eq_some_iff

theorem closes_of_opens (h : opens c = true) : closes c = false := by
  rcases Bool.or_eq_true_iff.mp h with h | h <;> rw [eq_of_beq h] <;> rfl

theorem nest?_of_opens (h : opens c = true) : nest? stack c = some (c :: stack) := if_pos h

theorem nest?_of_plain (ho : opens c = false) (hc : closes c = false) : nest? stack c = some stack := by
  simp [nest?, ho, hc]

theorem nest?_closer (o : Char) : nest? (o :: stack) (closer o) = some stack := by
  have closing : opens (closer o) = false ∧ closes (closer o) = true := by
    unfold closer
    split <;> decide
  simp [nest?, closing]

/-- More brackets around a text stay open. -/
theorem unclosed_inside (h : unclosed stack text = some rest) (outer : List Char) :
    unclosed (stack ++ outer) text = some (rest ++ outer) := by
  induction text generalizing stack with
  | nil =>
    cases h
    rfl
  | cons c text ih =>
    obtain ⟨inner, first, later⟩ := unclosed_cons_eq_some.mp h
    refine unclosed_cons_eq_some.mpr ⟨inner ++ outer, ?_, ih later⟩
    rcases nest?_cases first with ⟨ho, rfl⟩ | ⟨-, -, o, rfl, rfl⟩ | ⟨ho, hc, rfl⟩
    · exact nest?_of_opens ho
    · exact nest?_closer o
    · exact nest?_of_plain ho hc

theorem Nested.unclosed (h : Nested text) (stack : List Char) : unclosed stack text = some stack :=
  unclosed_inside h stack

theorem nested_nil : Nested [] := rfl

theorem Nested.append (ha : Nested a) (hb : Nested b) : Nested (a ++ b) :=
  unclosed_append_eq_some.mpr ⟨[], ha, hb⟩

theorem nested_bracket (ho : opens o = true) (ha : Nested a) : Nested (o :: a ++ [closer o]) := by
  refine unclosed_cons_eq_some.mpr ⟨[o], nest?_of_opens ho, unclosed_append_eq_some.mpr ⟨[o], ha.unclosed [o], ?_⟩⟩
  exact unclosed_cons_eq_some.mpr ⟨[], nest?_closer o, rfl⟩

/-- Text without brackets is nested. -/
theorem nested_of_plain (h : ∀ c ∈ text, opens c = false ∧ closes c = false) : Nested text := by
  induction text with
  | nil => exact nested_nil
  | cons c text ih =>
    obtain ⟨⟨ho, hc⟩, later⟩ := List.forall_mem_cons.mp h
    exact unclosed_cons_eq_some.mpr ⟨[], nest?_of_plain ho hc, ih later⟩

theorem nested_intercalate {sep : List Char} (hsep : Nested sep) {parts : List (List Char)}
    (h : ∀ text ∈ parts, Nested text) : Nested (sep.intercalate parts) := by
  induction parts with
  | nil => exact nested_nil
  | cons text parts ih =>
    obtain ⟨first, later⟩ := List.forall_mem_cons.mp h
    cases parts with
    | nil => simpa using first
    | cons more parts =>
      rw [List.intercalate_cons_cons]
      exact (first.append hsep).append (ih later)

/-! ### Depth -/

/-- The depth counts the open brackets. -/
theorem depthAfter_eq_length (h : Wrap.unclosed stack text = some rest) :
    depthAfter stack.length text = rest.length := by
  induction text generalizing stack with
  | nil =>
    cases h
    rfl
  | cons c text ih =>
    obtain ⟨inner, first, later⟩ := unclosed_cons_eq_some.mp h
    rw [depthAfter, List.foldl_cons, ← depthAfter, ← ih later]
    congr 1
    rcases nest?_cases first with ⟨ho, rfl⟩ | ⟨ho, hc, o, -, rfl⟩ | ⟨ho, hc, rfl⟩
    · simp [step, ho]
    · simp [step, ho, hc]
    · simp [step, ho, hc]

theorem depthAfter_eq_add (h : unclosed [] a = some rest) (depth : Nat) : depthAfter depth a = rest.length + depth := by
  simpa using depthAfter_eq_length (unclosed_inside h (List.replicate depth '('))

theorem countP_eq (h : unclosed stack text = some rest) :
    stack.length + text.countP opens = rest.length + text.countP closes := by
  induction text generalizing stack with
  | nil =>
    cases h
    rfl
  | cons c text ih =>
    obtain ⟨inner, first, later⟩ := unclosed_cons_eq_some.mp h
    have counted := ih later
    rcases nest?_cases first with ⟨ho, rfl⟩ | ⟨ho, hc, o, -, rfl⟩ | ⟨ho, hc, rfl⟩
    · rw [List.countP_cons_of_pos ho, List.countP_cons_of_neg (Bool.eq_false_iff.mp (closes_of_opens ho))]
      rw [List.length_cons] at counted
      omega
    · rw [List.countP_cons_of_neg (Bool.eq_false_iff.mp ho), List.countP_cons_of_pos hc, List.length_cons]
      omega
    · rw [List.countP_cons_of_neg (Bool.eq_false_iff.mp ho), List.countP_cons_of_neg (Bool.eq_false_iff.mp hc)]
      exact counted

/-- Up to any place of a nested text at least as many brackets open as close. -/
theorem Nested.countP_closes_le (h : Nested (a ++ b)) : a.countP closes ≤ a.countP opens := by
  obtain ⟨left, before, -⟩ := unclosed_append_eq_some.mp h
  have counted := countP_eq before
  rw [List.length_nil] at counted
  omega

theorem plusAt_eq_true_iff {depth : Nat} :
    plusAt depth text = true ↔ ∃ before after, text = before ++ '+' :: after ∧ depthAfter depth before = 0 := by
  induction text generalizing depth with
  | nil => simp [plusAt]
  | cons c text ih =>
    rw [plusAt, Bool.or_eq_true, Bool.and_eq_true, beq_iff_eq, beq_iff_eq, ih]
    constructor
    · rintro (⟨rfl, rfl⟩ | ⟨before, after, rfl, flat⟩)
      · exact ⟨[], text, rfl, rfl⟩
      · exact ⟨c :: before, after, rfl, flat⟩
    · rintro ⟨before, after, split, flat⟩
      cases before with
      | nil =>
        cases split
        exact .inl ⟨rfl, flat⟩
      | cons d before =>
        cases split
        exact .inr ⟨before, after, rfl, flat⟩

theorem Nested.balanced (h : Nested text) : Balanced text := by
  intro depth
  refine ⟨by simpa using depthAfter_eq_add h depth, Bool.eq_false_iff.mpr fun plus => ?_⟩
  obtain ⟨before, after, rfl, flat⟩ := plusAt_eq_true_iff.mp plus
  obtain ⟨left, hleft, -⟩ := unclosed_append_eq_some.mp h
  rw [depthAfter_eq_add hleft] at flat
  omega

/-- Every plus of a nested text is sheltered if the text needs no parentheses. -/
theorem Nested.sheltered (h : Nested text) (quiet : hasPlus text = false) : Sheltered text := by
  intro before after split
  subst split
  obtain ⟨left, hleft, -⟩ := unclosed_append_eq_some.mp h
  cases left with
  | nil =>
    -- With no bracket open the plus is one that the text needs parentheses for.
    have plus : hasPlus (before ++ '+' :: after) = true :=
      plusAt_eq_true_iff.mpr ⟨before, after, rfl, depthAfter_eq_add hleft 0⟩
    rw [quiet] at plus
    cases plus
  | cons o outer => exact ⟨o, outer, hleft⟩

theorem Nested.wrap (h : Nested text) : Nested (wrap text) := by
  unfold Wrap.wrap
  split
  · exact nested_bracket (o := '(') rfl h
  · exact h

theorem Nested.hasPlus_wrap (h : Nested text) : hasPlus (Wrap.wrap text) = false := by
  cases plus : hasPlus text with
  | false => rwa [wrap_of_not_hasPlus plus]
  | true => rw [wrap_of_hasPlus plus, hasPlus_bracket ')' rfl h.balanced]

end Wrap

open Wrap

/-! ### Parts of a text -/

theorem Numeral.nested_ofNat (n : Nat) : Nested (ofNat n) :=
  nested_of_plain fun _ hc => plain_of_isDigit (isDigit_of_mem_ofNat hc)

theorem Outcome.nested_chars (a : Outcome) : Nested a.chars := by
  unfold chars Numeral.ofInt
  split
  · exact .append (show Nested ['-'] from rfl) (Numeral.nested_ofNat _)
  · exact Numeral.nested_ofNat _

theorem Die.nested_chars (d : Die) : Nested d.chars := by
  have letter : Nested ['D'] := rfl
  cases d with
  | standard sides _ => exact letter.append (Numeral.nested_ofNat sides)
  | fudge => rfl
  | percentile => rfl
  | custom faces _ =>
    have listed : Nested ([','].intercalate (faces.map Outcome.chars)) :=
      nested_intercalate (show Nested [','] from rfl) (List.forall_mem_map.mpr fun a _ => a.nested_chars)
    exact letter.append (nested_bracket (o := '[') rfl listed)

theorem Selector.nested_tag (s : Selector) : Nested s.tag := by cases s <;> rfl

theorem Comparison.nested_suffix (c : Comparison) (threshold highest : Outcome) :
    Nested (c.suffix threshold highest) := by
  unfold suffix
  split
  · rfl
  · have sign : Nested ['!', c.symbol] := by cases c <;> rfl
    exact sign.append threshold.nested_chars

theorem Operator.nested_symbol (operator : Operator) : Nested [operator.symbol] := by cases operator <;> rfl

theorem Group.nested_join {groups : List Group} (h : ∀ g ∈ groups, Nested g.item) : Nested (join groups) := by
  unfold join
  split
  · rfl
  · refine nested_intercalate (show Nested ['+'] from rfl) (List.forall_mem_map.mpr fun g hg => ?_)
    rw [chars_eq]
    refine .append ?_ (h g hg)
    split
    · exact Numeral.nested_ofNat g.count
    · exact nested_nil

/-- The text of a group is that of an item. -/
theorem Group.item_mem {items : List (List Char × Bool)} {g : Group} (h : g ∈ ofItems items) :
    g.item ∈ items.map Prod.fst := by
  have collects := ofItems_collects items
  refine collects.expanded.mem_iff.mp (List.mem_flatMap.mpr ⟨g, h, List.mem_replicate.mpr ⟨?_, rfl⟩⟩)
  have := collects.nonempty g h
  omega

namespace Spelling

/-- Both parts of the spelling are nested. -/
structure Nested (s : Spelling) : Prop where
  stem : Wrap.Nested s.stem
  tag : Wrap.Nested (s.tag.getD [])

theorem Nested.withSuffix {s : Spelling} (h : s.Nested) {suffix : List Char} (hsuffix : Wrap.Nested suffix) :
    Wrap.Nested (s.withSuffix suffix) :=
  (h.stem.wrap.append hsuffix).append h.tag

theorem Nested.chars {s : Spelling} (h : s.Nested) : Wrap.Nested s.chars := by
  unfold Spelling.chars
  split
  · exact h.stem
  · exact h.withSuffix nested_nil

end Spelling

namespace Dice
variable {d : Dice} {items : List Dice}

/-! ### Trees -/

theorem nested_sum (h : ∀ d ∈ items, Nested d.chars) : Nested (Group.join (Group.ofItems (spelledItems items))) := by
  refine Group.nested_join fun g hg => ?_
  have item := Group.item_mem hg
  rw [spelledItems_eq_map, List.map_map] at item
  obtain ⟨d, hd, heq⟩ := List.mem_map.mp item
  rw [← heq]
  exact h d hd

/-- The trees below a node of dice alone are of dice alone. -/
theorem own_of_children {d e : Dice} (own : ∀ leaf, .foreign leaf ∉ d.nodes) (he : e ∈ d.children) :
    ∀ leaf, .foreign leaf ∉ e.nodes :=
  fun leaf below => own leaf (nodes_of_children he below)

/-- Every text that a tree without foreign leaves is written with is nested. -/
theorem nested_spelling (own : ∀ leaf, .foreign leaf ∉ d.nodes) : d.spelling.Nested := by
  induction d using tree_induction with
  | die d => exact ⟨d.nested_chars, nested_nil⟩
  | foreign leaf => exact absurd (mem_nodes_self _) (own leaf)
  | pool items tracer ih =>
    exact ⟨nested_sum fun d hd => (ih d hd (own_of_children own hd)).chars, nested_nil⟩
  | selection items poolTracer selector count tracer ih =>
    exact ⟨nested_sum fun d hd => (ih d hd (own_of_children own hd)).chars,
      selector.nested_tag.append (Numeral.nested_ofNat count)⟩
  | explosion inner comparison threshold limit tracer ih =>
    have inside := ih (own_of_children own (List.mem_singleton_self inner))
    exact ⟨inside.withSuffix (comparison.nested_suffix threshold inner.highestFace), nested_nil⟩
  | arithmetic inner operator operand tracer ih =>
    have inside := ih (own_of_children own (List.mem_singleton_self inner))
    exact ⟨inside.chars.wrap.append (operator.nested_symbol.append operand.nested_chars), nested_nil⟩

theorem own_of_parse {text : String} {settings : Settings} (h : parse text settings = .ok d) :
    ∀ leaf, .foreign leaf ∉ d.nodes := by
  intro leaf below
  have built : Built (fun _ => False) d := built_of_parse h
  cases built.of_mem_nodes _ below with
  | foreign holds => exact holds
  | select _ selected =>
    obtain ⟨-, made⟩ := Pool.select_eq_ok_iff.mp selected
    cases made
  | explode _ exploded =>
    obtain ⟨-, made⟩ := explode_eq_ok_iff.mp exploded
    cases made
  | apply _ applied =>
    obtain ⟨-, made⟩ := apply_eq_ok_iff.mp applied
    cases made

/-! ### Suffixes -/

/-- The tree that a node is written after, and the suffix that it is written with. An explosion of a selection is
    written after the dice of the selection, whose tag then ends the suffix. -/
def attached? : Dice → Option (Dice × List Char)
  | selection items poolTracer selector count _ =>
    some (.pool items poolTracer, selector.tag ++ Numeral.ofNat count)
  | explosion (.selection items poolTracer selector count tracer) comparison threshold _ _ =>
    some (.pool items poolTracer,
      comparison.suffix threshold (selection items poolTracer selector count tracer).highestFace ++
        (selector.tag ++ Numeral.ofNat count))
  | explosion inner comparison threshold _ _ => some (inner, comparison.suffix threshold inner.highestFace)
  | arithmetic inner operator operand _ => some (inner, operator.symbol :: operand.chars)
  | _ => none

variable {operand : Dice} {suffix : List Char}

/-- A suffix stands right after the text of its operand, in parentheses if that has a plus outside of its brackets. -/
theorem chars_of_attached? (h : d.attached? = some (operand, suffix)) :
    d.chars = wrap operand.chars ++ suffix := by
  cases d with
  | die => cases h
  | foreign => cases h
  | pool => cases h
  | selection items poolTracer selector count tracer =>
    cases h
    simp [chars, spelling, Spelling.chars, Spelling.withSuffix]
  | arithmetic =>
    cases h
    rfl
  | explosion inner comparison threshold limit tracer =>
    cases inner <;> cases h <;> simp [chars, spelling, Spelling.chars, Spelling.withSuffix]

theorem own_pool {tracer : Option Tracer} (own : ∀ d ∈ items, ∀ leaf, .foreign leaf ∉ d.nodes) :
    ∀ leaf, .foreign leaf ∉ (pool items tracer).nodes := by
  intro leaf below
  rw [nodes, List.mem_cons] at below
  obtain same | below := below
  · cases same
  · obtain ⟨d, hd, inside⟩ := mem_nodesAll.mp below
    exact own d hd leaf inside

theorem own_of_attached? (own : ∀ leaf, .foreign leaf ∉ d.nodes) (h : d.attached? = some (operand, suffix)) :
    ∀ leaf, .foreign leaf ∉ operand.nodes := by
  cases d with
  | die => cases h
  | foreign => cases h
  | pool => cases h
  | selection items poolTracer selector count tracer =>
    cases h
    exact own_pool fun d hd => own_of_children own hd
  | arithmetic =>
    cases h
    exact own_of_children own (List.mem_singleton_self _)
  | explosion inner =>
    have inside := own_of_children own (List.mem_singleton_self inner)
    -- Only a selection gives way to its dice.
    cases inner with
    | selection =>
      cases h
      exact own_pool fun d hd => own_of_children inside hd
    | _ =>
      cases h
      exact inside

/-- A tree without foreign leaves, as each one that is read from a text is, is written with nested brackets. In
    parentheses where it needs them its text has no plus outside of its brackets, so it never needs a second pair, and
    every node has its suffix behind such a text. -/
theorem brackets_settled (own : (∀ leaf, .foreign leaf ∉ d.nodes) ∨ ∃ text settings, parse text settings = .ok d) :
    (Nested d.chars ∧ ∀ before after, d.chars = before ++ after → before.countP closes ≤ before.countP opens) ∧
      (Sheltered (wrap d.chars) ∧ wrap (wrap d.chars) = wrap d.chars) ∧
      ∀ operand suffix, d.attached? = some (operand, suffix) →
        d.chars = wrap operand.chars ++ suffix ∧ Sheltered (wrap operand.chars) := by
  have leafless : ∀ leaf, .foreign leaf ∉ d.nodes := by
    obtain own | ⟨text, settings, parsed⟩ := own
    · exact own
    · exact own_of_parse parsed
  have written : ∀ {e : Dice}, (∀ leaf, .foreign leaf ∉ e.nodes) → Nested e.chars :=
    fun own => (nested_spelling own).chars
  have nested := written leafless
  refine ⟨⟨nested, fun before after split => ?_⟩, ⟨nested.wrap.sheltered nested.hasPlus_wrap, ?_⟩,
    fun operand suffix attached => ⟨chars_of_attached? attached, ?_⟩⟩
  · rw [split] at nested
    exact nested.countP_closes_le
  · exact wrap_of_not_hasPlus nested.hasPlus_wrap
  · have inside := written (own_of_attached? leafless attached)
    exact inside.wrap.sheltered inside.hasPlus_wrap

/-- The dice of a selection: one with a face below zero, and a sum that is added to. -/
def besideSum : Dice :=
  .pool
    [.die (.custom [.ofInt (-3), 4] (Nat.le_refl 2)),
      .arithmetic (.pool [.die .percentile, .die .fudge] none) .add 2 none]
    (some .memory)

/-- An explosion of the higher of them. -/
def spliced : Dice :=
  .explosion (.selection besideSum.children (some .memory) .keepHighest 1 none) .greater 3 5 none

theorem spliced_brackets : (∀ leaf, .foreign leaf ∉ spliced.nodes) ∧
    spliced.text = "(D[-3,4]+(D%+DF)+2)!>3KH1" ∧ Nested spliced.chars ∧
    wrap (wrap spliced.chars) = wrap spliced.chars ∧
    spliced.chars = wrap besideSum.chars ++ "!>3KH1".toList ∧ Sheltered (wrap besideSum.chars) := by
  have own : ∀ leaf, .foreign leaf ∉ spliced.nodes := by simp [spliced, besideSum, children, nodes, nodesAll]
  obtain ⟨⟨nested, -⟩, ⟨-, twice⟩, attach⟩ := brackets_settled (.inl own)
  exact ⟨own, by rfl, nested, twice, attach besideSum "!>3KH1".toList (by rfl)⟩

end Dice
end DiceNotation
