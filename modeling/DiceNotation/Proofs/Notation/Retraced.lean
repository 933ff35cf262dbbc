import DiceNotation.Dice.Parse
import DiceNotation.Proofs.Retrace

/-! Parsing does not depend on the tracer of its settings. With another tracer, each builder and each reader makes the
    same tree with that tracer in its nodes, or refuses with the same error. -/

namespace DiceNotation

/-- The settings with their tracer mapped. -/
def Settings.retrace (φ : Tracer → Option Tracer) (settings : Settings) : Settings :=
  { settings with tracer := settings.tracer.bind φ }

section
variable {φ : Tracer → Option Tracer} {settings : Settings} {inner d : Dice} {tracer : Option Tracer}

/-! ### Builders -/

theorem Pool.select_retrace (items : List Dice) (poolTracer : Option Tracer) (selector : Selector) (count : Nat) :
    Pool.select ⟨items.map (Dice.retrace φ), poolTracer.bind φ⟩ selector count (tracer.bind φ) =
      (Pool.select ⟨items, poolTracer⟩ selector count tracer).map (Dice.retrace φ) := by
  simp only [Pool.select, List.length_map]
  split
  · rfl
  · split
    · rfl
    · simp only [Except.map, Dice.retrace, Dice.retraceAll_eq_map]

theorem Dice.explode_retrace (comparison : Comparison) (threshold : Outcome) (limit : Nat) :
    (inner.retrace φ).explode comparison threshold limit (tracer.bind φ) =
      (inner.explode comparison threshold limit tracer).map (retrace φ) := by
  simp only [explode, bounds_retrace]
  split <;> rfl

theorem Dice.apply_retrace (operator : Operator) (operand : Outcome) :
    (d.retrace φ).apply operator operand (tracer.bind φ) = (d.apply operator operand tracer).map (retrace φ) := by
  simp only [apply]
  split <;> rfl

theorem assemble_retrace (count : Nat) (die : Die) (selection : Option (Selector × Nat)) :
    assemble (settings.retrace φ) count die selection = (assemble settings count die selection).map (Dice.retrace φ) := by
  have copies : List.replicate count (Dice.die die) = (List.replicate count (Dice.die die)).map (Dice.retrace φ) := by
    rw [List.map_replicate]
    rfl
  cases selection with
  | none =>
    simp only [assemble, Except.map]
    split
    · rfl
    · simp only [Pool.replicate, Pool.sum, Dice.retrace, Dice.retraceAll_eq_map, ← copies]
      rfl
  | some selection =>
    simp only [assemble, Pool.replicate]
    rw [← Pool.select_retrace, ← copies]
    rfl

theorem buildGroup_retrace (count : Nat) (die : Die) (modifiers : Modifiers) :
    buildGroup (settings.retrace φ) count die modifiers =
      (buildGroup settings count die modifiers).map (Dice.retrace φ) := by
  unfold buildGroup
  rw [assemble_retrace]
  cases assemble settings count die modifiers.selection with
  | error e => rfl
  | ok inner =>
    cases modifiers.trigger with
    | none => rfl
    | some trigger =>
      simp only [Except.map, Dice.highestFace_retrace]
      exact Dice.explode_retrace _ _ _

/-! ### Readers -/

/-- What was read, with the tracers of the tree mapped. -/
def retraced (φ : Tracer → Option Tracer) (read : Dice × List Placed) : Dice × List Placed :=
  (read.1.retrace φ, read.2)

/-- The second reader does what the first one does, with the tracers mapped. -/
def Reader.Retraces (φ : Tracer → Option Tracer) (a b : Reader Dice) : Prop :=
  ∀ tokens, b.run tokens = (a.run tokens).map (retraced φ)

variable {tokens : List Placed} {a b : Reader Dice}

theorem readPlain_retrace (tokens : List Placed) :
    readPlain (settings.retrace φ) tokens = (readPlain settings tokens).map (retraced φ) := by
  unfold readPlain
  split
  · rfl
  · split
    · rfl
    · split
      · rfl
      · rw [buildGroup_retrace]
        generalize buildGroup settings _ _ _ = built
        cases built <;> rfl
  · rfl

theorem groupOf_retraces (h : a.Retraces φ b) :
    (groupOf settings a).Retraces φ (groupOf (settings.retrace φ) b) := by
  intro tokens
  show readGroup (settings.retrace φ) b tokens = (readGroup settings a tokens).map (retraced φ)
  unfold readGroup
  split
  · rfl
  · next inside _ =>
    rw [h]
    cases a.run inside with
    | error e => rfl
    | ok read =>
      obtain ⟨d, _ | ⟨⟨_, t⟩, rest⟩⟩ := read
      · rfl
      · cases t <;> rfl
  · exact readPlain_retrace _
  · exact readPlain_retrace _
  · rfl

theorem readChain_retrace (d : Dice) (tokens : List Placed) :
    readChain (settings.retrace φ) (d.retrace φ) tokens = (readChain settings d tokens).map (retraced φ) := by
  fun_induction readChain settings d tokens with
  | case1 d tokens none => exact readChain_of_none none
  | case2 d tokens operator after ahead e signed =>
    rw [readChain_of_some ahead, signed]
    rfl
  | case3 d tokens operator after ahead operand rest signed e refused =>
    have refused' := @Dice.apply_retrace φ d settings.tracer operator operand
    rw [refused] at refused'
    simp only [readChain_of_some ahead, signed, Settings.retrace, refused', Except.map]
  | case4 d tokens operator after ahead operand rest signed applied applies ih =>
    have applies' := @Dice.apply_retrace φ d settings.tracer operator operand
    rw [applies] at applies'
    simp only [readChain_of_some ahead, signed]
    simp only [Settings.retrace, applies', Except.map] at ih ⊢
    exact ih

theorem termOf_retraces (h : a.Retraces φ b) : (termOf settings a).Retraces φ (termOf (settings.retrace φ) b) := by
  intro tokens
  simp only [termOf, h tokens]
  cases a.run tokens with
  | error e => rfl
  | ok read => exact readChain_retrace read.1 read.2

theorem readTerms_retrace (h : a.Retraces φ b) (tokens : List Placed) :
    readTerms b tokens = (readTerms a tokens).map fun read => (read.1.map (Dice.retrace φ), read.2) := by
  fun_induction readTerms a tokens with
  | case1 tokens none subtract =>
    rw [readTerms_of_none none, if_pos subtract]
    rfl
  | case2 tokens none other =>
    rw [readTerms_of_none none, if_neg other]
    rfl
  | case3 tokens start started e first =>
    rw [readTerms_of_some started, h, first]
    rfl
  | case4 tokens start started d rest first ih =>
    rw [readTerms_of_some started, h, first]
    simp only [Except.map, retraced, ih]
    cases readTerms a rest <;> rfl

theorem sumOf_retraces (h : a.Retraces φ b) : (sumOf settings a).Retraces φ (sumOf (settings.retrace φ) b) := by
  intro tokens
  simp only [sumOf, h tokens]
  cases a.run tokens with
  | error e => rfl
  | ok read =>
    simp only [Except.map, retraced, readTerms_retrace h read.2]
    cases readTerms a read.2 with
    | error e => rfl
    | ok others =>
      simp only [sumOfTerms, List.isEmpty_map]
      split
      · rfl
      · simp only [Dice.retrace, Dice.retraceAll_eq_map, List.map_cons, Settings.retrace]

theorem expression_retraces (φ : Tracer → Option Tracer) (settings : Settings) (depth : Nat) :
    (expression settings depth).Retraces φ (expression (settings.retrace φ) depth) := by
  induction depth with
  | zero => exact fun _ => rfl
  | succ depth ih => exact sumOf_retraces (termOf_retraces (groupOf_retraces ih))

/-- A text is parsed with another tracer as the same tree with that tracer in its nodes, or refused with the same
    error. -/
theorem Dice.parse_retrace (φ : Tracer → Option Tracer) (text : String) (settings : Settings) :
    parse text (settings.retrace φ) = (parse text settings).map (retrace φ) := by
  unfold parse
  cases scan text with
  | error e => rfl
  | ok tokens =>
    simp only [ofTokens, expression_retraces φ settings tokens.length tokens]
    split
    · rfl
    · cases (expression settings tokens.length).run tokens with
      | error e => rfl
      | ok read =>
        simp only [Except.map, retraced]
        split <;> rfl

end
end DiceNotation
