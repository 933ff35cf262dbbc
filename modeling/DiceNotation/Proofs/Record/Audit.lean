import DiceNotation.Proofs.Nodes
import DiceNotation.Proofs.Record.Delivery
import DiceNotation.Proofs.Record.Derivation

/-! Records account for evaluations. Whatever dice are asked, each record that is emitted comes from a node of
    theirs that carries its tracer, and its derivation can be read back and leads to its result; the record of the
    dice themselves comes last and holds the answer. -/

namespace DiceNotation

/-! ### Accounts -/

/-- The derivation and the result of a record are those of a node: an addition of outcomes for a pool and for an
    explosion, of ranked ones for a selection, and a step with the node's own operator and operand. A leaf
    derives nothing. -/
def Dice.Derives (record : Record) : Dice → Prop
  | pool _ _ => ∃ terms, Adds record.derivation terms ∧ record.result = .total terms
  | selection _ _ _ _ _ =>
    ∃ terms, Adds record.derivation terms ∧ terms.Pairwise (· ≤ ·) ∧ record.result = .total terms
  | explosion _ _ _ _ _ => ∃ terms, Adds record.derivation terms ∧ record.result = .total terms
  | arithmetic _ operator operand _ =>
    ∃ value : Outcome, record.derivation = "(" ++ value.text ++ ") " ++ String.singleton operator.symbol ++ " " ++
      operand.text ∧ record.result = operator.apply value operand
  | _ => False

/-- The record is one of the node. -/
structure Record.Accounts (record : Record) (d : Dice) : Prop where
  source : record.source = d.nodeName ++ "::" ++ record.operation.name
  text : record.text = d.text
  derives : d.Derives record

theorem Derivation.text_step (value operand : Outcome) (operator : Operator) :
    (Derivation.step value operator operand).text =
      "(" ++ value.text ++ ") " ++ String.singleton operator.symbol ++ " " ++ operand.text := by
  apply String.toList_injective
  simp [Derivation.text, Derivation.chars, Derivation.term, Outcome.text]

namespace Dice
variable {supply : Supply} {d : Dice} {items : List Dice} {op : Operation} {next : Nat} {x : Emission}

/-! ### One node -/

theorem mem_playAll (h : x ∈ (playAll supply items op next).emitted) :
    ∃ d ∈ items, ∃ start, x ∈ (play supply d op start).emitted := by
  induction items generalizing next with
  | nil => cases h
  | cons d ds ih =>
    rcases List.mem_append.mp h with first | others
    · exact ⟨d, List.mem_cons_self, next, first⟩
    · obtain ⟨e, he, start, hx⟩ := ih others
      exact ⟨e, List.mem_cons_of_mem d he, start, hx⟩

theorem mem_whileHolds {run : Nat → Played α} {holds : α → Bool} {limit : Nat} {p : Played α}
    (h : p ∈ Played.whileHolds run holds next [] limit) : ∃ start, p = run start := by
  induction limit generalizing next with
  | zero => cases h
  | succ limit ih =>
    rw [Played.whileHolds_succ] at h
    rcases List.mem_cons.mp h with rfl | h
    · exact ⟨next, rfl⟩
    · split at h
      · exact ih h
      · cases h

theorem mem_repeated {comparison : Comparison} {threshold : Outcome} {limit : Nat}
    {run : Operation → Nat → Played Outcome} (h : x ∈ (repeated comparison threshold limit next run op).emitted) :
    ∃ start, x ∈ (run op start).emitted := by
  cases op with
  | roll =>
    obtain ⟨p, hp, hx⟩ := List.mem_flatMap.mp h
    obtain ⟨start, rfl⟩ := mem_whileHolds hp
    exact ⟨start, hx⟩
  | minimum => exact ⟨next, h⟩
  | maximum => exact ⟨next, h⟩

/-- A leaf emits nothing and has no tracer. Every other node concludes with a derivation of its own, and all that
    was emitted before that came from questions to the trees right below it. -/
theorem play_concludes (supply : Supply) (d : Dice) (op : Operation) (next : Nat) :
    (d.tracer? = none ∧ (play supply d op next).emitted = []) ∨
      ∃ p, play supply d op next = conclude d op p ∧ d.Derives (d.record op p.value) ∧
        ∀ x ∈ p.emitted, ∃ e ∈ d.children, ∃ asked start, x ∈ (play supply e asked start).emitted := by
  cases d with
  | die d => exact Or.inl ⟨rfl, by cases op <;> rfl⟩
  | foreign leaf => exact Or.inl ⟨rfl, by cases op <;> rfl⟩
  | pool items tracer =>
    refine Or.inr ⟨_, rfl, ⟨_, adds_sum _, rfl⟩, fun x hx => ?_⟩
    obtain ⟨e, he, start, hx⟩ := mem_playAll hx
    exact ⟨e, he, op, start, hx⟩
  | selection items poolTracer selector count tracer =>
    refine Or.inr ⟨_, rfl, ⟨_, adds_sum _, selector.pairwise_kept _ _, rfl⟩, fun x hx => ?_⟩
    obtain ⟨e, he, start, hx⟩ := mem_playAll hx
    exact ⟨e, he, op, start, hx⟩
  | explosion inner comparison threshold limit tracer =>
    refine Or.inr ⟨_, rfl, ⟨_, adds_sum _, rfl⟩, fun x hx => ?_⟩
    obtain ⟨start, hx⟩ := mem_repeated hx
    exact ⟨inner, List.mem_singleton_self inner, op, start, hx⟩
  | arithmetic inner operator operand tracer =>
    simp only [play]
    cases operator.asks operand op with
    | none => exact Or.inr ⟨_, rfl, ⟨_, Derivation.text_step _ _ _, rfl⟩, List.forall_mem_nil _⟩
    | some asked =>
      exact Or.inr ⟨_, rfl, ⟨_, Derivation.text_step _ _ _, rfl⟩, fun x hx =>
        ⟨inner, List.mem_singleton_self inner, asked, next, hx⟩⟩

theorem mem_conclude {p : Played Derivation} (h : x ∈ (conclude d op p).emitted) :
    x ∈ p.emitted ∨ d.tracer? = some x.tracer ∧ x.record = d.record op p.value := by
  unfold conclude at h
  cases traced : d.tracer? with
  | none =>
    rw [traced] at h
    exact Or.inl h
  | some tracer =>
    rw [traced] at h
    rcases List.mem_append.mp h with earlier | last
    · exact Or.inl earlier
    · obtain rfl := List.mem_singleton.mp last
      exact Or.inr ⟨rfl, rfl⟩

/-! ### A whole tree -/

/-- Whatever a tree is asked, each record comes from a node that carries its tracer, and accounts for it. -/
theorem accounts_of_mem_emitted (h : x ∈ (play supply d op next).emitted) :
    ∃ e ∈ d.nodes, e.tracer? = some x.tracer ∧ x.record.Accounts e := by
  induction d using children_induction generalizing op next with
  | step d ih =>
    rcases play_concludes supply d op next with ⟨-, silent⟩ | ⟨p, hp, derives, beneath⟩
    · rw [silent] at h
      cases h
    · rw [hp] at h
      rcases mem_conclude h with earlier | ⟨traced, own⟩
      · obtain ⟨e, he, asked, start, hx⟩ := beneath x earlier
        obtain ⟨node, hnode, accounts⟩ := ih e he hx
        exact ⟨node, nodes_of_children he hnode, accounts⟩
      · refine ⟨d, mem_nodes_self d, traced, ?_⟩
        rw [own]
        exact ⟨rfl, rfl, derives⟩

/-- A traced tree emits its own record last, and the record holds the answer. -/
theorem emitted_of_traced {tracer : Tracer} (traced : d.tracer? = some tracer) :
    ∃ earlier derivation, (play supply d op next).emitted = earlier ++ [⟨tracer, d.record op derivation⟩] ∧
      derivation.result = (play supply d op next).value := by
  rcases play_concludes supply d op next with ⟨untraced, -⟩ | ⟨p, hp, -⟩
  · rw [untraced] at traced
    cases traced
  · refine ⟨p.emitted, p.value, ?_, ?_⟩
    · rw [hp, conclude, traced]
    · rw [hp, conclude]

end Dice

/-! ### The trail of a tracer -/

/-- A question hands records to each tracer and takes none away. Each new record accounts for a node that carries the
    tracer, and if the dice themselves carry it their record is the last one and has the answer. -/
theorem Table.ask_accounts (t : Table) (d : Dice) (op : Operation) (tracer : Tracer) :
    ∃ new, t.Gains (t.ask d op).2 tracer new ∧
      (∀ record ∈ new, ∃ e ∈ d.nodes, e.tracer? = some tracer ∧ record.Accounts e) ∧
      (d.tracer? = some tracer → ∃ earlier last, new = earlier ++ [last] ∧
        last.source = d.nodeName ++ "::" ++ op.name ∧ last.text = d.text ∧ last.result = (t.ask d op).1) := by
  refine ⟨_, (t.extends_ask d op).gains tracer, fun record hrecord => ?_, fun traced => ?_⟩
  · obtain ⟨x, hx, handed⟩ := List.mem_filterMap.mp hrecord
    obtain ⟨rfl, rfl⟩ := Emission.recordFor?_eq_some_iff.mp handed
    exact Dice.accounts_of_mem_emitted hx
  · obtain ⟨earlier, derivation, hemitted, hresult⟩ :=
      @Dice.emitted_of_traced t.supply d op t.drawn tracer traced
    refine ⟨earlier.filterMap (Emission.recordFor? tracer), d.record op derivation, ?_, rfl, rfl, hresult⟩
    rw [hemitted, List.filterMap_append]
    simp [Emission.recordFor?]

-- The pool is asked for its minimum, since a negative factor turns the order round. It has a tracer of its own, so that
-- each of the two logs holds one record.
example :
    let pool := Dice.pool [.die .fudge, .die .fudge] (some (.memory 1))
    let t := (({} : Table).ask (.arithmetic pool .multiply (.ofInt (-3)) (some .memory)) .maximum).2
    (t.log 1).toList.map (fun r => (r.source, r.derivation, r.result.val)) = [("Pool::minimum", "(-1) + (-1)", -2)] ∧
      t.log.toList.map (fun r => (r.source, r.derivation, r.result.val)) =
        [("Arithmetic::maximum", "(-2) * -3", 6)] := by
  with_unfolding_all exact ⟨rfl, rfl⟩

end DiceNotation
