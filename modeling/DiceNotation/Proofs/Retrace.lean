import DiceNotation.Dice.Evaluate
import DiceNotation.Proofs.Nodes
import DiceNotation.Proofs.Notation.Proper

/-! Changes of tracers. A map of tracers, which may also drop some, is applied to every node of a tree and changes
    nothing but where records go: the two trees have the same structure, text, bounds and faces, and an evaluation
    gives the same value from the same draws and emits the same records, each to the mapped tracer. -/

namespace DiceNotation

namespace Dice

mutual
/-- The tree with the tracer of each node mapped. -/
def retrace (φ : Tracer → Option Tracer) : Dice → Dice
  | die d => .die d
  | foreign leaf => .foreign leaf
  | pool items tracer => .pool (retraceAll φ items) (tracer.bind φ)
  | selection items poolTracer selector count tracer =>
    .selection (retraceAll φ items) (poolTracer.bind φ) selector count (tracer.bind φ)
  | explosion inner comparison threshold limit tracer =>
    .explosion (retrace φ inner) comparison threshold limit (tracer.bind φ)
  | arithmetic inner operator operand tracer => .arithmetic (retrace φ inner) operator operand (tracer.bind φ)

def retraceAll (φ : Tracer → Option Tracer) : List Dice → List Dice
  | [] => []
  | d :: ds => retrace φ d :: retraceAll φ ds
end

/-- The tree without its tracers. -/
def bare (d : Dice) : Dice := d.retrace fun _ => none

/-- The tree with one tracer in the place of all its tracers. -/
def tracedBy (tracer : Tracer) (d : Dice) : Dice := d.retrace fun _ => some tracer

@[simp] theorem retraceAll_eq_map (φ : Tracer → Option Tracer) (items : List Dice) :
    retraceAll φ items = items.map (retrace φ) := by
  induction items with
  | nil => rfl
  | cons d ds ih => rw [retraceAll, ih, List.map_cons]

variable {φ ψ : Tracer → Option Tracer} {d d' : Dice} {items : List Dice}

/-- Maps of tracers are applied one after the other. -/
theorem retrace_retrace (φ ψ : Tracer → Option Tracer) (d : Dice) :
    (d.retrace φ).retrace ψ = d.retrace fun tracer => (φ tracer).bind ψ := by
  induction d using tree_induction with
  | die d => rfl
  | foreign leaf => rfl
  | pool items tracer ih => simpa [retrace, Option.bind_assoc] using ih
  | selection items poolTracer selector count tracer ih => simpa [retrace, Option.bind_assoc] using ih
  | explosion inner comparison threshold limit tracer ih => simp [retrace, ih, Option.bind_assoc]
  | arithmetic inner operator operand tracer ih => simp [retrace, ih, Option.bind_assoc]

/-! ### What a tree says of itself -/

@[simp] theorem isDie_retrace (φ : Tracer → Option Tracer) (d : Dice) : (d.retrace φ).isDie = d.isDie := by
  cases d <;> rfl

@[simp] theorem nodeName_retrace (φ : Tracer → Option Tracer) (d : Dice) : (d.retrace φ).nodeName = d.nodeName := by
  cases d <;> rfl

@[simp] theorem tracer?_retrace (φ : Tracer → Option Tracer) (d : Dice) :
    (d.retrace φ).tracer? = d.tracer?.bind φ := by
  cases d <;> rfl

theorem map_retrace {f : Dice → α} (h : ∀ d ∈ items, f (d.retrace φ) = f d) :
    (items.map (retrace φ)).map f = items.map f := by
  rw [List.map_map]
  exact List.map_congr_left h

@[simp] theorem bounds_retrace (φ : Tracer → Option Tracer) (d : Dice) : (d.retrace φ).bounds = d.bounds := by
  induction d using tree_induction with
  | die d => rfl
  | foreign leaf => rfl
  | pool items tracer ih => simp [retrace, bounds, map_retrace ih]
  | selection items poolTracer selector count tracer ih => simp [retrace, bounds, map_retrace ih]
  | explosion inner comparison threshold limit tracer ih => simp [retrace, bounds, ih]
  | arithmetic inner operator operand tracer ih => simp [retrace, bounds, ih]

@[simp] theorem highestFace_retrace (φ : Tracer → Option Tracer) (d : Dice) :
    (d.retrace φ).highestFace = d.highestFace := by
  induction d using tree_induction with
  | die d => rfl
  | foreign leaf => rfl
  | pool items tracer ih => simp [retrace, highestFace, map_retrace ih]
  | selection items poolTracer selector count tracer ih => simp [retrace, highestFace, map_retrace ih]
  | explosion inner comparison threshold limit tracer ih => simp [retrace, highestFace, ih]
  | arithmetic inner operator operand tracer _ => simp [retrace, highestFace, bounds]

@[simp] theorem spelling_retrace (φ : Tracer → Option Tracer) (d : Dice) : (d.retrace φ).spelling = d.spelling := by
  have spelled : ∀ {items : List Dice}, (∀ d ∈ items, (d.retrace φ).spelling = d.spelling) →
      spelledItems (items.map (retrace φ)) = spelledItems items := by
    intro items ih
    rw [spelledItems_eq_map, spelledItems_eq_map]
    exact map_retrace fun d hd => by rw [chars, ih d hd, isDie_retrace, chars]
  induction d using tree_induction with
  | die d => rfl
  | foreign leaf => rfl
  | pool items tracer ih => simp only [retrace, retraceAll_eq_map, spelling, spelled ih]
  | selection items poolTracer selector count tracer ih => simp only [retrace, retraceAll_eq_map, spelling, spelled ih]
  | explosion inner comparison threshold limit tracer ih => simp [retrace, spelling, ih]
  | arithmetic inner operator operand tracer ih => simp [retrace, spelling, ih]

@[simp] theorem text_retrace (φ : Tracer → Option Tracer) (d : Dice) : (d.retrace φ).text = d.text := by
  simp [text, chars]

@[simp] theorem record_retrace (φ : Tracer → Option Tracer) (d : Dice) (op : Operation) (derivation : Derivation) :
    (d.retrace φ).record op derivation = d.record op derivation := by
  simp [record]

/-! ### Structure -/

theorem sameAll_retrace (ih : ∀ d ∈ items, ∀ d', same (d.retrace φ) (d'.retrace ψ) = same d d') (items' : List Dice) :
    sameAll (items.map (retrace φ)) (items'.map (retrace ψ)) = sameAll items items' := by
  induction items generalizing items' with
  | nil => cases items' <;> rfl
  | cons d ds later =>
    obtain ⟨hd, hds⟩ := List.forall_mem_cons.mp ih
    cases items' with
    | nil => rfl
    | cons d' ds' => simp only [List.map_cons, sameAll, hd d', later hds ds']

/-- Structure does not depend on tracers. -/
theorem same_retrace (φ ψ : Tracer → Option Tracer) (d d' : Dice) :
    same (d.retrace φ) (d'.retrace ψ) = same d d' := by
  induction d using tree_induction generalizing d' with
  | die d => cases d' <;> rfl
  | foreign leaf => cases d' <;> rfl
  | pool items tracer ih =>
    cases d' with
    | pool items' tracer' => simp only [retrace, retraceAll_eq_map, same, sameAll_retrace ih]
    | _ => rfl
  | selection items poolTracer selector count tracer ih =>
    cases d' with
    | selection => simp only [retrace, retraceAll_eq_map, same, sameAll_retrace ih]
    | _ => rfl
  | explosion inner comparison threshold limit tracer ih =>
    cases d' with
    | explosion => simp only [retrace, same, ih]
    | _ => rfl
  | arithmetic inner operator operand tracer ih =>
    cases d' with
    | arithmetic => simp only [retrace, same, ih]
    | _ => rfl

end Dice

/-! ### Evaluation -/

/-- The emission to the tracer that its own one is mapped to. -/
def Emission.reroute (φ : Tracer → Option Tracer) (x : Emission) : Option Emission :=
  (φ x.tracer).map (⟨·, x.record⟩)

/-- The evaluation with its emissions sent elsewhere. -/
def Played.reroute (φ : Tracer → Option Tracer) (p : Played α) : Played α :=
  ⟨p.value, p.next, p.emitted.filterMap (Emission.reroute φ)⟩

namespace Played
variable {φ : Tracer → Option Tracer} {run : Nat → Played α} {holds : α → Bool}

theorem map_reroute (f : α → β) (p : Played α) : (p.reroute φ).map f = (p.map f).reroute φ := rfl

theorem collect_reroute (start : Nat) (runs : List (Played α)) :
    collect start (runs.map (reroute φ)) = (collect start runs).reroute φ := by
  simp only [collect, reroute, List.map_map, List.getLast?_map, Option.map_map, List.flatMap_map,
    List.filterMap_flatMap]
  rfl

theorem whileHolds_reroute (next limit : Nat) :
    whileHolds (fun start => (run start).reroute φ) holds next [] limit =
      (whileHolds run holds next [] limit).map (reroute φ) := by
  induction limit generalizing next with
  | zero => rfl
  | succ limit ih =>
    rw [whileHolds_succ, whileHolds_succ, List.map_cons]
    refine congrArg _ ?_
    show (if holds (run next).value = true then _ else []) = _
    split
    · exact ih (run next).next
    · rfl

end Played

namespace Dice
variable {φ : Tracer → Option Tracer} {supply : Supply} {items : List Dice}

theorem conclude_retrace (φ : Tracer → Option Tracer) (d : Dice) (op : Operation) (p : Played Derivation) :
    conclude (d.retrace φ) op (p.reroute φ) = (conclude d op p).reroute φ := by
  simp only [conclude, tracer?_retrace, record_retrace, Played.reroute]
  cases d.tracer? with
  | none => rfl
  | some tracer =>
    cases hφ : φ tracer <;> simp [Emission.reroute, hφ]

theorem playAll_retrace (ih : ∀ d ∈ items, ∀ op next,
      play supply (d.retrace φ) op next = (play supply d op next).reroute φ) (op : Operation) (next : Nat) :
    playAll supply (items.map (retrace φ)) op next = (playAll supply items op next).reroute φ := by
  induction items generalizing next with
  | nil => rfl
  | cons d ds later =>
    obtain ⟨hd, hds⟩ := List.forall_mem_cons.mp ih
    simp only [List.map_cons, playAll, hd, Played.reroute, later hds, List.filterMap_append]

theorem repeated_retrace {comparison : Comparison} {threshold : Outcome} {limit next : Nat}
    {run : Operation → Nat → Played Outcome} (op : Operation) :
    repeated comparison threshold limit next (fun op start => (run op start).reroute φ) op =
      (repeated comparison threshold limit next run op).reroute φ := by
  cases op with
  | roll =>
    simp only [repeated, Played.whileHolds_reroute]
    exact Played.collect_reroute next _
  | minimum => rfl
  | maximum => rfl

/-- An evaluation does not depend on tracers: only the emissions go elsewhere. -/
theorem play_retrace (φ : Tracer → Option Tracer) (supply : Supply) (d : Dice) (op : Operation) (next : Nat) :
    play supply (d.retrace φ) op next = (play supply d op next).reroute φ := by
  induction d using tree_induction generalizing op next with
  | die d => cases op <;> rfl
  | foreign leaf => cases op <;> rfl
  | pool items tracer ih =>
    simp only [retrace, retraceAll_eq_map, play, playAll_retrace ih, Played.map_reroute, ← conclude_retrace]
  | selection items poolTracer selector count tracer ih =>
    simp only [retrace, retraceAll_eq_map, play, playAll_retrace ih, Played.map_reroute, ← conclude_retrace]
  | explosion inner comparison threshold limit tracer ih =>
    have hrun : play supply (inner.retrace φ) = fun op next => (play supply inner op next).reroute φ :=
      funext fun op => funext fun next => ih op next
    simp only [retrace, play, hrun, repeated_retrace, Played.map_reroute, ← conclude_retrace]
  | arithmetic inner operator operand tracer ih =>
    simp only [retrace, play, bounds_retrace, ← conclude_retrace]
    cases operator.asks operand op with
    | none => rfl
    | some asked => simp only [ih, Played.map_reroute]

end Dice

end DiceNotation
