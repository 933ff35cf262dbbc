import DiceNotation.Proofs.Notation.Retraced
import DiceNotation.Proofs.Record.Delivery

/-! Tracing is transparent. Which nodes of a tree carry which tracer decides where records go, and nothing else: not
    the answers, not the draws that they take, and not what a text is parsed as. A log tracer sends out notices of the
    records that a memory tracer in its place would have logged. -/

namespace DiceNotation

/-- The log tracer of a level in the place of the memory tracer that has a number. -/
def Tracer.inLog (id : Nat) (level : Level) : Tracer → Tracer
  | .memory own => if own = id then .log level else .memory own
  | .log own => .log own

/-- The tree with the log tracer of a level in the place of a memory tracer. -/
def Dice.inLog (id : Nat) (level : Level) (d : Dice) : Dice := d.retrace fun tracer => some (tracer.inLog id level)

def Emission.inLog (id : Nat) (level : Level) (x : Emission) : Emission := ⟨x.tracer.inLog id level, x.record⟩

/-- A tree with its tracers mapped emits the same records, each to the mapped tracer. -/
theorem Dice.emissions_retrace (φ : Tracer → Option Tracer) (supply : Supply) (d : Dice) (ops : List Operation)
    (next : Nat) :
    (d.retrace φ).emissions supply ops next = (d.emissions supply ops next).filterMap (Emission.reroute φ) := by
  induction ops generalizing next with
  | nil => rfl
  | cons op ops ih =>
    simp only [emissions, play_retrace, List.filterMap_append, ← ih]
    rfl

/-- The tables have the same draws to come. -/
structure Table.SameDraws (t t' : Table) : Prop where
  supply : t'.supply = t.supply
  drawn : t'.drawn = t.drawn

namespace Table
variable {t t' : Table} {φ : Tracer → Option Tracer} {d d' : Dice} {op : Operation} {ops : List Operation}

/-! ### Answers and draws -/

theorem SameDraws.play_retrace (h : SameDraws t t') (φ : Tracer → Option Tracer) (d : Dice) (op : Operation) :
    Dice.play t'.supply (d.retrace φ) op t'.drawn = (d.play t.supply op t.drawn).reroute φ := by
  rw [h.supply, h.drawn, Dice.play_retrace]

theorem SameDraws.ask_retrace (h : SameDraws t t') (φ : Tracer → Option Tracer) (d : Dice) (op : Operation) :
    (t'.ask (d.retrace φ) op).1 = (t.ask d op).1 ∧ SameDraws (t.ask d op).2 (t'.ask (d.retrace φ) op).2 := by
  have played := h.play_retrace φ d op
  refine ⟨?_, ?_, ?_⟩
  · simp only [ask, played]
    rfl
  · rw [(t'.extends_ask _ op).supply, (t.extends_ask d op).supply, h.supply]
  · rw [drawn_ask, drawn_ask, played]
    rfl

theorem SameDraws.asks_retrace (h : SameDraws t t') (φ : Tracer → Option Tracer) (d : Dice) (ops : List Operation) :
    (t'.asks (d.retrace φ) ops).1 = (t.asks d ops).1 ∧ SameDraws (t.asks d ops).2 (t'.asks (d.retrace φ) ops).2 := by
  induction ops generalizing t t' with
  | nil => exact ⟨rfl, h⟩
  | cons op ops ih =>
    obtain ⟨first, h⟩ := h.ask_retrace φ d op
    obtain ⟨others, h⟩ := ih h
    rw [asks_cons, asks_cons, first, others]
    exact ⟨rfl, h⟩

/-- Two trees that differ in their tracers only give the same answers from the same draws. -/
theorem SameDraws.asks_eq (h : SameDraws t t') (same : d.bare = d'.bare) (ops : List Operation) :
    (t'.asks d' ops).1 = (t.asks d ops).1 ∧ SameDraws (t.asks d ops).2 (t'.asks d' ops).2 := by
  have again : SameDraws t' t' := ⟨rfl, rfl⟩
  obtain ⟨answers, draws⟩ := h.asks_retrace (fun _ => none) d ops
  obtain ⟨answers', draws'⟩ := again.asks_retrace (fun _ => none) d' ops
  unfold Dice.bare at same
  rw [same] at answers draws
  exact ⟨answers'.symm.trans answers, draws'.supply.symm.trans draws.supply, draws'.drawn.symm.trans draws.drawn⟩

/-! ### Records -/

theorem extends_asks_retrace (t : Table) (φ : Tracer → Option Tracer) (d : Dice) (ops : List Operation) :
    Extends t (t.asks (d.retrace φ) ops).2 ((d.emissions t.supply ops t.drawn).filterMap (Emission.reroute φ)) := by
  rw [← Dice.emissions_retrace]
  exact t.extends_asks (d.retrace φ) ops

/-- Parsing hands no record to a tracer. -/
theorem gains_parse (t : Table) (text : String) (settings : Settings) (tracer : Tracer) :
    t.Gains (t.parse text settings).2 tracer [] := by
  unfold Table.parse
  cases Dice.parse text settings with
  | error e => exact (Extends.refl t).gains tracer
  | ok d =>
    cases tracer with
    | memory id => exact (List.append_nil _).symm
    | log level => simp [Gains, noticesAt, Event.noticeAt?]

/-- With a log tracer in the place of a memory tracer, the same records go where the log tracer sends them. -/
theorem extends_asks_inLog (t : Table) (d : Dice) (id : Nat) (level : Level) (ops : List Operation) :
    ∃ emitted, emitted = d.emissions t.supply ops t.drawn ∧ t.Extends (t.asks d ops).2 emitted ∧
      t.Extends (t.asks (d.inLog id level) ops).2 (emitted.map (Emission.inLog id level)) := by
  refine ⟨_, rfl, t.extends_asks d ops, ?_⟩
  rw [← List.filterMap_eq_map]
  exact t.extends_asks_retrace (fun tracer => some (tracer.inLog id level)) d ops

/-- If a memory tracer is the only tracer, notices of the records that it would log go out as events. -/
theorem events_of_log (t : Table) (d : Dice) (id : Nat) (level : Level) (ops : List Operation) :
    ∃ records, records = (d.emissions t.supply ops t.drawn).map Emission.record ∧
      ((t.asks (d.tracedBy (.memory id)) ops).2.log id).toList = (t.log id).toList ++ records ∧
      (∀ other, other ≠ id → ((t.asks (d.tracedBy (.memory id)) ops).2.log other).toList = (t.log other).toList) ∧
      (t.asks (d.tracedBy (.memory id)) ops).2.events.toList = t.events.toList ∧
      (t.asks (d.tracedBy (.log level)) ops).2.events.toList = t.events.toList ++
        records.map (fun r => .recorded level ⟨r.source, r.text, r.result, r.derivation⟩) ∧
      ∀ other, ((t.asks (d.tracedBy (.log level)) ops).2.log other).toList = (t.log other).toList := by
  have stored := t.extends_asks_retrace (fun _ => some (.memory id)) d ops
  have sent := t.extends_asks_retrace (fun _ => some (.log level)) d ops
  refine ⟨_, rfl, ?_, fun other apart => ?_, ?_, ?_, fun other => ?_⟩
  · exact (stored.logs id).trans (by simp [List.filterMap_filterMap, Emission.reroute, Emission.recordFor?])
  · exact (stored.logs other).trans
      (by simp [List.filterMap_filterMap, Emission.reroute, Emission.recordFor?, Ne.symm apart])
  · exact stored.events.trans (by simp [List.filterMap_filterMap, Emission.reroute, Emission.event?])
  · exact sent.events.trans (by simp [List.filterMap_filterMap, Emission.reroute, Emission.event?, Record.notice])
  · exact (sent.logs other).trans (by simp [List.filterMap_filterMap, Emission.reroute, Emission.recordFor?])

end Table

namespace Dice

theorem same_of_bare_eq {d d' : Dice} (h : d.bare = d'.bare) : (d == d') = true := by
  show same d d' = true
  unfold bare at h
  rw [← same_retrace (fun _ => none) (fun _ => none), h]
  exact same_refl _

theorem bare_bare (d : Dice) : d.bare.bare = d.bare := retrace_retrace _ _ d

theorem eq_of_bare_eq {f : Dice → α} (hf : ∀ φ d, f (d.retrace φ) = f d) {d d' : Dice} (h : d.bare = d'.bare) :
    f d' = f d :=
  calc
    f d' = f d'.bare := (hf _ d').symm
    _ = f d.bare := by rw [h]
    _ = f d := hf _ d

/-- Without a tracer a text is parsed as the same tree without its tracers, or refused with the same error. -/
theorem parse_untraced (text : String) (tracer : Tracer) (limit : Nat) :
    parse text ⟨none, limit⟩ = (parse text ⟨some tracer, limit⟩).map bare :=
  parse_retrace (fun _ => none) text ⟨some tracer, limit⟩

/-- Tracing is transparent. Trees that differ in their tracers only are equal in structure, text, bounds and faces, and
    give the same answers from the same draws whatever was recorded before. A text is parsed with a tracer as the same
    tree as without, or refused with the same error, and no record comes from it. With a log tracer in the place of a
    memory tracer the same records are emitted, in the same order; where there is no other tracer, an event of the level
    goes out for each record that would be logged, with its source, text, result and derivation. -/
theorem tracing_transparent :
    (∀ d d' : Dice, d.bare = d'.bare →
      ((d == d') = true ∧ d'.text = d.text ∧ d'.bounds = d.bounds ∧ d'.highestFace = d.highestFace) ∧
      ∀ t t' : Table, t.SameDraws t' → ∀ ops,
        (t'.asks d' ops).1 = (t.asks d ops).1 ∧ (t.asks d ops).2.SameDraws (t'.asks d' ops).2) ∧
    (∀ (t : Table) (text : String) (tracer : Tracer) (limit : Nat),
      (∀ e, parse text ⟨some tracer, limit⟩ = .error e → parse text ⟨none, limit⟩ = .error e) ∧
      (∀ d, parse text ⟨some tracer, limit⟩ = .ok d →
        parse text ⟨none, limit⟩ = .ok d.bare ∧ (d.bare == d) = true) ∧
      ∀ other, t.Gains (t.parse text ⟨some tracer, limit⟩).2 other []) ∧
    (∀ (t : Table) (d : Dice) (id : Nat) (level : Level) (ops : List Operation), ∃ emitted,
      emitted = d.emissions t.supply ops t.drawn ∧ t.Extends (t.asks d ops).2 emitted ∧
      t.Extends (t.asks (d.inLog id level) ops).2 (emitted.map (Emission.inLog id level))) ∧
    ∀ (t : Table) (d : Dice) (id : Nat) (level : Level) (ops : List Operation), ∃ records,
      records = (d.emissions t.supply ops t.drawn).map Emission.record ∧
      ((t.asks (d.tracedBy (.memory id)) ops).2.log id).toList = (t.log id).toList ++ records ∧
      (∀ other, other ≠ id → ((t.asks (d.tracedBy (.memory id)) ops).2.log other).toList = (t.log other).toList) ∧
      (t.asks (d.tracedBy (.memory id)) ops).2.events.toList = t.events.toList ∧
      (t.asks (d.tracedBy (.log level)) ops).2.events.toList = t.events.toList ++
        records.map (fun r => .recorded level ⟨r.source, r.text, r.result, r.derivation⟩) ∧
      ∀ other, ((t.asks (d.tracedBy (.log level)) ops).2.log other).toList = (t.log other).toList := by
  refine ⟨fun d d' h => ⟨⟨same_of_bare_eq h, eq_of_bare_eq text_retrace h, eq_of_bare_eq bounds_retrace h,
    eq_of_bare_eq highestFace_retrace h⟩, fun t t' draws => draws.asks_eq h⟩, fun t text tracer limit => ?_,
    Table.extends_asks_inLog, Table.events_of_log⟩
  have untraced := parse_untraced text tracer limit
  refine ⟨fun e refused => ?_, fun d parsed => ⟨?_, same_of_bare_eq (bare_bare d)⟩, t.gains_parse text _⟩
  · rw [untraced, refused]
    rfl
  · rw [untraced, parsed]
    rfl

/-- The square of a sum that is recorded. -/
def squaredAbove : Dice := .arithmetic (.pool [.die .fudge, .die .percentile] none) .power 2 (some .memory)

/-- The same square, of which the sum is recorded. -/
def squaredBelow : Dice := .arithmetic (.pool [.die .fudge, .die .percentile] (some (.log .info))) .power 2 none

theorem squared_transparent : squaredAbove.bare = squaredBelow.bare ∧ (squaredAbove == squaredBelow) = true ∧
    ∀ t t' : Table, t.SameDraws t' → ∀ ops, (t'.asks squaredBelow ops).1 = (t.asks squaredAbove ops).1 := by
  obtain ⟨trees, -⟩ := tracing_transparent
  obtain ⟨⟨same, -⟩, asked⟩ := trees squaredAbove squaredBelow rfl
  exact ⟨rfl, same, fun t t' draws ops => (asked t t' draws ops).1⟩

end Dice
end DiceNotation
