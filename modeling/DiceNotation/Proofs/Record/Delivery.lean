import DiceNotation.Table

/-! What records leave behind at a table. Each emission is appended, to a log or to the events as its tracer says, and
    nothing else at the table changes. -/

namespace DiceNotation

namespace Emission

/-- The record of an emission that a tracer is handed. -/
def recordFor? (tracer : Tracer) (x : Emission) : Option Record :=
  if x.tracer = tracer then some x.record else none

theorem recordFor?_eq_some_iff {tracer : Tracer} {x : Emission} {record : Record} :
    x.recordFor? tracer = some record ↔ x.tracer = tracer ∧ x.record = record := by
  simp [recordFor?]

/-- The event that an emission sends out. -/
def event? (x : Emission) : Option Event :=
  match x.tracer with
  | .memory _ => none
  | .log level => some (.recorded level x.record.notice)

end Emission

/-- What dice emit that are asked several questions in a row, the first one with draws from number `next` on. -/
def Dice.emissions (supply : Supply) (d : Dice) : List Operation → Nat → List Emission
  | [], _ => []
  | op :: ops, next =>
    let played := d.play supply op next
    played.emitted ++ emissions supply d ops played.next

/-- The notice that an event of a level gives. -/
def Event.noticeAt? (level : Level) : Event → Option Notice
  | .recorded own notice => if own = level then some notice else none
  | .parsed _ _ => none

theorem noticeAt?_event? (level : Level) (x : Emission) :
    x.event?.bind (Event.noticeAt? level) = (x.recordFor? (.log level)).map Record.notice := by
  obtain ⟨tracer, record⟩ := x
  cases tracer with
  | memory id => simp [Emission.event?, Emission.recordFor?]
  | log own => by_cases same : own = level <;> simp [Emission.event?, Emission.recordFor?, Event.noticeAt?, same]

namespace Table

/-- The notices that went out at a level. -/
def noticesAt (t : Table) (level : Level) : List Notice := t.events.toList.filterMap (Event.noticeAt? level)

/-- From one table to the other a tracer was handed some records: the log of a memory tracer has them after those that
    it had, and of a log tracer the notices of them went out after the earlier ones. -/
def Gains (t t' : Table) (tracer : Tracer) (new : List Record) : Prop :=
  match tracer with
  | .memory id => (t'.log id).toList = (t.log id).toList ++ new
  | .log level => t'.noticesAt level = t.noticesAt level ++ new.map Record.notice

/-- The new table is the old one after some emissions, apart from the draws taken. -/
structure Extends (t t' : Table) (emitted : List Emission) : Prop where
  supply : t'.supply = t.supply
  logs : ∀ id, (t'.log id).toList = (t.log id).toList ++ emitted.filterMap (Emission.recordFor? (.memory id))
  events : t'.events.toList = t.events.toList ++ emitted.filterMap Emission.event?

namespace Extends
variable {t t' t'' : Table} {emitted more : List Emission}

theorem refl (t : Table) : Extends t t [] := ⟨rfl, fun _ => (List.append_nil _).symm, (List.append_nil _).symm⟩

theorem trans (h : Extends t t' emitted) (h' : Extends t' t'' more) : Extends t t'' (emitted ++ more) where
  supply := h'.supply.trans h.supply
  logs id := by rw [h'.logs, h.logs, List.filterMap_append, List.append_assoc]
  events := by rw [h'.events, h.events, List.filterMap_append, List.append_assoc]

/-- A tracer is handed what is emitted to it. -/
theorem gains (h : Extends t t' emitted) (tracer : Tracer) :
    t.Gains t' tracer (emitted.filterMap (Emission.recordFor? tracer)) := by
  cases tracer with
  | memory id => exact h.logs id
  | log level =>
    simp only [Gains, noticesAt, h.events, List.filterMap_append, List.filterMap_filterMap, List.map_filterMap,
      noticeAt?_event?]

end Extends

theorem extends_deliver (t : Table) (x : Emission) : Extends t (t.deliver x) [x] := by
  obtain ⟨tracer, record⟩ := x
  cases tracer with
  | memory id =>
    refine ⟨rfl, fun other => ?_, (List.append_nil _).symm⟩
    have kept : (t.deliver ⟨.memory id, record⟩).log other =
        if other = id then (t.log id).push record else t.log other := t.logs.get_modify id other _
    rw [kept]
    split
    · next own => simp [Emission.recordFor?, own]
    · next apart => simp [Emission.recordFor?, Ne.symm apart]
  | log level => exact ⟨rfl, fun id => (List.append_nil _).symm, Array.toList_push⟩

theorem extends_foldl_deliver (emitted : List Emission) (t : Table) : Extends t (emitted.foldl deliver t) emitted := by
  induction emitted generalizing t with
  | nil => exact .refl t
  | cons x emitted ih => exact (extends_deliver t x).trans (ih (t.deliver x))

theorem drawn_deliver (t : Table) (x : Emission) : (t.deliver x).drawn = t.drawn := by
  unfold deliver
  split <;> rfl

theorem drawn_foldl_deliver (emitted : List Emission) (t : Table) : (emitted.foldl deliver t).drawn = t.drawn := by
  induction emitted generalizing t with
  | nil => rfl
  | cons x emitted ih => rw [List.foldl_cons, ih, drawn_deliver]

/-! ### Questions -/

theorem extends_ask (t : Table) (d : Dice) (op : Operation) :
    Extends t (t.ask d op).2 (d.play t.supply op t.drawn).emitted := by
  have delivered := extends_foldl_deliver (d.play t.supply op t.drawn).emitted
    { t with drawn := (d.play t.supply op t.drawn).next }
  exact ⟨delivered.supply, delivered.logs, delivered.events⟩

theorem drawn_ask (t : Table) (d : Dice) (op : Operation) :
    (t.ask d op).2.drawn = (d.play t.supply op t.drawn).next :=
  drawn_foldl_deliver _ _

/-- Asks dice several questions in a row. -/
def asks (t : Table) (d : Dice) : List Operation → List Outcome × Table
  | [] => ([], t)
  | op :: ops =>
    let (first, t) := t.ask d op
    let (others, t) := asks t d ops
    (first :: others, t)

theorem asks_cons (t : Table) (d : Dice) (op : Operation) (ops : List Operation) :
    t.asks d (op :: ops) = ((t.ask d op).1 :: ((t.ask d op).2.asks d ops).1, ((t.ask d op).2.asks d ops).2) := rfl

/-- Questions in a row leave behind what the dice emit. -/
theorem extends_asks (t : Table) (d : Dice) (ops : List Operation) :
    Extends t (t.asks d ops).2 (d.emissions t.supply ops t.drawn) := by
  induction ops generalizing t with
  | nil => exact .refl t
  | cons op ops ih =>
    have later := ih (t.ask d op).2
    rw [(t.extends_ask d op).supply, drawn_ask] at later
    exact (t.extends_ask d op).trans later

end Table
end DiceNotation
