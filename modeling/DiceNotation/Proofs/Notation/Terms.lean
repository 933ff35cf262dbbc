import DiceNotation.Proofs.Notation.Phrase

/-! The phrase that the notation of a tree spells. The items of a pool are gathered: equal dice where the first
    of them stands, and the terms of an item that is itself a sum among the others. -/

namespace DiceNotation

/-- A part of a written sum: dice that are counted together, or the terms of another item. -/
inductive Part
  | dice (die : Die) (count : Nat)
  | other (terms : List Phrase)

namespace Part

def die? : Part → Option Die
  | dice d _ => some d
  | other _ => none

def terms : Part → List Phrase
  | dice d count => [.plain { count, die := d }]
  | other terms => terms

/-- One more part: counted with equal dice if there are any. -/
def insert (part : Part) : List Part → List Part
  | [] => [part]
  | p :: ps =>
    match part, p with
    | dice d n, dice d' m => if d = d' then dice d' (m + n) :: ps else p :: insert part ps
    | _, _ => p :: insert part ps

def gather (items : List Part) : List Part := items.foldl (fun parts item => insert item parts) []

end Part

/-- Terms as one phrase: a single term stands for itself. -/
def Phrase.join : List Phrase → Phrase
  | [p] => p
  | ps => .sum ps

namespace Dice

/-- The plain group of equal dice, or of a selection from them. -/
def simpleGroup? : Dice → Option PlainGroup
  | die d => some { count := 1, die := d }
  | pool (die d :: ds) _ => some { count := ds.length + 1, die := d }
  | selection (die d :: ds) _ selector k _ =>
    some { count := ds.length + 1, die := d, modifiers := { selection := some (selector, k) } }
  | _ => none

theorem simpleGroup?_pool {count : Nat} (hcount : 1 ≤ count) (d : Die) (tracer : Option Tracer) :
    simpleGroup? (.pool (List.replicate count (.die d)) tracer) = some { count, die := d } := by
  obtain ⟨n, rfl⟩ := Nat.exists_eq_add_of_le' hcount
  rw [List.replicate_succ, simpleGroup?, List.length_replicate]

theorem simpleGroup?_selection {count : Nat} (hcount : 1 ≤ count) (d : Die) (selector : Selector) (k : Nat)
    (poolTracer tracer : Option Tracer) :
    simpleGroup? (.selection (List.replicate count (.die d)) poolTracer selector k tracer) =
      some { count, die := d, modifiers := { selection := some (selector, k) } } := by
  obtain ⟨n, rfl⟩ := Nat.exists_eq_add_of_le' hcount
  rw [List.replicate_succ, simpleGroup?, List.length_replicate]

/-- The trigger of a written explosion: the highest face is not written. -/
def trigger (inner : Dice) (comparison : Comparison) (threshold : Outcome) : Trigger where
  comparison := comparison
  threshold := if comparison = .equals ∧ threshold = inner.highestFace then none else some threshold

section
variable {inner other : Dice} {comparison : Comparison} {threshold : Outcome}

theorem trigger_congr (h : other.highestFace = inner.highestFace) :
    other.trigger comparison threshold = inner.trigger comparison threshold := by
  rw [trigger, trigger, h]

theorem equals_of_trigger (h : (inner.trigger comparison threshold).threshold = none) : comparison = .equals := by
  unfold trigger at h
  split at h
  · next heq => exact heq.1
  · cases h

theorem eq_of_trigger {n : Outcome} (h : n ∈ (inner.trigger comparison threshold).threshold) : n = threshold := by
  unfold trigger at h
  split at h
  · cases h
  · cases h
    rfl

theorem getD_trigger : (inner.trigger comparison threshold).threshold.getD inner.highestFace = threshold := by
  unfold trigger
  split
  · next heq => exact heq.2.symm
  · rfl

end

/-- The plain group of an explosion of equal dice. -/
def plainGroup? : Dice → Option PlainGroup
  | explosion inner comparison threshold _ _ =>
    (simpleGroup? inner).map fun g =>
      { g with modifiers := { g.modifiers with trigger := some (inner.trigger comparison threshold) } }
  | d => simpleGroup? d

mutual
/-- The terms of the notation of a tree. -/
def terms : Dice → List Phrase
  | pool items _ => (Part.gather (parts items)).flatMap Part.terms
  | arithmetic inner operator operand _ => [.chain (.join (terms inner)) operator operand]
  | d => (plainGroup? d).toList.map .plain

/-- The items of a pool as parts. -/
def parts : List Dice → List Part
  | [] => []
  | die d :: ds => .dice d 1 :: parts ds
  | d :: ds => .other (terms d) :: parts ds
end

/-- An item of a pool as a part. -/
def part : Dice → Part
  | die d => .dice d 1
  | d => .other (terms d)

theorem parts_eq_map (items : List Dice) : parts items = items.map part := by
  induction items with
  | nil => rfl
  | cons d ds ih => cases d <;> simp only [parts, ih, List.map_cons, part]

theorem part_terms (d : Dice) : d.part.terms = d.terms := by
  cases d <;> rfl

theorem part_eq (d : Dice) : (∃ a, d = .die a) ∨ d.part = .other d.terms := by
  cases d with
  | die a => exact .inl ⟨a, rfl⟩
  | _ => exact .inr rfl

theorem map_part_ne_nil {items : List Dice} (two : 2 ≤ items.length) : items.map part ≠ [] := by
  intro hmap
  rw [List.map_eq_nil_iff.mp hmap] at two
  cases two

/-- The phrase that the notation of a tree spells. -/
def phrase (d : Dice) : Phrase := .join d.terms

end Dice

/-! ### Gathering -/

namespace Part

def diceOf (ps : List Part) : List Die := ps.filterMap die?

theorem diceOf_append (ps qs : List Part) : diceOf (ps ++ qs) = diceOf ps ++ diceOf qs := List.filterMap_append

variable {part : Part} {ps items : List Part}

theorem insert_of_not_mem (h : ∀ d ∈ part.die?, d ∉ diceOf ps) : insert part ps = ps ++ [part] := by
  induction ps with
  | nil => rfl
  | cons p ps ih =>
    have later : insert part ps = ps ++ [part] := ih fun d hd hmem => h d hd (by
      cases p with
      | dice d' m => exact List.mem_cons_of_mem _ hmem
      | other ts => exact hmem)
    cases part with
    | other ts => exact congrArg (p :: ·) later
    | dice d n =>
      cases p with
      | other ts => exact congrArg (other ts :: ·) later
      | dice d' m =>
        have hne : d ≠ d' := by
          rintro rfl
          exact h d rfl List.mem_cons_self
        rw [insert, if_neg hne, later]
        rfl

theorem diceOf_insert_of_mem {d : Die} (n : Nat) (h : d ∈ diceOf ps) : diceOf (insert (dice d n) ps) = diceOf ps := by
  induction ps with
  | nil => cases h
  | cons p ps ih =>
    cases p with
    | other ts => exact ih h
    | dice d' m =>
      by_cases heq : d = d'
      · rw [insert, if_pos heq]
        rfl
      · rw [insert, if_neg heq]
        have hmem : d ∈ diceOf ps := (List.mem_cons.mp h).resolve_left heq
        exact congrArg (d' :: ·) (ih hmem)

theorem foldl_insert_of_nodup (h : (diceOf (ps ++ items)).Nodup) :
    items.foldl (fun parts item => insert item parts) ps = ps ++ items := by
  induction items generalizing ps with
  | nil => exact (List.append_nil ps).symm
  | cons item items ih =>
    have hinsert : insert item ps = ps ++ [item] := insert_of_not_mem fun d hd hmem => by
      cases item with
      | other ts => cases hd
      | dice d' n =>
        cases hd
        rw [diceOf_append, List.nodup_append] at h
        exact h.2.2 d hmem d List.mem_cons_self rfl
    rw [← List.singleton_append, ← List.append_assoc] at h
    rw [List.foldl_cons, hinsert, ih h, List.append_assoc]
    rfl

theorem gather_of_nodup (h : (diceOf items).Nodup) : gather items = items :=
  @foldl_insert_of_nodup [] items h

theorem forall_insert {Q : Part → Prop} (add : ∀ d n m, Q (dice d m) → Q (dice d n) → Q (dice d (m + n)))
    (hpart : Q part) (hps : ∀ p ∈ ps, Q p) : ∀ p ∈ insert part ps, Q p := by
  induction ps with
  | nil => exact List.forall_mem_singleton.mpr hpart
  | cons q ps ih =>
    obtain ⟨hq, hlater⟩ := List.forall_mem_cons.mp hps
    have skipped : ∀ p ∈ q :: insert part ps, Q p := List.forall_mem_cons.mpr ⟨hq, ih hlater⟩
    cases part with
    | other ts => exact skipped
    | dice d n =>
      cases q with
      | other ts => exact skipped
      | dice d' m =>
        rw [insert]
        split
        · next heq =>
          subst heq
          exact List.forall_mem_cons.mpr ⟨add d n m hq hpart, hlater⟩
        · exact skipped

/-- What holds of all items and is kept when counts are added holds of all parts. -/
theorem forall_gather {Q : Part → Prop} (h : ∀ item ∈ items, Q item)
    (add : ∀ d n m, Q (dice d m) → Q (dice d n) → Q (dice d (m + n))) : ∀ p ∈ gather items, Q p := by
  suffices ∀ ps : List Part, (∀ p ∈ ps, Q p) → ∀ p ∈ items.foldl (fun parts item => insert item parts) ps, Q p from
    this [] (List.forall_mem_nil _)
  intro ps hps
  induction items generalizing ps with
  | nil => exact hps
  | cons item items ih =>
    obtain ⟨hitem, hitems⟩ := List.forall_mem_cons.mp h
    exact ih hitems _ (forall_insert add hitem hps)

theorem insert_ne_nil (part : Part) (ps : List Part) : insert part ps ≠ [] := by
  cases ps with
  | nil => exact List.cons_ne_nil _ _
  | cons p ps =>
    cases part with
    | other ts => cases p <;> exact List.cons_ne_nil _ _
    | dice d n =>
      cases p with
      | other ts => exact List.cons_ne_nil _ _
      | dice d' m =>
        rw [insert]
        split <;> exact List.cons_ne_nil _ _

theorem gather_ne_nil (h : items ≠ []) : gather items ≠ [] := by
  suffices ∀ items ps : List Part, ps ≠ [] → items.foldl (fun parts item => insert item parts) ps ≠ [] by
    obtain ⟨item, items, rfl⟩ := List.exists_cons_of_ne_nil h
    exact this items _ (insert_ne_nil item [])
  intro items ps hps
  induction items generalizing ps with
  | nil => exact hps
  | cons item items ih => exact ih _ (insert_ne_nil item ps)

theorem nodup_append_singleton {item : Part} (hps : (diceOf ps).Nodup) (hnew : ∀ d ∈ item.die?, d ∉ diceOf ps) :
    (diceOf (ps ++ [item])).Nodup := by
  rw [diceOf_append, List.nodup_append]
  cases item with
  | other ts => exact ⟨hps, List.nodup_nil, fun _ _ _ hd' => (by cases hd')⟩
  | dice d' n =>
    refine ⟨hps, List.pairwise_singleton _ d', fun d hd e he heq => ?_⟩
    obtain rfl := List.mem_singleton.mp he
    exact hnew _ rfl (heq ▸ hd)

theorem nodup_diceOf_insert (part : Part) (hps : (diceOf ps).Nodup) : (diceOf (insert part ps)).Nodup := by
  by_cases hmem : ∃ d ∈ part.die?, d ∈ diceOf ps
  · obtain ⟨d, hd, hmem⟩ := hmem
    cases part with
    | other ts => cases hd
    | dice d' n =>
      cases hd
      rwa [diceOf_insert_of_mem n hmem]
  · have hnew : ∀ d ∈ part.die?, d ∉ diceOf ps := fun d hd hd' => hmem ⟨d, hd, hd'⟩
    rw [insert_of_not_mem hnew]
    exact nodup_append_singleton hps hnew

/-- No die is counted in two parts. -/
theorem nodup_diceOf_gather (items : List Part) : (diceOf (gather items)).Nodup := by
  suffices ∀ ps, (diceOf ps).Nodup → (diceOf (items.foldl (fun parts item => insert item parts) ps)).Nodup from
    this [] List.nodup_nil
  induction items with
  | nil => exact fun _ => id
  | cons item items ih => exact fun ps hps => ih _ (nodup_diceOf_insert item hps)

section
variable {f : Part → List α}

theorem insert_flatMap_perm (add : ∀ d m n, (f (dice d (m + n))).Perm (f (dice d m) ++ f (dice d n))) (part : Part)
    (ps : List Part) : ((insert part ps).flatMap f).Perm (ps.flatMap f ++ f part) := by
  induction ps with
  | nil => simp [insert]
  | cons p ps ih =>
    have skipped : ((p :: insert part ps).flatMap f).Perm ((p :: ps).flatMap f ++ f part) := by
      rw [List.flatMap_cons, List.flatMap_cons, List.append_assoc]
      exact ih.append_left _
    cases part with
    | other ts => exact skipped
    | dice d n =>
      cases p with
      | other ts => exact skipped
      | dice d' m =>
        rw [insert]
        split
        · next heq =>
          subst heq
          rw [List.flatMap_cons, List.flatMap_cons, List.append_assoc]
          refine ((add d m n).append_right _).trans ?_
          rw [List.append_assoc]
          exact List.perm_append_comm.append_left _
        · exact skipped

/-- What the parts are made of is what the items are made of, in another order. -/
theorem gather_flatMap_perm (add : ∀ d m n, (f (dice d (m + n))).Perm (f (dice d m) ++ f (dice d n)))
    (items : List Part) : ((gather items).flatMap f).Perm (items.flatMap f) := by
  suffices ∀ ps : List Part, ((items.foldl (fun parts item => insert item parts) ps).flatMap f).Perm
      (ps.flatMap f ++ items.flatMap f) from this []
  induction items with
  | nil => simp
  | cons item items ih =>
    intro ps
    rw [List.foldl_cons, List.flatMap_cons, ← List.append_assoc]
    exact (ih _).trans ((insert_flatMap_perm add item ps).append_right _)

end

/-- Terms that are no equal dice are gathered as they stand. -/
theorem other_mem_gather_iff {ts : List Phrase} : other ts ∈ gather items ↔ other ts ∈ items := by
  have mem_iff : ∀ ps : List Part, other ts ∈ ps ↔ ts ∈ ps.flatMap fun q => match q with
      | dice _ _ => []
      | other ts => [ts] := fun ps => by
    rw [List.mem_flatMap]
    constructor
    · exact fun h => ⟨_, h, List.mem_singleton_self ts⟩
    · rintro ⟨q, hq, hts⟩
      cases q with
      | dice d count => cases hts
      | other ts' =>
        obtain rfl := List.mem_singleton.mp hts
        exact hq
  rw [mem_iff, mem_iff]
  exact (gather_flatMap_perm (fun _ _ _ => .nil) items).mem_iff

theorem gather_replicate {count : Nat} (d : Die) (h : 1 ≤ count) :
    gather (List.replicate count (dice d 1)) = [dice d count] := by
  obtain ⟨n, rfl⟩ := Nat.exists_eq_add_of_le' h
  suffices ∀ m, (List.replicate n (dice d 1)).foldl (fun parts item => insert item parts) [dice d m] = [dice d (m + n)] by
    rw [gather, List.replicate_succ, List.foldl_cons, insert, this, Nat.add_comm]
  clear h
  intro m
  induction n generalizing m with
  | zero => rfl
  | succ n ih =>
    rw [List.replicate_succ, List.foldl_cons, insert, if_pos rfl, ih, Nat.add_assoc, Nat.add_comm 1 n]

end Part

/-- The terms of a part that is no equal dice are those of an item that is no leaf. -/
theorem Dice.exists_item_of_other {items : List Dice} {ts : List Phrase}
    (h : .other ts ∈ Part.gather (items.map part)) : ∃ d ∈ items, (∀ a, d ≠ .die a) ∧ d.terms = ts := by
  obtain ⟨d, hd, hpart⟩ := List.mem_map.mp (Part.other_mem_gather_iff.mp h)
  refine ⟨d, hd, ?_, by rw [← part_terms, hpart]; rfl⟩
  rintro a rfl
  cases hpart

end DiceNotation
