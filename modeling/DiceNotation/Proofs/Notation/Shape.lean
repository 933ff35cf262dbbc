import DiceNotation.Dice.Parse
import DiceNotation.Proofs.Faces
import DiceNotation.Proofs.Notation.Lexeme

/-! The shape of the trees that notations describe: every tree that is parsed is the empty pool or has it. Each
    reader takes some tokens off the front, so the numbers of those that it leaves fit too, and what it builds
    from them can be written again. Each plain group takes one die letter, so a text with few letters has few
    groups. -/

namespace DiceNotation

/-! ### Shapes -/

/-- The numbers of the die can be written; the smallest outcome cannot. -/
def Die.Writable : Die → Prop
  | .standard sides _ => sides ≤ Token.greatestNumber
  | .custom faces _ => ∀ n ∈ faces, n ≠ .least
  | _ => True

/-- The operand can be written after the operator, where a plus or minus takes no sign. -/
def Operator.Writable (operator : Operator) (operand : Outcome) : Prop :=
  operand ≠ .least ∧ (operator = .add ∨ operator = .subtract → 0 ≤ operand)

namespace Dice

/-- Equal dice, or a selection from them; the tracers satisfy `T`. -/
inductive Simple (T : Option Tracer → Prop) : Dice → Prop
  | die {d : Die} (writable : d.Writable) : Simple T (.die d)
  | copies {count : Nat} {d : Die} {tracer : Option Tracer} (two : 2 ≤ count) (few : count ≤ maxDice)
      (writable : d.Writable) (traced : T tracer) : Simple T (.pool (List.replicate count (.die d)) tracer)
  | selection {count k : Nat} {d : Die} {selector : Selector} {poolTracer tracer : Option Tracer} (one : 1 ≤ k)
      (le : k ≤ count) (few : count ≤ maxDice) (writable : d.Writable) (poolTraced : T poolTracer)
      (traced : T tracer) : Simple T (.selection (List.replicate count (.die d)) poolTracer selector k tracer)

/-- The node of a plain group; the limits satisfy `L`. -/
inductive Plain (T : Option Tracer → Prop) (L : Nat → Prop) : Dice → Prop
  | simple {d : Dice} (inside : Simple T d) : Plain T L d
  | explosion {inner : Dice} {comparison : Comparison} {threshold : Outcome} {limit : Nat} {tracer : Option Tracer}
      (inside : Simple T inner) (splits : comparison.Splits threshold inner.bounds) (writable : threshold ≠ .least)
      (limited : L limit) (traced : T tracer) : Plain T L (.explosion inner comparison threshold limit tracer)

/-- The node of an expression. -/
inductive Shape (T : Option Tracer → Prop) (L : Nat → Prop) : Dice → Prop
  | plain {d : Dice} (group : Plain T L d) : Shape T L d
  | arithmetic {inner : Dice} {operator : Operator} {operand : Outcome} {tracer : Option Tracer}
      (inside : Shape T L inner) (accepts : operator.Accepts operand) (writable : operator.Writable operand)
      (traced : T tracer) : Shape T L (.arithmetic inner operator operand tracer)
  | sum {items : List Dice} {tracer : Option Tracer} (two : 2 ≤ items.length) (each : ∀ d ∈ items, Shape T L d)
      (traced : T tracer) : Shape T L (.pool items tracer)

/-- The node of an expression that is written with a number of die letters, one for each plain group. -/
inductive Lettered (T : Option Tracer → Prop) (L : Nat → Prop) : Nat → Dice → Prop
  | plain {d : Dice} (group : Plain T L d) : Lettered T L 1 d
  | arithmetic {letters : Nat} {inner : Dice} {operator : Operator} {operand : Outcome} {tracer : Option Tracer}
      (inside : Lettered T L letters inner) (accepts : operator.Accepts operand)
      (writable : operator.Writable operand) (traced : T tracer) :
      Lettered T L letters (.arithmetic inner operator operand tracer)
  | sum {items : List (Nat × Dice)} {tracer : Option Tracer} (two : 2 ≤ items.length)
      (each : ∀ item ∈ items, Lettered T L item.1 item.2) (traced : T tracer) :
      Lettered T L (items.map Prod.fst).sum (.pool (items.map Prod.snd) tracer)

variable {T : Option Tracer → Prop} {L : Nat → Prop} {d : Dice} {letters : Nat}

theorem Lettered.shape (h : Lettered T L letters d) : Shape T L d := by
  induction h with
  | plain group => exact .plain group
  | arithmetic _ accepts writable traced ih => exact .arithmetic ih accepts writable traced
  | sum two _ traced ih => exact .sum (by rwa [List.length_map]) (List.forall_mem_map.mpr ih) traced

theorem greatest_ne_least {d : Die} (h : d.Writable) : d.greatest ≠ .least := by
  intro heq
  have hval := congrArg Outcome.val heq
  cases d with
  | standard sides enough =>
    rw [Die.greatest, Outcome.val_ofInt, Outcome.val_least] at hval
    omega
  | fudge => cases hval
  | percentile => cases hval
  | custom faces enough =>
    exact h _ (List.max?_eq_some_iff.mp (Die.max?_eq_greatest enough)).1 heq

theorem max?_replicate_succ (n : Nat) (a : Outcome) : (List.replicate (n + 1) a).max? = some a :=
  List.max?_eq_some_iff.mpr ⟨List.mem_replicate.mpr ⟨Nat.succ_ne_zero n, rfl⟩, fun b hb => by
    rw [(List.mem_replicate.mp hb).2]
    exact Outcome.le_refl a⟩

theorem highestFaces_replicate {count : Nat} (hcount : 1 ≤ count) (d : Die) :
    (highestFaces (List.replicate count (.die d))).max?.getD 0 = d.greatest := by
  obtain ⟨n, rfl⟩ := Nat.exists_eq_add_of_le' hcount
  rw [highestFaces_eq_map, List.map_replicate, max?_replicate_succ]
  rfl

theorem Simple.highestFace_ne_least (h : Simple T d) : d.highestFace ≠ .least := by
  cases h with
  | die writable => exact greatest_ne_least writable
  | copies two few writable =>
    rw [highestFace, highestFaces_replicate (by omega)]
    exact greatest_ne_least writable
  | selection one le few writable =>
    rw [highestFace, highestFaces_replicate (by omega)]
    exact greatest_ne_least writable

end Dice

/-! ### Readers -/

/-- The numbers of the tokens fit. -/
def Lexed (tokens : List Placed) : Prop := ∀ p ∈ tokens, p.token.Fits

/-- What is left of the tokens after some of them, which hold a number of die letters. -/
def After (letters : Nat) (tokens rest : List Placed) : Prop :=
  ∃ taken : List Placed, tokens = taken ++ rest ∧ (taken.map Placed.token).count .die = letters

variable {tokens middle rest : List Placed} {settings : Settings} {n m : Nat}

theorem After.refl (tokens : List Placed) : After 0 tokens tokens := ⟨[], rfl, rfl⟩

theorem After.cons {p : Placed} (hp : p.token ≠ .die) (h : After n tokens rest) : After n (p :: tokens) rest := by
  obtain ⟨taken, rfl, count⟩ := h
  exact ⟨p :: taken, rfl, by rw [List.map_cons, List.count_cons_of_ne hp, count]⟩

theorem After.die {offset : Nat} (h : After n tokens rest) : After (n + 1) (⟨offset, .die⟩ :: tokens) rest := by
  obtain ⟨taken, rfl, count⟩ := h
  exact ⟨⟨offset, .die⟩ :: taken, rfl, by rw [List.map_cons, List.count_cons_self, count]⟩

theorem After.trans (h : After n tokens middle) (h' : After m middle rest) : After (n + m) tokens rest := by
  obtain ⟨taken, rfl, rfl⟩ := h
  obtain ⟨more, rfl, rfl⟩ := h'
  exact ⟨taken ++ more, (List.append_assoc _ _ _).symm, by rw [List.map_append, List.count_append]⟩

theorem Lexed.after (h : Lexed tokens) (after : After n tokens rest) : Lexed rest := by
  obtain ⟨taken, rfl, -⟩ := after
  exact fun p hp => h p (List.mem_append_right taken hp)

theorem Lexed.tail {p : Placed} (h : Lexed (p :: rest)) : Lexed rest := fun q hq => h q (List.mem_cons_of_mem p hq)

theorem Lexed.number {offset n : Nat} (h : Lexed (⟨offset, .number n⟩ :: rest)) : n ≤ Token.greatestNumber :=
  h _ List.mem_cons_self

theorem ofInt_ne_least (n : Nat) : Outcome.ofInt n ≠ .least := by
  intro heq
  have hval := congrArg Outcome.val heq
  rw [Outcome.val_ofInt, Outcome.val_least] at hval
  omega

theorem ofInt_neg_ne_least {n : Nat} (h : n ≤ Token.greatestNumber) : Outcome.ofInt (-n) ≠ .least := by
  intro heq
  have hval := congrArg Outcome.val heq
  rw [Outcome.val_ofInt, Outcome.val_least] at hval
  unfold Token.greatestNumber at h
  omega

theorem readSigned_writable {face : Outcome} (lexed : Lexed tokens) (h : readSigned tokens = .ok (face, rest)) :
    face ≠ .least ∧ After 0 tokens rest := by
  unfold readSigned at h
  split at h
  · cases h
    exact ⟨ofInt_ne_least _, .cons (by simp) (.refl rest)⟩
  · cases h
    exact ⟨ofInt_neg_ne_least lexed.tail.number, .cons (by simp) (.cons (by simp) (.refl rest))⟩
  · exact absurd h refuseFor_ne_ok
  · exact absurd h refuseFor_ne_ok

theorem looseNumber?_after (h : looseNumber? tokens = some (n, rest)) : After 0 tokens rest := by
  obtain ⟨⟨_, rfl⟩, -⟩ := looseNumber?_eq_some_iff.mp h
  exact .cons (by simp) (.refl rest)

theorem readFaces_writable {faces : List Outcome} (lexed : Lexed tokens) (h : readFaces tokens = .ok (faces, rest)) :
    (∀ n ∈ faces, n ≠ .least) ∧ After 0 tokens rest := by
  fun_induction readFaces tokens generalizing faces rest with
  | case1 => cases h
  | case2 tokens face offset after signed ih =>
    obtain ⟨hface, hafter⟩ := readSigned_writable lexed signed
    cases more : readFaces after with
    | error e => rw [more] at h; cases h
    | ok read =>
      rw [more] at h
      cases h
      obtain ⟨hfaces, hrest⟩ := ih (lexed.after hafter).tail more
      exact ⟨List.forall_mem_cons.mpr ⟨hface, hfaces⟩, hafter.trans (.cons (by simp) hrest)⟩
  | case3 tokens face offset after signed =>
    cases h
    obtain ⟨hface, hafter⟩ := readSigned_writable lexed signed
    exact ⟨List.forall_mem_singleton.mpr hface, hafter.trans (.cons (by simp) (.refl after))⟩
  | case4 => exact absurd h refuseFor_ne_ok

theorem ofSides_writable {sides : Nat} {d : Die} (fits : sides ≤ Token.greatestNumber)
    (h : Die.ofSides sides = .ok d) : d.Writable := by
  unfold Die.ofSides at h
  split at h
  · cases h
    exact fits
  · cases h

theorem ofFaces_writable {faces : List Outcome} {d : Die} (hfaces : ∀ n ∈ faces, n ≠ .least)
    (h : Die.ofFaces faces = .ok d) : d.Writable := by
  unfold Die.ofFaces at h
  split at h
  · cases h
    exact hfaces
  · cases h

theorem map_eq_ok {f : α → β} {x : Except Error α} {b : β} (h : x.map f = .ok b) : ∃ a, x = .ok a ∧ f a = b := by
  cases x with
  | error e => cases h
  | ok a =>
    cases h
    exact ⟨a, rfl, rfl⟩

theorem readDie_writable {d : Die} (lexed : Lexed tokens) (h : readDie tokens = .ok (d, rest)) :
    d.Writable ∧ After 0 tokens rest := by
  unfold readDie at h
  split at h
  · obtain ⟨_, sided, heq⟩ := map_eq_ok h
    cases heq
    exact ⟨ofSides_writable lexed.number sided, .cons (by simp) (.refl _)⟩
  · cases h
    exact ⟨trivial, .cons (by simp) (.refl _)⟩
  · cases h
    exact ⟨trivial, .cons (by simp) (.refl _)⟩
  · split at h
    · cases h
    · next listed =>
      obtain ⟨hfaces, hrest⟩ := readFaces_writable lexed.tail listed
      obtain ⟨_, faced, heq⟩ := map_eq_ok h
      cases heq
      exact ⟨ofFaces_writable hfaces faced, .cons (by simp) hrest⟩
  · obtain ⟨_, sided, heq⟩ := map_eq_ok h
    cases heq
    exact ⟨ofSides_writable (by decide) sided, .refl _⟩

theorem readCount_few {count : Nat} (h : readCount tokens = .ok (count, rest)) :
    (1 ≤ count ∧ count ≤ maxDice) ∧ After 0 tokens rest := by
  obtain ⟨_, rfl, some, few⟩ | ⟨rfl, rfl, -⟩ := readCount_eq_ok_iff.mp h
  · exact ⟨⟨Nat.one_le_iff_ne_zero.mpr some, few⟩, .cons (by simp) (.refl _)⟩
  · exact ⟨⟨Nat.le_refl 1, Nat.le_add_left 1 9999⟩, .refl _⟩

theorem readTrigger_writable {t : Trigger} (lexed : Lexed tokens) (h : readTrigger tokens = .ok (t, rest)) :
    (∀ n ∈ t.threshold, n ≠ .least) ∧ After 0 tokens rest := by
  unfold readTrigger at h
  split at h
  · obtain ⟨_, signed, heq⟩ := map_eq_ok h
    cases heq
    obtain ⟨hn, hrest⟩ := readSigned_writable lexed.tail signed
    refine ⟨?_, .cons (by simp) hrest⟩
    rintro _ ⟨⟩
    exact hn
  · split at h
    · next loose =>
      cases h
      refine ⟨?_, looseNumber?_after loose⟩
      rintro _ ⟨⟩
      exact ofInt_ne_least _
    · cases h
      exact ⟨fun _ hn => (by cases hn), .refl _⟩

theorem readRank_after (tokens : List Placed) : After 0 tokens (readRank tokens).2 := by
  unfold readRank
  cases loose : looseNumber? tokens with
  | none => exact .refl tokens
  | some read => exact looseNumber?_after loose

theorem readModifiers_writable {found m : Modifiers} (lexed : Lexed tokens)
    (hfound : ∀ t ∈ found.trigger, ∀ n ∈ t.threshold, n ≠ .least) (h : readModifiers found tokens = .ok (m, rest)) :
    (∀ t ∈ m.trigger, ∀ n ∈ t.threshold, n ≠ .least) ∧ After 0 tokens rest := by
  fun_induction readModifiers found tokens with
  | case1 => cases h
  | case2 => cases h
  | case3 found offset after t middle triggered _ ih =>
    obtain ⟨hthreshold, hmiddle⟩ := readTrigger_writable lexed.tail triggered
    obtain ⟨htrigger, hrest⟩ := ih (lexed.tail.after hmiddle) (by rintro _ ⟨⟩; exact hthreshold) h
    exact ⟨htrigger, .cons (by simp) (hmiddle.trans hrest)⟩
  | case4 => cases h
  | case5 found offset selector after _ ih =>
    have hmiddle := readRank_after after
    obtain ⟨htrigger, hrest⟩ := ih (lexed.tail.after hmiddle) hfound h
    exact ⟨htrigger, .cons (by simp) (hmiddle.trans hrest)⟩
  | case6 =>
    cases h
    exact ⟨hfound, .refl _⟩

/-! ### Groups and expressions -/

/-- A parsed tree has the tracer and the limit of the settings in every node. -/
def Parsed (settings : Settings) : Dice → Prop :=
  Dice.Shape (· = settings.tracer) (· = max 1 settings.explodeLimit)

/-- A parsed tree that is written with a number of die letters. -/
def Written (settings : Settings) : Nat → Dice → Prop :=
  Dice.Lettered (· = settings.tracer) (· = max 1 settings.explodeLimit)

theorem assemble_simple {count : Nat} {d : Die} {selection : Option (Selector × Nat)} {node : Dice}
    (hcount : 1 ≤ count ∧ count ≤ maxDice) (writable : d.Writable)
    (h : assemble settings count d selection = .ok node) : Dice.Simple (· = settings.tracer) node := by
  cases selection with
  | none =>
    cases h
    split
    · exact .die writable
    · exact .copies (by omega) hcount.2 writable rfl
  | some selection =>
    obtain ⟨⟨hk, hle⟩, rfl⟩ := Pool.select_eq_ok_iff.mp h
    rw [Pool.replicate, List.length_replicate] at hle
    exact .selection hk hle hcount.2 writable rfl rfl

theorem buildGroup_plain {count : Nat} {d : Die} {m : Modifiers} {node : Dice} (hcount : 1 ≤ count ∧ count ≤ maxDice)
    (writable : d.Writable) (hthreshold : ∀ t ∈ m.trigger, ∀ n ∈ t.threshold, n ≠ .least)
    (h : buildGroup settings count d m = .ok node) :
    Dice.Plain (· = settings.tracer) (· = max 1 settings.explodeLimit) node := by
  obtain ⟨inner, assembled, ⟨-, rfl⟩ | ⟨t, triggered, exploded⟩⟩ := buildGroup_cases h
  · exact .simple (assemble_simple hcount writable assembled)
  · have inside := assemble_simple hcount writable assembled
    obtain ⟨splits, rfl⟩ := Dice.explode_eq_ok_iff.mp exploded
    refine .explosion inside splits ?_ rfl rfl
    cases threshold : t.threshold with
    | none => exact inside.highestFace_ne_least
    | some n => exact hthreshold t triggered n threshold

theorem readPlain_plain {d : Dice} (lexed : Lexed tokens) (h : readPlain settings tokens = .ok (d, rest)) :
    Dice.Plain (· = settings.tracer) (· = max 1 settings.explodeLimit) d ∧ After 1 tokens rest := by
  obtain ⟨_, _, _, _, _, _, counted, faced, modified, built⟩ := readPlain_eq_ok_iff.mp h
  obtain ⟨hcount, hafter⟩ := readCount_few counted
  have lexedAfter := lexed.after hafter
  obtain ⟨writable, hmiddle⟩ := readDie_writable lexedAfter.tail faced
  obtain ⟨hthreshold, hrest⟩ :=
    readModifiers_writable (lexedAfter.tail.after hmiddle) (fun _ ht => by cases ht) modified
  exact ⟨buildGroup_plain hcount writable hthreshold built, hafter.trans (hmiddle.trans hrest).die⟩

/-- From tokens whose numbers fit, a reader makes parsed trees out of the groups that it takes. -/
def Reader.Sound (settings : Settings) (reader : Reader Dice) : Prop :=
  ∀ ⦃tokens rest : List Placed⦄ ⦃d : Dice⦄, Lexed tokens → reader.run tokens = .ok (d, rest) →
    ∃ n, Written settings n d ∧ After n tokens rest

theorem groupOf_sound {expression : Reader Dice} (sound : expression.Sound settings) :
    (groupOf settings expression).Sound settings := by
  intro tokens rest d lexed h
  change readGroup settings expression tokens = .ok (d, rest) at h
  unfold readGroup at h
  split at h
  · cases h
  · split at h
    · cases h
    · next inner =>
      cases h
      obtain ⟨n, written, hrest⟩ := sound lexed.tail inner
      exact ⟨n, written, .cons (by simp) (hrest.trans (.cons (by simp) (.refl rest)))⟩
    · exact absurd h refuseFor_ne_ok
  · obtain ⟨group, hrest⟩ := readPlain_plain lexed h
    exact ⟨1, .plain group, hrest⟩
  · obtain ⟨group, hrest⟩ := readPlain_plain lexed h
    exact ⟨1, .plain group, hrest⟩
  · exact absurd h refuseFor_ne_ok

theorem operatorAhead?_after {after : List Placed} {operator : Operator}
    (h : operatorAhead? tokens = some (operator, after)) : After 0 tokens after := by
  obtain ⟨⟨_, rfl⟩, -⟩ := operatorAhead?_eq_some_iff.mp h
  exact .cons (by simp) (.refl after)

/-- After a plus or minus, a constant has no sign. -/
theorem operand_nonneg {after : List Placed} {operator : Operator} {operand : Outcome}
    (ahead : operatorAhead? tokens = some (operator, after)) (signed : readSigned after = .ok (operand, rest))
    (h : operator = .add ∨ operator = .subtract) : 0 ≤ operand := by
  obtain ⟨_, loose⟩ := Option.isSome_iff_exists.mp ((operatorAhead?_eq_some_iff.mp ahead).2 h)
  obtain ⟨⟨_, rfl⟩, -⟩ := looseNumber?_eq_some_iff.mp loose
  cases signed
  exact Outcome.ofInt_mono (Int.natCast_nonneg _)

theorem readChain_written {d last : Dice} (written : Written settings n d) (lexed : Lexed tokens)
    (h : readChain settings d tokens = .ok (last, rest)) : Written settings n last ∧ After 0 tokens rest := by
  fun_induction readChain settings d tokens with
  | case1 =>
    cases h
    exact ⟨written, .refl _⟩
  | case2 => cases h
  | case3 => cases h
  | case4 d tokens operator after ahead operand middle signed next built ih =>
    have hafter := operatorAhead?_after ahead
    obtain ⟨hoperand, hmiddle⟩ := readSigned_writable (lexed.after hafter) signed
    obtain ⟨accepts, rfl⟩ := Dice.apply_eq_ok_iff.mp built
    obtain ⟨hlast, hrest⟩ := ih (.arithmetic written accepts ⟨hoperand, operand_nonneg ahead signed⟩ rfl)
      ((lexed.after hafter).after hmiddle) h
    exact ⟨hlast, hafter.trans (hmiddle.trans hrest)⟩

theorem termOf_sound {group : Reader Dice} (sound : group.Sound settings) : (termOf settings group).Sound settings := by
  intro tokens rest d lexed h
  unfold termOf at h
  simp only at h
  split at h
  · cases h
  · next first =>
    obtain ⟨n, written, hmiddle⟩ := sound lexed first
    obtain ⟨hlast, hrest⟩ := readChain_written written (lexed.after hmiddle) h
    exact ⟨n, hlast, hmiddle.trans hrest⟩

theorem nextTerm?_after {start : List Placed} (h : nextTerm? tokens = some start) : After 0 tokens start := by
  unfold nextTerm? at h
  split at h
  · cases h; exact .cons (by simp) (.refl start)
  · split at h
    · cases h; exact .refl tokens
    · cases h

theorem readTerms_written {term : Reader Dice} (sound : term.Sound settings) {ds : List Dice} (lexed : Lexed tokens)
    (h : readTerms term tokens = .ok (ds, rest)) :
    ∃ items : List (Nat × Dice), items.map Prod.snd = ds ∧ (∀ item ∈ items, Written settings item.1 item.2) ∧
      After (items.map Prod.fst).sum tokens rest := by
  fun_induction readTerms term tokens generalizing ds rest with
  | case1 => exact absurd h refuse_ne_ok
  | case2 =>
    cases h
    exact ⟨[], rfl, List.forall_mem_nil _, .refl _⟩
  | case3 => cases h
  | case4 tokens start started d middle first ih =>
    have hstart := nextTerm?_after started
    obtain ⟨n, written, hmiddle⟩ := sound (lexed.after hstart) first
    obtain ⟨⟨_, _⟩, others, heq⟩ := map_eq_ok h
    cases heq
    obtain ⟨items, rfl, hitems, hrest⟩ := ih ((lexed.after hstart).after hmiddle) others
    refine ⟨(n, d) :: items, rfl, List.forall_mem_cons.mpr ⟨written, hitems⟩, ?_⟩
    rw [List.map_cons, List.sum_cons, ← Nat.zero_add (n + _)]
    exact hstart.trans (hmiddle.trans hrest)

theorem sumOf_sound {term : Reader Dice} (sound : term.Sound settings) : (sumOf settings term).Sound settings := by
  intro tokens rest d lexed h
  unfold sumOf at h
  simp only at h
  split at h
  · cases h
  · next first middle read =>
    obtain ⟨n, written, hmiddle⟩ := sound lexed read
    obtain ⟨⟨others, _⟩, more, heq⟩ := map_eq_ok h
    cases heq
    obtain ⟨items, rfl, hitems, hrest⟩ := readTerms_written sound (lexed.after hmiddle) more
    cases items with
    | nil => exact ⟨n, written, hmiddle.trans hrest⟩
    | cons second items =>
      have two : 2 ≤ ((n, first) :: second :: items).length := Nat.le_add_left 2 _
      exact ⟨_, .sum two (List.forall_mem_cons.mpr ⟨written, hitems⟩) rfl, hmiddle.trans hrest⟩

theorem expression_sound (settings : Settings) (depth : Nat) : (expression settings depth).Sound settings := by
  induction depth with
  | zero => exact fun _ _ _ _ h => absurd h refuseFor_ne_ok
  | succ depth ih => exact sumOf_sound (termOf_sound (groupOf_sound ih))

theorem eq_singleton_of_finished {p : Placed} (last : (p :: rest).Pairwise fun p _ => p.token ≠ .finish)
    (finished : p.token = .finish) : rest = [] :=
  List.eq_nil_iff_forall_not_mem.mpr fun q hq => (List.pairwise_cons.mp last).1 q hq finished

theorem count_die_of_finished (last : rest.Pairwise fun p _ => p.token ≠ .finish) (finished : peek rest = .finish) :
    (rest.map Placed.token).count .die = 0 := by
  cases rest with
  | nil => rfl
  | cons p rest =>
    obtain rfl := eq_singleton_of_finished last finished
    rw [List.map_singleton, show p.token = .finish from finished]
    rfl

theorem count_die_of_readsEmpty (last : tokens.Pairwise fun p _ => p.token ≠ .finish)
    (empty : Dice.readsEmpty tokens = true) : (tokens.map Placed.token).count .die = 0 := by
  unfold Dice.readsEmpty at empty
  split at empty
  · rfl
  · exact count_die_of_finished last (eq_of_beq empty)

/-- Every parsed tree is the empty pool, from a text without die letters, or is written with as many of them as its
    text. -/
theorem Dice.parse_letters {text : String} {d : Dice} (h : parse text settings = .ok d) :
    ∃ tokens letters, scan text = .ok tokens ∧ (tokens.map Placed.token).count .die = letters ∧
      (d = .pool [] settings.tracer ∧ letters = 0 ∨ Written settings letters d) := by
  unfold parse at h
  split at h
  · cases h
  · next tokens scanned =>
    refine ⟨tokens, _, scanned, rfl, ?_⟩
    have last := finish_last_of_scan scanned
    unfold ofTokens at h
    split at h
    · next empty =>
      cases h
      exact .inl ⟨rfl, count_die_of_readsEmpty last empty⟩
    · split at h
      · cases h
      · next read =>
        split at h
        · next finished =>
          cases h
          obtain ⟨n, written, taken, rfl, rfl⟩ := expression_sound settings _ (fits_of_scan scanned) read
          rw [List.map_append, List.count_append, count_die_of_finished (List.pairwise_append.mp last).2.1 finished]
          exact .inr written
        · exact absurd h refuse_ne_ok

/-- Every parsed tree is the empty pool or is written with no more die letters than its text has characters. -/
theorem Dice.parse_written {text : String} {d : Dice} (h : parse text settings = .ok d) :
    d = .pool [] settings.tracer ∨ ∃ n ≤ text.length, Written settings n d := by
  obtain ⟨tokens, n, scanned, rfl, ⟨rfl, -⟩ | written⟩ := parse_letters h
  · exact .inl rfl
  · exact .inr ⟨_, count_die_of_scan scanned, written⟩

/-- Every parsed tree is the empty pool or has the shape of parsed trees. -/
theorem Dice.parse_shape {text : String} {d : Dice} (h : parse text settings = .ok d) :
    d = .pool [] settings.tracer ∨ Parsed settings d :=
  (parse_written h).imp_right fun ⟨_, _, written⟩ => written.shape

end DiceNotation
