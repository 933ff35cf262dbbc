import DiceNotation.Proofs.Bounds.Exact

/-! The draws of a roll. A roll takes a window of the supply, and wherever the same draws are dealt it is the same
    roll. Each leaf takes one draw, and only an explosion takes those of its inner tree again, up to its limit. So
    the window of a tree is at least as long as the tree has leaves, and no longer if nothing explodes. A minimum or
    a maximum takes no draw. -/

namespace DiceNotation

namespace Supply
variable {supply supply' : Supply} {draws : List Nat} {next next' : Nat}

theorem deals_iff : supply.Deals next draws ↔ ∀ k (h : k < draws.length), supply (next + k) = draws[k] := by
  induction draws generalizing next with
  | nil => exact ⟨fun _ k h => absurd h (Nat.not_lt_zero k), fun _ => trivial⟩
  | cons draw draws ih =>
    rw [Deals, ih]
    constructor
    · rintro ⟨first, others⟩ k h
      cases k with
      | zero => exact first
      | succ k =>
        have later := others k (Nat.lt_of_succ_lt_succ h)
        rwa [Nat.add_assoc, Nat.add_comm 1 k] at later
    · intro h
      refine ⟨h 0 (Nat.zero_lt_succ _), fun k hk => ?_⟩
      have later := h (k + 1) (Nat.succ_lt_succ hk)
      rwa [show next + (k + 1) = next + 1 + k by omega] at later

/-- A supply that agrees with another one on a window deals the same draws. -/
theorem Deals.congr (h : supply.Deals next draws)
    (agree : ∀ k < draws.length, supply' (next' + k) = supply (next + k)) : supply'.Deals next' draws :=
  deals_iff.mpr fun k hk => (agree k hk).trans (deals_iff.mp h k hk)

end Supply

/-! ### Windows -/

/-- The evaluation from draw `next` on takes these draws, and wherever they are dealt it is the same. -/
structure Takes (run : Supply → Nat → Played α) (supply : Supply) (next : Nat) (draws : List Nat) : Prop where
  dealt : supply.Deals next draws
  again : ∀ supply' next', Supply.Deals supply' next' draws →
    run supply' next' = ⟨(run supply next).value, next' + draws.length, (run supply next).emitted⟩

/-- The evaluation takes a window of at least `lo` and at most `hi` draws. -/
def TakesBetween (run : Supply → Nat → Played α) (supply : Supply) (next lo hi : Nat) : Prop :=
  ∃ draws, Takes run supply next draws ∧ lo ≤ draws.length ∧ draws.length ≤ hi

/-- An evaluation, and what follows its value from the draw after it on. -/
def Played.andThen (first : Played α) (others : α → Nat → Played (List α)) : Played (List α) :=
  let later := others first.value first.next
  ⟨first.value :: later.value, later.next, first.emitted ++ later.emitted⟩

theorem Played.collect_whileHolds (run : Nat → Played α) (holds : α → Bool) (next limit : Nat) :
    collect next (whileHolds run holds next [] (limit + 1)) = (run next).andThen fun value next =>
      if holds value then collect next (whileHolds run holds next [] limit) else collect next [] := by
  rw [whileHolds_succ]
  by_cases again : holds (run next).value = true
  · simp only [andThen, if_pos again, collect, List.map_cons, List.flatMap_cons, List.getLast?_cons, Option.map_some,
      Option.getD_some]
    cases (whileHolds run holds (run next).next [] limit).getLast? <;> rfl
  · simp only [andThen, if_neg again]
    rfl

section
variable {run : Supply → Nat → Played α} {supply : Supply} {next lo hi : Nat} {draws more : List Nat}

theorem Takes.next_eq (h : Takes run supply next draws) : (run supply next).next = next + draws.length :=
  congrArg Played.next (h.again supply next h.dealt)

/-- What follows an evaluation takes the draws after its window. -/
theorem Takes.andThen (others : α → Supply → Nat → Played (List α)) (h : Takes run supply next draws)
    (later : Takes (others (run supply next).value) supply (run supply next).next more) :
    Takes (fun s n => (run s n).andThen fun value n => others value s n) supply next (draws ++ more) where
  dealt := Supply.deals_append.mpr ⟨h.dealt, h.next_eq ▸ later.dealt⟩
  again supply' next' dealt := by
    obtain ⟨first, rest⟩ := Supply.deals_append.mp dealt
    rw [h.again supply' next' first]
    simp only [Played.andThen]
    rw [later.again supply' _ rest, List.length_append, Nat.add_assoc]

theorem TakesBetween.andThen {lo' hi' : Nat} (others : α → Supply → Nat → Played (List α))
    (h : TakesBetween run supply next lo hi)
    (later : TakesBetween (others (run supply next).value) supply (run supply next).next lo' hi') :
    TakesBetween (fun s n => (run s n).andThen fun value n => others value s n) supply next (lo + lo') (hi + hi') := by
  obtain ⟨draws, first, least, most⟩ := h
  obtain ⟨more, rest, least', most'⟩ := later
  refine ⟨draws ++ more, first.andThen others rest, ?_, ?_⟩
  · rw [List.length_append]
    exact Nat.add_le_add least least'
  · rw [List.length_append]
    exact Nat.add_le_add most most'

theorem TakesBetween.mono {lo' hi' : Nat} (h : TakesBetween run supply next lo hi) (least : lo' ≤ lo)
    (most : hi ≤ hi') : TakesBetween run supply next lo' hi' := by
  obtain ⟨draws, takes, hlo, hhi⟩ := h
  exact ⟨draws, takes, Nat.le_trans least hlo, Nat.le_trans hhi most⟩

/-- A node takes no draws of its own. -/
theorem TakesBetween.concludes {d : Dice} {op : Operation} {f : α → Derivation}
    (h : TakesBetween run supply next lo hi) :
    TakesBetween (fun s n => Dice.conclude d op ((run s n).map f)) supply next lo hi := by
  obtain ⟨draws, takes, between⟩ := h
  refine ⟨draws, ⟨takes.dealt, fun supply' next' dealt => ?_⟩, between⟩
  rw [takes.again supply' next' dealt]
  rfl

theorem takesBetween_zero_iff : TakesBetween run supply next 0 0 ↔ Takes run supply next [] := by
  constructor
  · rintro ⟨draws, takes, -, none⟩
    rwa [List.length_eq_zero_iff.mp (Nat.le_zero.mp none)] at takes
  · exact fun takes => ⟨[], takes, Nat.le_refl 0, Nat.le_refl 0⟩

theorem takesBetween_collect_nil : TakesBetween (fun _ n => Played.collect n ([] : List (Played α))) supply next 0 0 :=
  takesBetween_zero_iff.mpr ⟨trivial, fun _ _ _ => rfl⟩

/-- Repeated evaluations take the draws of at least one of them, unless the limit is zero, and of at most as many as
    the limit says. -/
theorem takesBetween_whileHolds (h : ∀ next, TakesBetween run supply next lo hi) (holds : α → Bool)
    (next limit : Nat) :
    TakesBetween (fun s n => .collect n (Played.whileHolds (run s) holds n [] limit)) supply next
      (min 1 limit * lo) (limit * hi) := by
  induction limit generalizing next with
  | zero =>
    rw [Nat.min_zero, Nat.zero_mul, Nat.zero_mul]
    exact takesBetween_collect_nil
  | succ limit ih =>
    simp only [Played.collect_whileHolds]
    rw [Nat.min_eq_left (Nat.le_add_left 1 limit), Nat.one_mul, Nat.succ_mul, Nat.add_comm]
    show TakesBetween _ _ _ (lo + 0) _
    refine (h next).andThen (fun value s n => if holds value then
      .collect n (Played.whileHolds (run s) holds n [] limit) else .collect n []) ?_
    split
    · exact (ih _).mono (Nat.zero_le _) (Nat.le_refl _)
    · exact takesBetween_collect_nil.mono (Nat.le_refl 0) (Nat.zero_le _)

end

namespace Dice
variable {P : Foreign → Prop} {supply : Supply} {d : Dice} {items : List Dice} {op asked : Operation}

theorem takesBetween_playAll {lo hi : Dice → Nat}
    (h : ∀ d ∈ items, ∀ next, TakesBetween (play · d op) supply next (lo d) (hi d)) (next : Nat) :
    TakesBetween (playAll · items op) supply next (items.map lo).sum (items.map hi).sum := by
  induction items generalizing next with
  | nil => exact takesBetween_collect_nil
  | cons d ds ih =>
    obtain ⟨hd, hds⟩ := List.forall_mem_cons.mp h
    exact (hd next).andThen (fun _ s n => playAll s ds op n) (ih hds _)

/-! ### Minimum and maximum -/

theorem takes_nothing_leaf (face : Nat → Outcome) (range : Interval) (hop : op ≠ .roll) (next : Nat) :
    TakesBetween (playLeaf face range · · op) supply next 0 0 := by
  rw [takesBetween_zero_iff]
  cases op with
  | roll => exact absurd rfl hop
  | minimum => exact ⟨trivial, fun _ _ _ => rfl⟩
  | maximum => exact ⟨trivial, fun _ _ _ => rfl⟩

theorem takes_nothing_all (h : ∀ d ∈ items, ∀ next, TakesBetween (play · d op) supply next 0 0) (next : Nat) :
    TakesBetween (playAll · items op) supply next 0 0 := by
  have sums := takesBetween_playAll h next
  rwa [List.map_const', List.sum_replicate_nat, Nat.mul_zero] at sums

theorem takes_nothing (d : Dice) (hop : op ≠ .roll) (next : Nat) : TakesBetween (play · d op) supply next 0 0 := by
  induction d using tree_induction generalizing op next with
  | die d => exact takes_nothing_leaf d.face _ hop next
  | foreign leaf => exact takes_nothing_leaf leaf.face _ hop next
  | pool items tracer ih => exact (takes_nothing_all (fun d hd next => ih d hd hop next) next).concludes
  | selection items poolTracer selector count tracer ih =>
    exact (takes_nothing_all (fun d hd next => ih d hd hop next) next).concludes
  | explosion inner comparison threshold limit tracer ih =>
    cases op with
    | roll => exact absurd rfl hop
    | minimum => exact (ih hop next).concludes (f := fun lo => .sum [comparison.lower threshold lo])
    | maximum => exact (ih hop next).concludes (f := fun hi => .sum [comparison.upper threshold hi])
  | arithmetic inner operator operand tracer ih =>
    cases asks : operator.asks operand op with
    | none =>
      simp only [play, asks]
      exact takesBetween_zero_iff.mpr ⟨trivial, fun _ _ _ => rfl⟩
    | some asked =>
      simp only [play, asks]
      exact (ih (asks_ne_roll hop asks) next).concludes

/-- The minimum and the maximum are the same for every supply and take no draw from it. -/
theorem play_bound (d : Dice) (hop : op ≠ .roll) (supply supply' : Supply) (next next' : Nat) :
    play supply' d op next' = ⟨(play supply d op next).value, next', (play supply d op next).emitted⟩ :=
  (takesBetween_zero_iff.mp (takes_nothing d hop next)).again supply' next' trivial

/-! ### Rolls -/

mutual
/-- A count of draws in which each leaf takes one, and an explosion as many as `rule` says for its limit and for the
    draws of its inner tree. -/
def drawsBy (rule : Nat → Nat → Nat) : Dice → Nat
  | die _ => 1
  | foreign _ => 1
  | pool items _ => drawsAllBy rule items
  | selection items _ _ _ _ => drawsAllBy rule items
  | explosion inner _ _ limit _ => rule limit (drawsBy rule inner)
  | arithmetic inner _ _ _ => drawsBy rule inner

/-- The draws of all items. -/
def drawsAllBy (rule : Nat → Nat → Nat) : List Dice → Nat
  | [] => 0
  | d :: ds => drawsBy rule d + drawsAllBy rule ds
end

/-- The draws of a roll in which no explosion goes on. -/
def fewestDraws (d : Dice) : Nat := d.drawsBy fun _ inner => inner

/-- The draws of a roll in which every explosion goes on to its limit. -/
def mostDraws (d : Dice) : Nat := d.drawsBy fun limit inner => limit * inner

/-- The number of leaves. -/
def leafCount (d : Dice) : Nat := d.nodes.countP isLeaf

theorem drawsAllBy_eq_sum (rule : Nat → Nat → Nat) (items : List Dice) :
    drawsAllBy rule items = (items.map (drawsBy rule)).sum := by
  induction items with
  | nil => rfl
  | cons d ds ih => rw [drawsAllBy, ih, List.map_cons, List.sum_cons]

theorem countP_nodesAll (p : Dice → Bool) (items : List Dice) :
    (nodesAll items).countP p = (items.map fun d => d.nodes.countP p).sum := by
  rw [nodesAll_eq_flatMap, List.countP_flatMap]
  rfl

/-- A count of draws is the number of leaves if its rule counts the inner tree of an explosion once. -/
theorem drawsBy_eq_leafCount {rule : Nat → Nat → Nat}
    (once : ∀ e ∈ d.nodes, e.isExplosion = true → ∀ limit inner, rule limit inner = inner) :
    d.drawsBy rule = d.leafCount := by
  have all : ∀ {items : List Dice}, (∀ d ∈ items, d.drawsBy rule = d.leafCount) →
      drawsAllBy rule items = (nodesAll items).countP isLeaf := fun ih => by
    rw [drawsAllBy_eq_sum, countP_nodesAll]
    exact congrArg List.sum (List.map_congr_left ih)
  induction d using tree_induction with
  | die d => rfl
  | foreign leaf => rfl
  | pool items tracer ih =>
    obtain ⟨-, below⟩ := List.forall_mem_cons.mp once
    exact all fun d hd => ih d hd (forall_mem_nodesAll.mp below d hd)
  | selection items poolTracer selector count tracer ih =>
    obtain ⟨-, below⟩ := List.forall_mem_cons.mp once
    exact all fun d hd => ih d hd (forall_mem_nodesAll.mp below d hd)
  | explosion inner comparison threshold limit tracer ih =>
    obtain ⟨own, below⟩ := List.forall_mem_cons.mp once
    rw [drawsBy, own rfl, ih below]
    rfl
  | arithmetic inner operator operand tracer ih =>
    obtain ⟨-, below⟩ := List.forall_mem_cons.mp once
    exact ih below

theorem fewestDraws_eq_leafCount (d : Dice) : d.fewestDraws = d.leafCount :=
  drawsBy_eq_leafCount fun _ _ _ _ _ => rfl

theorem mostDraws_eq_leafCount (h : ∀ e ∈ d.nodes, e.isExplosion = false) : d.mostDraws = d.leafCount :=
  drawsBy_eq_leafCount fun e he explodes => absurd explodes (by rw [h e he]; decide)

theorem takesBetween_leaf (face : Nat → Outcome) (range : Interval) (next : Nat) :
    TakesBetween (playLeaf face range · · .roll) supply next 1 1 := by
  refine ⟨[supply next], ⟨⟨rfl, trivial⟩, fun supply' next' dealt => ?_⟩, Nat.le_refl 1, Nat.le_refl 1⟩
  simp only [playLeaf, dealt.1]
  rfl

/-- A roll of a built tree takes a window between the fewest and the most draws of the tree. -/
theorem takesBetween_roll (h : Built P d) (supply : Supply) (next : Nat) :
    TakesBetween (play · d .roll) supply next d.fewestDraws d.mostDraws := by
  unfold fewestDraws mostDraws
  induction h generalizing next with
  | die d => exact takesBetween_leaf d.face _ next
  | foreign _ => exact takesBetween_leaf _ _ next
  | sum _ ih =>
    simp only [Pool.sum, drawsBy, drawsAllBy_eq_sum]
    exact (takesBetween_playAll ih next).concludes
  | select _ built ih =>
    obtain ⟨-, rfl⟩ := Pool.select_eq_ok_iff.mp built
    simp only [drawsBy, drawsAllBy_eq_sum]
    exact (takesBetween_playAll ih next).concludes
  | @explode _ _ comparison threshold limit _ _ built ih =>
    obtain ⟨-, rfl⟩ := explode_eq_ok_iff.mp built
    have rolls := takesBetween_whileHolds ih (comparison.holds · threshold) next (max 1 limit)
    rw [Nat.min_eq_left (Nat.le_max_left 1 limit), Nat.one_mul] at rolls
    exact rolls.concludes
  | apply _ built ih =>
    obtain ⟨-, rfl⟩ := apply_eq_ok_iff.mp built
    exact (ih next).concludes

/-- A roll of a built tree takes between the fewest and the most draws of the tree, and one for each leaf if nothing
    explodes. It gives the same result and takes as many draws wherever the draws that it takes are dealt again. The
    minimum and the maximum take no draw. -/
theorem roll_takes_draws (h : Built (fun _ => True) d) (supply : Supply) (next : Nat) :
    (∃ taken, (play supply d .roll next).next = next + taken ∧
      d.fewestDraws ≤ taken ∧ taken ≤ d.mostDraws ∧
      ((∀ e ∈ d.nodes, e.isExplosion = false) → taken = d.leafCount) ∧
      ∀ (supply' : Supply) (next' : Nat), (∀ k < taken, supply' (next' + k) = supply (next + k)) →
        (play supply' d .roll next').value = (play supply d .roll next).value ∧
          (play supply' d .roll next').next = next' + taken) ∧
    ∀ op, op ≠ .roll → (play supply d op next).next = next := by
  obtain ⟨draws, takes, least, most⟩ := takesBetween_roll h supply next
  refine ⟨⟨draws.length, takes.next_eq, least, most, fun calm => ?_, fun supply' next' agree => ?_⟩,
    fun op hop => ?_⟩
  · rw [fewestDraws_eq_leafCount] at least
    rw [mostDraws_eq_leafCount calm] at most
    exact Nat.le_antisymm most least
  · rw [takes.again supply' next' (takes.dealt.congr agree)]
    exact ⟨rfl, rfl⟩
  · rw [play_bound d hop supply supply next next]

/-- A die that explodes twice over, and the lower of two dice. -/
def nestedBurst : Dice :=
  .pool [.explosion (.explosion (.die .percentile) .greater 50 3 none) .equals 7 2 none,
    .selection [.die .fudge, .die .percentile] none .keepLowest 1 none] none

theorem nestedBurst_built (P : Foreign → Prop) : Built P nestedBurst := by
  refine .pool ?_
  simp only [List.forall_mem_cons]
  refine ⟨.explosion (.explosion (.die _) (by decide) (by decide)) (by decide) (by decide), .selection ?_ (by decide),
    List.forall_mem_nil _⟩
  simp only [List.forall_mem_cons]
  exact ⟨.die _, .die _, List.forall_mem_nil _⟩

theorem nestedBurst_takes_draws : Built (fun _ => True) nestedBurst ∧
    ∃ taken, (play (fun k => 6 * k + 56) nestedBurst .roll 0).next = 0 + taken ∧ 3 ≤ taken ∧ taken ≤ 8 := by
  obtain ⟨⟨taken, last, least, most, -⟩, -⟩ := roll_takes_draws (nestedBurst_built _) (fun k => 6 * k + 56) 0
  exact ⟨nestedBurst_built _, taken, last, least, most⟩

end Dice
end DiceNotation
