import Mathlib.Algebra.Ring.Nat
import DiceNotation.Dice.Spelling

/-! The groups of a written pool. Each item is counted in one group, equal dice in the group of the first of them and
    any other item in a group of its own, so that no item is lost and none is made up. -/

namespace DiceNotation

namespace Group

/-- Two items that are dice with the same text. -/
def sameDie (a b : List Char × Bool) : Bool := a.2 && b.2 && b.1 == a.1

theorem sameDie_iff {a b : List Char × Bool} : sameDie a b = true ↔ (a.2 = true ∧ b.2 = true) ∧ b.1 = a.1 := by
  simp only [sameDie, Bool.and_eq_true, beq_iff_eq]

/-- The item that a group is for. -/
def key (g : Group) : List Char × Bool := (g.item, g.isDie)

/-- How the items of a pool are grouped. -/
structure Collects (items : List (List Char × Bool)) (groups : List Group) : Prop where
  /-- The groups stand in the order in which their items occur first. -/
  order : groups.map key = items.eraseDupsBy sameDie
  distinct : groups.Pairwise fun g h => g.isDie = true → h.isDie = true → g.item ≠ h.item
  /-- An item that is no die has a group of its own. -/
  others : groups.filter (!·.isDie) = (items.filter (!·.2)).map fun item => ⟨item.1, false, 1⟩
  nonempty : ∀ g ∈ groups, 1 ≤ g.count
  total : (groups.map count).sum = items.length
  expanded : (groups.flatMap fun g => List.replicate g.count g.item).Perm (items.map Prod.fst)

variable {item : List Char} {isDie : Bool} {items : List (List Char × Bool)} {groups : List Group}

/-! ### One more item -/

/-- An item is counted with the die that it is the same as, or it starts the last group. -/
theorem insert_cases (item : List Char) (isDie : Bool) (groups : List Group) :
    (∃ before g after, groups = before ++ g :: after ∧ sameDie (item, isDie) g.key = true ∧
      insert item isDie groups = before ++ { g with count := g.count + 1 } :: after) ∨
    ((∀ g ∈ groups, sameDie (item, isDie) g.key = false) ∧
      insert item isDie groups = groups ++ [⟨item, isDie, 1⟩]) := by
  induction groups with
  | nil => exact .inr ⟨List.forall_mem_nil _, rfl⟩
  | cons g groups ih =>
    by_cases same : sameDie (item, isDie) g.key = true
    · exact .inl ⟨[], g, groups, rfl, same, if_pos same⟩
    · have skipped : insert item isDie (g :: groups) = g :: insert item isDie groups := if_neg same
      rw [skipped]
      rcases ih with ⟨before, h, after, rfl, found, inserted⟩ | ⟨none, inserted⟩
      · exact .inl ⟨g :: before, h, after, rfl, found, congrArg (g :: ·) inserted⟩
      · exact .inr ⟨List.forall_mem_cons.mpr ⟨Bool.eq_false_iff.mpr same, none⟩, congrArg (g :: ·) inserted⟩

theorem eraseDupsBy_append_singleton (r : α → α → Bool) (as : List α) (a : α) :
    (as ++ [a]).eraseDupsBy r =
      if (as.eraseDupsBy r).any (r a) then as.eraseDupsBy r else as.eraseDupsBy r ++ [a] := by
  suffices ∀ found, List.eraseDupsBy.loop r (as ++ [a]) found =
      if (List.eraseDupsBy.loop r as found).any (r a) then List.eraseDupsBy.loop r as found
      else List.eraseDupsBy.loop r as found ++ [a] from this []
  induction as with
  | nil =>
    intro found
    cases old : found.any (r a) <;> simp [List.eraseDupsBy.loop, old]
  | cons b as ih =>
    intro found
    cases old : found.any (r b) <;> simp only [List.cons_append, List.eraseDupsBy.loop, old, ih]

section
variable {before after : List Group} {g : Group}

/-- A die is counted in the group of the same die. -/
theorem Collects.counted (h : Collects items (before ++ g :: after)) (same : sameDie (item, isDie) g.key = true) :
    Collects (items ++ [(item, isDie)]) (before ++ { g with count := g.count + 1 } :: after) := by
  obtain ⟨⟨hdie, gdie⟩, htext⟩ : (isDie = true ∧ g.isDie = true) ∧ g.item = item := sameDie_iff.mp same
  have keys : (before ++ { g with count := g.count + 1 } :: after).map key = (before ++ g :: after).map key := by
    rw [List.map_append, List.map_append]
    rfl
  have found : (items.eraseDupsBy sameDie).any (sameDie (item, isDie)) = true := by
    rw [← h.order, List.any_eq_true]
    exact ⟨g.key, List.mem_map_of_mem (List.mem_append_right _ List.mem_cons_self), same⟩
  obtain ⟨hbefore, hg, hafter⟩ : (∀ g ∈ before, 1 ≤ g.count) ∧ 1 ≤ g.count ∧ ∀ g ∈ after, 1 ≤ g.count := by
    have := h.nonempty
    rwa [List.forall_mem_append, List.forall_mem_cons] at this
  refine ⟨?_, ?_, ?_, ?_, ?_, ?_⟩
  · rw [keys, h.order, eraseDupsBy_append_singleton, if_pos found]
  · have apart : ((before ++ g :: after).map key).Pairwise fun a b => a.2 = true → b.2 = true → a.1 ≠ b.1 :=
      List.pairwise_map.mpr h.distinct
    rw [← keys] at apart
    exact List.pairwise_map.mp apart
  · have others := h.others
    rw [List.filter_append, List.filter_cons_of_neg (by simp [gdie])] at others ⊢
    rw [List.filter_append, List.filter_cons_of_neg (by simp [hdie]), List.filter_nil,
      List.append_nil]
    exact others
  · exact List.forall_mem_append.mpr ⟨hbefore, List.forall_mem_cons.mpr ⟨Nat.le_add_left 1 _, hafter⟩⟩
  · have := h.total
    simp only [List.map_append, List.map_cons, List.sum_append, List.sum_cons, List.length_append,
      List.length_singleton] at this ⊢
    omega
  · have expanded := h.expanded
    rw [List.flatMap_append, List.flatMap_cons] at expanded ⊢
    rw [List.map_append]
    -- The group has one more copy of its text, which the other items are a permutation without.
    refine .trans ?_ (List.perm_append_singleton item _).symm
    rw [htext] at expanded
    rw [List.replicate_succ, List.cons_append, htext]
    exact List.perm_middle.trans (expanded.cons item)

/-- An item that is the same die as none before it starts the last group. -/
theorem Collects.started (h : Collects items groups) (none : ∀ g ∈ groups, sameDie (item, isDie) g.key = false) :
    Collects (items ++ [(item, isDie)]) (groups ++ [⟨item, isDie, 1⟩]) := by
  have new : (items.eraseDupsBy sameDie).any (sameDie (item, isDie)) = false := by
    rw [← h.order, List.any_eq_false]
    exact fun k hk => by
      obtain ⟨g, hg, rfl⟩ := List.mem_map.mp hk
      rw [none g hg]
      decide
  refine ⟨?_, ?_, ?_, ?_, ?_, ?_⟩
  · rw [List.map_append, h.order, eraseDupsBy_append_singleton, if_neg (Bool.eq_false_iff.mp new)]
    rfl
  · refine List.pairwise_append.mpr ⟨h.distinct, List.pairwise_singleton _ _, fun g hg last hlast gdie die => ?_⟩
    obtain rfl := List.mem_singleton.mp hlast
    exact fun htext => Bool.eq_false_iff.mp (none g hg) (sameDie_iff.mpr ⟨⟨die, gdie⟩, htext⟩)
  · rw [List.filter_append, List.filter_append, List.map_append, h.others]
    cases isDie <;> rfl
  · exact List.forall_mem_append.mpr ⟨h.nonempty, List.forall_mem_singleton.mpr (Nat.le_refl 1)⟩
  · rw [List.map_append, List.sum_append, h.total, List.length_append]
    rfl
  · rw [List.flatMap_append, List.map_append]
    exact h.expanded.append_right [item]

end

/-- One more item keeps the groups those of the items. -/
theorem Collects.insert (h : Collects items groups) (item : List Char) (isDie : Bool) :
    Collects (items ++ [(item, isDie)]) (insert item isDie groups) := by
  rcases insert_cases item isDie groups with ⟨before, g, after, rfl, same, inserted⟩ | ⟨none, inserted⟩
  · rw [inserted]
    exact h.counted same
  · rw [inserted]
    exact h.started none

theorem collects_nil : Collects [] [] :=
  ⟨rfl, .nil, rfl, List.forall_mem_nil _, rfl, .nil⟩

/-- The groups of items hold them all and nothing else. -/
theorem ofItems_collects (items : List (List Char × Bool)) : Collects items (ofItems items) := by
  suffices ∀ more {items groups}, Collects items groups →
      Collects (items ++ more) (more.foldl (fun groups item => insert item.1 item.2 groups) groups) from
    this items collects_nil
  intro more
  induction more with
  | nil => exact fun h => by rwa [List.append_nil]
  | cons item more ih =>
    intro items groups h
    rw [← List.singleton_append, ← List.append_assoc]
    exact ih (h.insert item.1 item.2)

/-- The count of a group is written exactly if it is more than one. -/
theorem chars_eq (g : Group) : g.chars = (if 1 < g.count then Numeral.ofNat g.count else []) ++ g.item := by
  unfold chars
  split <;> rfl

end Group

namespace Dice

/-- A pool with items is written as its groups with plus signs between them. Each group is written as the text of its
    item, with its count in front exactly if it holds more than one. -/
theorem pool_text {items : List Dice} (some : items ≠ []) (tracer : Option Tracer) : ∃ groups,
    (pool items tracer).text.toList = ['+'].intercalate
      (groups.map fun g => (if 1 < g.count then Numeral.ofNat g.count else []) ++ g.item) ∧
    Group.Collects (items.map fun d => (d.text.toList, d.isDie)) groups := by
  have texts : (items.map fun d => (d.text.toList, d.isDie)) = spelledItems items := by
    rw [spelledItems_eq_map]
    simp only [text, String.toList_ofList]
  have collects := Group.ofItems_collects (spelledItems items)
  have nonempty : (Group.ofItems (spelledItems items)).isEmpty = false := by
    refine List.isEmpty_eq_false_iff.mpr fun none => some ?_
    have total := collects.total
    rw [none, ← texts, List.length_map] at total
    exact List.length_eq_zero_iff.mp total.symm
  refine ⟨Group.ofItems (spelledItems items), ?_, texts ▸ collects⟩
  rw [text, String.toList_ofList]
  show Group.join (Group.ofItems (spelledItems items)) = _
  rw [Group.join, if_neg (Bool.eq_false_iff.mp nonempty)]
  exact congrArg _ (List.map_congr_left fun g _ => g.chars_eq)

/-- A leaf that is written like a fudge die and is none. -/
def fudgeLike : Dice := .foreign ⟨"DF", [5], 5, 5, false⟩

/-- Only the dice are counted together, where the first of them stands. -/
theorem mixedPool_text : (pool [.die .fudge, fudgeLike, .die .percentile, fudgeLike, .die .fudge] none).text =
      "2DF+DF+D%+DF" ∧
    ∃ groups : List Group,
      groups.map Group.key = [(['D', 'F'], true), (['D', 'F'], false), (['D', '%'], true), (['D', 'F'], false)] ∧
      (groups.map Group.count).sum = 5 := by
  have some : [.die .fudge, fudgeLike, .die .percentile, fudgeLike, .die .fudge] ≠ [] := List.cons_ne_nil _ _
  obtain ⟨groups, -, collects⟩ := pool_text some none
  exact ⟨by decide, groups, collects.order.trans (by decide), collects.total⟩

end Dice

end DiceNotation
