import DiceNotation.Dice

/-! The nodes of a tree: the tree itself and everything below it. The pool of a selection is no node, since only
    its items are asked. -/

namespace DiceNotation.Dice

/-- What each kind of node takes over from the trees right below it holds of every tree. -/
theorem tree_induction {P : Dice → Prop} (die : ∀ d, P (.die d)) (foreign : ∀ leaf, P (.foreign leaf))
    (pool : ∀ items tracer, (∀ d ∈ items, P d) → P (.pool items tracer))
    (selection : ∀ items poolTracer selector count tracer, (∀ d ∈ items, P d) →
      P (.selection items poolTracer selector count tracer))
    (explosion : ∀ inner comparison threshold limit tracer, P inner →
      P (.explosion inner comparison threshold limit tracer))
    (arithmetic : ∀ inner operator operand tracer, P inner → P (.arithmetic inner operator operand tracer))
    (d : Dice) : P d :=
  @Dice.rec P (fun items => ∀ d ∈ items, P d) die foreign pool selection explosion arithmetic
    (List.forall_mem_nil _) (fun _ _ hd hds => List.forall_mem_cons.mpr ⟨hd, hds⟩) d

/-- The trees right below a node. -/
def children : Dice → List Dice
  | pool items _ => items
  | selection items _ _ _ _ => items
  | explosion inner _ _ _ _ => [inner]
  | arithmetic inner _ _ _ => [inner]
  | _ => []

theorem children_induction {P : Dice → Prop} (step : ∀ d : Dice, (∀ e ∈ d.children, P e) → P d) (d : Dice) : P d := by
  induction d using tree_induction with
  | die d => exact step _ (List.forall_mem_nil _)
  | foreign leaf => exact step _ (List.forall_mem_nil _)
  | pool items tracer ih => exact step _ ih
  | selection items poolTracer selector count tracer ih => exact step _ ih
  | explosion inner comparison threshold limit tracer ih => exact step _ (List.forall_mem_singleton.mpr ih)
  | arithmetic inner operator operand tracer ih => exact step _ (List.forall_mem_singleton.mpr ih)

/-- Whether the node is a die or a foreign leaf. -/
def isLeaf : Dice → Bool
  | die _ => true
  | foreign _ => true
  | _ => false

def isExplosion : Dice → Bool
  | explosion _ _ _ _ _ => true
  | _ => false

mutual
/-- The tree and all that is below it, each before what is below it. -/
def nodes : Dice → List Dice
  | pool items tracer => .pool items tracer :: nodesAll items
  | selection items poolTracer selector count tracer =>
    .selection items poolTracer selector count tracer :: nodesAll items
  | explosion inner comparison threshold limit tracer =>
    .explosion inner comparison threshold limit tracer :: nodes inner
  | arithmetic inner operator operand tracer => .arithmetic inner operator operand tracer :: nodes inner
  | d => [d]

/-- The nodes of each item. -/
def nodesAll : List Dice → List Dice
  | [] => []
  | d :: ds => nodes d ++ nodesAll ds
end

variable {d e : Dice} {items : List Dice}

theorem nodesAll_eq_flatMap (items : List Dice) : nodesAll items = items.flatMap nodes := by
  induction items with
  | nil => rfl
  | cons d ds ih => rw [nodesAll, ih, List.flatMap_cons]

theorem mem_nodes_self (d : Dice) : d ∈ d.nodes := by
  cases d <;> exact List.mem_cons_self

theorem mem_nodesAll : e ∈ nodesAll items ↔ ∃ d ∈ items, e ∈ d.nodes := by
  rw [nodesAll_eq_flatMap, List.mem_flatMap]

theorem forall_mem_nodesAll {Q : Dice → Prop} : (∀ e ∈ nodesAll items, Q e) ↔ ∀ d ∈ items, ∀ e ∈ d.nodes, Q e :=
  ⟨fun h d hd e he => h e (mem_nodesAll.mpr ⟨d, hd, he⟩), fun h e he => by
    obtain ⟨d, hd, hde⟩ := mem_nodesAll.mp he
    exact h d hd e hde⟩

/-- A tree consists of its root and of the nodes of the trees right below. -/
theorem nodes_eq (d : Dice) : d.nodes = d :: nodesAll d.children := by
  cases d with
  | die => rfl
  | foreign => rfl
  | pool => rfl
  | selection => rfl
  | explosion => rw [nodes, children, nodesAll, nodesAll, List.append_nil]
  | arithmetic => rw [nodes, children, nodesAll, nodesAll, List.append_nil]

theorem nodes_of_children {x : Dice} (he : e ∈ d.children) (hx : x ∈ e.nodes) : x ∈ d.nodes := by
  rw [nodes_eq]
  exact List.mem_cons_of_mem _ (mem_nodesAll.mpr ⟨e, he, hx⟩)

theorem forall_nodes_of_children {Q : Dice → Prop} (h : ∀ x ∈ d.nodes, Q x) (he : e ∈ d.children) : ∀ x ∈ e.nodes, Q x :=
  fun x hx => h x (nodes_of_children he hx)

end DiceNotation.Dice
