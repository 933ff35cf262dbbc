import DiceNotation.Interval

/-! Selectors: which outcomes of a pool count, by rank. Dropping and keeping are duals: to drop the highest
    `k` of `n` is to keep the lowest `n - k`. -/

namespace DiceNotation

/-- Which end of the ranked outcomes is dropped or kept. -/
inductive Selector
  | dropHighest | dropLowest | keepHighest | keepLowest
deriving DecidableEq, Repr, Inhabited

namespace Selector

/-- The two letters of the selector. -/
def tag : Selector → List Char
  | dropHighest => ['D', 'H']
  | dropLowest => ['D', 'L']
  | keepHighest => ['K', 'H']
  | keepLowest => ['K', 'L']

def text (s : Selector) : String := String.ofList s.tag

/-- The selector that a text is the two letters of, in capitals or not. -/
def ofText? (text : String) : Option Selector :=
  match text.toList.map Char.toLower with
  | ['d', 'h'] => some dropHighest
  | ['d', 'l'] => some dropLowest
  | ['k', 'h'] => some keepHighest
  | ['k', 'l'] => some keepLowest
  | _ => none

/-- The outcomes that count of those ranked in ascending order. -/
def pick : Selector → List α → Nat → List α
  | dropHighest, ranked, k => ranked.take (ranked.length - k)
  | dropLowest, ranked, k => ranked.drop k
  | keepHighest, ranked, k => ranked.drop (ranked.length - k)
  | keepLowest, ranked, k => ranked.take k

def kept (s : Selector) (values : List Outcome) (k : Nat) : List Outcome := s.pick (Outcome.ascending values) k

/-- The totals of the lower and of the upper ends that count, each ranked on its own. -/
def total (s : Selector) (ranges : List Interval) (k : Nat) : Interval :=
  ⟨.total (s.kept (ranges.map Interval.lo) k), .total (s.kept (ranges.map Interval.hi) k)⟩

theorem pick_sublist (s : Selector) (ranked : List α) (k : Nat) : (s.pick ranked k).Sublist ranked := by
  cases s
  · exact List.take_sublist _ _
  · exact List.drop_sublist _ _
  · exact List.drop_sublist _ _
  · exact List.take_sublist _ _

theorem pairwise_kept (s : Selector) (values : List Outcome) (k : Nat) :
    (s.kept values k).Pairwise (· ≤ ·) :=
  (Outcome.pairwise_ascending values).sublist (s.pick_sublist _ k)

end Selector
end DiceNotation
