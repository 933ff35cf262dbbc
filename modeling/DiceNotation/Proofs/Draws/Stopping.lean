import DiceNotation.Proofs.Bounds.Exact
import DiceNotation.Proofs.Bounds.Threshold
import DiceNotation.Proofs.Draws.Parsed
import DiceNotation.Proofs.Notation.Grammatical

/-! Explosions that can stop. A threshold is checked against the inner bounds, of which one end misses. Where the bounds
    are exact some draws make a roll show that end, and wherever they are dealt the explosion stops. In a parsed tree
    only equal dice and selections from them explode, so each of its explosions can stop. -/

namespace DiceNotation

namespace Played
variable {run : Nat → Played α} {holds : α → Bool}

/-- Repeated evaluations stop at the first value that need not be repeated, whatever was done before. -/
theorem whileHolds_of_miss {next : Nat} (h : holds (run next).value = false) (done : List (Played α)) (left : Nat) :
    whileHolds run holds next done (left + 1) = done.reverse ++ [run next] := by
  rw [whileHolds_eq_append, whileHolds_succ, if_neg (Bool.eq_false_iff.mp h)]

end Played

namespace Dice

/-- Wherever the draws are dealt, one roll of the tree takes them and shows an outcome that misses. -/
def MissesOn (inner : Dice) (comparison : Comparison) (threshold : Outcome) (draws : List Nat) : Prop :=
  ∀ supply next, Supply.Deals supply next draws →
    comparison.holds (play supply inner .roll next).value threshold = false ∧
      (play supply inner .roll next).next = next + draws.length

variable {d inner : Dice} {comparison : Comparison} {threshold : Outcome} {limit : Nat} {tracer : Option Tracer}

theorem Attains.missesOn {a : Outcome} (h : inner.Attains a) (miss : comparison.holds a threshold = false) :
    ∃ draws, inner.MissesOn comparison threshold draws := by
  obtain ⟨draws, attained⟩ := h
  refine ⟨draws, fun supply next dealt => ?_⟩
  obtain ⟨shown, last⟩ := attained supply next dealt
  exact ⟨shown ▸ miss, last⟩

/-- A calm tree whose bounds are split misses on some draws. -/
theorem Calm.exists_missesOn (calm : inner.Calm) (built : Built (fun _ => False) inner)
    (splits : comparison.Splits threshold inner.bounds) : ∃ draws, inner.MissesOn comparison threshold draws := by
  rcases splits.end_misses with miss | miss
  · exact (attains_side built calm .minimum).missesOn miss
  · exact (attains_side built calm .maximum).missesOn miss

/-- An explosion takes no draws after those on which its inner tree misses. -/
theorem MissesOn.play_next {draws : List Nat} (h : inner.MissesOn comparison threshold draws) (one : 1 ≤ limit)
    {supply : Supply} {next : Nat} (dealt : Supply.Deals supply next draws) :
    (play supply (.explosion inner comparison threshold limit tracer) .roll next).next = next + draws.length := by
  obtain ⟨left, rfl⟩ := Nat.exists_eq_add_of_le' one
  obtain ⟨miss, last⟩ := h supply next dealt
  have stopped : Played.whileHolds (play supply inner .roll) (comparison.holds · threshold) next [] (left + 1) =
      [play supply inner .roll next] := Played.whileHolds_of_miss miss [] left
  show (Played.collect next (Played.whileHolds (play supply inner .roll) (comparison.holds · threshold) next []
    (left + 1))).next = _
  rw [stopped]
  exact last

theorem calm_replicate (count : Nat) (d : Die) : ∀ e ∈ List.replicate count (.die d), Calm e := fun e he => by
  rw [(List.mem_replicate.mp he).2]
  exact .die d

theorem Simple.calm {T : Option Tracer → Prop} (h : Simple T d) : d.Calm := by
  cases h with
  | die => exact .die _
  | copies => exact .pool (calm_replicate _ _)
  | selection => exact .selection (calm_replicate _ _)

/-- Each explosion of a parsed tree has draws on which one roll of its inner tree misses. Where they are dealt, the
    repetition stops at once, after whichever rolls were done before. -/
theorem parse_explosion_can_stop {text : String} {settings : Settings} (parsed : parse text settings = .ok d)
    (below : .explosion inner comparison threshold limit tracer ∈ d.nodes) :
    ∃ draws : List Nat, ∀ supply next, Supply.Deals supply next draws →
      comparison.holds (play supply inner .roll next).value threshold = false ∧
      (∀ done left, Played.whileHolds (play supply inner .roll) (comparison.holds · threshold) next done (left + 1) =
        done.reverse ++ [play supply inner .roll next]) ∧
      (play supply (.explosion inner comparison threshold limit tracer) .roll next).next = next + draws.length := by
  rcases parse_nodes_grammatical parsed with rfl | grammatical
  · cases List.mem_singleton.mp below
  · obtain ⟨inside, splits, rfl, -⟩ := grammatical _ below
    obtain ⟨draws, misses⟩ := inside.calm.exists_missesOn inside.built splits
    refine ⟨draws, fun supply next dealt => ?_⟩
    obtain ⟨miss, -⟩ := misses supply next dealt
    have stops : ∀ done left, Played.whileHolds (play supply inner .roll) (comparison.holds · threshold) next done
        (left + 1) = done.reverse ++ [play supply inner .roll next] := Played.whileHolds_of_miss miss
    exact ⟨miss, stops, misses.play_next (Nat.le_max_left 1 _) dealt⟩

/-- The pair of dice with a gap in `cleftSum`, which explodes below zero. -/
theorem cleftSum_can_stop : parse "(2d[-7,2,2]!<0 + 3dkh) / -2" ⟨some .memory, 0⟩ = .ok cleftSum ∧
    ∃ inner, explosion inner .lesser 0 1 (some .memory) ∈ cleftSum.nodes ∧
      ∃ draws, Comparison.lesser.holds (inner.roll (.ofList draws) 0) 0 = false := by
  have below : explosion _ .lesser 0 1 (some .memory) ∈ cleftSum.nodes :=
    List.mem_cons_of_mem _ (List.mem_cons_of_mem _ List.mem_cons_self)
  obtain ⟨draws, stops⟩ := parse_explosion_can_stop cleftSum_parsed below
  obtain ⟨miss, -⟩ := stops (.ofList draws) 0 (Supply.deals_ofList draws)
  exact ⟨cleftSum_parsed, _, below, draws, miss⟩

end Dice
end DiceNotation
