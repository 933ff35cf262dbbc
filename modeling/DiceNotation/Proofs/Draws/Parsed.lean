import Mathlib.Algebra.BigOperators.Ring.List
import Mathlib.Algebra.Order.BigOperators.Group.List
import DiceNotation.Proofs.Draws.Window
import DiceNotation.Proofs.Notation.Shape

/-! The draws of a notation. Each die letter stands for one plain group, which holds at least one die and no more than
    a group may hold, and explodes at most once. Explosions are never nested, so their limits do not multiply: the
    letters of a text bound the leaves of its tree and the draws of its rolls. -/

namespace DiceNotation.Dice

variable {T : Option Tracer → Prop} {P : Foreign → Prop} {d : Dice} {limit : Nat}

/-! ### Parsed trees are built -/

theorem built_replicate (count : Nat) (d : Die) : ∀ e ∈ List.replicate count (.die d), Built P e := fun e he => by
  rw [(List.mem_replicate.mp he).2]
  exact .die d

theorem Simple.built (h : Simple T d) : Built P d := by
  cases h with
  | die => exact .die _
  | copies => exact .pool (built_replicate _ _)
  | selection one le => exact .selection (built_replicate _ _) ⟨one, by rwa [List.length_replicate]⟩

theorem Plain.built (h : Plain T (· = limit) d) (one : 1 ≤ limit) : Built P d := by
  cases h with
  | simple inside => exact inside.built
  | explosion inside splits _ limited => exact .explosion inside.built splits (limited ▸ one)

theorem Shape.built (h : Shape T (· = limit) d) (one : 1 ≤ limit) : Built P d := by
  induction h with
  | plain group => exact group.built one
  | arithmetic _ accepts _ _ ih => exact .arithmetic ih accepts
  | sum _ _ _ ih => exact .pool ih

theorem built_of_parse {text : String} {settings : Settings} (h : parse text settings = .ok d) : Built P d := by
  obtain rfl | shape := parse_shape h
  · exact .pool (List.forall_mem_nil _)
  · exact shape.built (Nat.le_max_left _ _)

/-! ### Draws of groups -/

theorem drawsAllBy_replicate (rule : Nat → Nat → Nat) (count : Nat) (d : Die) :
    drawsAllBy rule (List.replicate count (.die d)) = count := by
  rw [drawsAllBy_eq_sum, List.map_replicate, List.sum_replicate_nat]
  exact Nat.mul_one count

/-- A roll of equal dice takes a draw for each of them, whatever explosions do. -/
theorem Simple.drawsBy (h : Simple T d) :
    ∃ count, 1 ≤ count ∧ count ≤ maxDice ∧ ∀ rule, d.drawsBy rule = count := by
  cases h with
  | die => exact ⟨1, Nat.le_refl 1, by decide, fun _ => rfl⟩
  | @copies count d _ two few => exact ⟨count, by omega, few, fun rule => drawsAllBy_replicate rule count d⟩
  | @selection count _ d _ _ _ one le few => exact ⟨count, by omega, few, fun rule => drawsAllBy_replicate rule count d⟩

theorem Plain.draws (h : Plain T (· = limit) d) (one : 1 ≤ limit) :
    (1 ≤ d.fewestDraws ∧ d.fewestDraws ≤ maxDice) ∧ d.mostDraws ≤ limit * d.fewestDraws := by
  cases h with
  | simple inside =>
    obtain ⟨count, some, few, draws⟩ := inside.drawsBy
    rw [fewestDraws, mostDraws, draws, draws]
    exact ⟨⟨some, few⟩, Nat.le_mul_of_pos_left count one⟩
  | explosion inside _ _ limited =>
    obtain ⟨count, some, few, draws⟩ := inside.drawsBy
    rw [fewestDraws, mostDraws, Dice.drawsBy, Dice.drawsBy, draws, draws]
    exact ⟨⟨some, few⟩, limited ▸ Nat.le_refl _⟩

/-- A tree that is written with some die letters takes at least one draw for each of them and at most as many as a
    group may hold, and each explosion repeats the draws of its group up to the limit. -/
theorem Lettered.draws {letters : Nat} (h : Lettered T (· = limit) letters d) (one : 1 ≤ limit) :
    (letters ≤ d.fewestDraws ∧ d.fewestDraws ≤ maxDice * letters) ∧ d.mostDraws ≤ limit * d.fewestDraws := by
  induction h with
  | plain group =>
    rw [Nat.mul_one]
    exact group.draws one
  | arithmetic _ _ _ _ ih => exact ih
  | @sum items _ _ _ _ ih =>
    simp only [fewestDraws, mostDraws, Dice.drawsBy, drawsAllBy_eq_sum, List.map_map, ← List.sum_map_mul_left]
    exact ⟨⟨List.sum_le_sum fun item hitem => (ih item hitem).1.1,
        List.sum_le_sum fun item hitem => (ih item hitem).1.2⟩,
      List.sum_le_sum fun item hitem => (ih item hitem).2⟩

/-- The tree of a text has a leaf for each die letter of the text, and for each letter at most as many as a group may
    hold. A roll of it takes a draw for each letter, and at most the limit of explosions for each of those leaves. -/
theorem parse_draws {text : String} {settings : Settings} (h : parse text settings = .ok d) :
    ∃ tokens letters, scan text = .ok tokens ∧ (tokens.map Placed.token).count .die = letters ∧
      letters ≤ d.leafCount ∧ d.leafCount ≤ maxDice * letters ∧
      ∀ supply next, next + letters ≤ (play supply d .roll next).next ∧
        (play supply d .roll next).next ≤ next + max 1 settings.explodeLimit * (maxDice * letters) := by
  obtain ⟨tokens, letters, scanned, counted, shape⟩ := parse_letters h
  have one : 1 ≤ max 1 settings.explodeLimit := Nat.le_max_left _ _
  have built : Built (fun _ => True) d := built_of_parse h
  have draws : (letters ≤ d.fewestDraws ∧ d.fewestDraws ≤ maxDice * letters) ∧
      d.mostDraws ≤ max 1 settings.explodeLimit * d.fewestDraws := by
    obtain ⟨rfl, rfl⟩ | written := shape
    · exact ⟨⟨Nat.le_refl 0, Nat.zero_le _⟩, Nat.zero_le _⟩
    · exact written.draws one
  obtain ⟨⟨some, few⟩, most⟩ := draws
  refine ⟨tokens, letters, scanned, counted, d.fewestDraws_eq_leafCount ▸ some, d.fewestDraws_eq_leafCount ▸ few,
    fun supply next => ?_⟩
  obtain ⟨taken, takes, least, upper⟩ := takesBetween_roll built supply next
  rw [takes.next_eq]
  exact ⟨Nat.add_le_add_left (Nat.le_trans some least) next,
    Nat.add_le_add_left (Nat.le_trans upper (Nat.le_trans most (Nat.mul_le_mul_left _ few))) next⟩

/-- Two dice that explode, beside four and three that do not, doubled below zero. -/
def besideBurst : Dice :=
  .arithmetic
    (.pool [.explosion (.pool (List.replicate 2 (.die .percentile)) none) .equals 100 3 none,
      .pool (List.replicate 4 (.die .fudge)) none, .pool (List.replicate 3 (.die .percentile)) none] none)
    .multiply (.ofInt (-2)) none

-- The number after the exclamation mark counts the dice of the next group.
theorem besideBurst_parsed : parse "(2d%!4 dF 3d%) * -2" ⟨none, 3⟩ = .ok besideBurst := by with_unfolding_all rfl

theorem besideBurst_draws : parse "(2d%!4 dF 3d%) * -2" ⟨none, 3⟩ = .ok besideBurst ∧
    ∃ tokens letters, scan "(2d%!4 dF 3d%) * -2" = .ok tokens ∧ (tokens.map Placed.token).count .die = letters ∧
      letters ≤ besideBurst.leafCount ∧ besideBurst.leafCount ≤ maxDice * letters ∧
      0 + letters ≤ (play (fun _ => 99) besideBurst .roll 0).next ∧
      (play (fun _ => 99) besideBurst .roll 0).next ≤ 0 + 3 * (maxDice * letters) := by
  obtain ⟨tokens, letters, scanned, counted, some, few, draws⟩ := parse_draws besideBurst_parsed
  exact ⟨besideBurst_parsed, tokens, letters, scanned, counted, some, few, draws (fun _ => 99) 0⟩

end DiceNotation.Dice
