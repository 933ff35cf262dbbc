import DiceNotation.Error

/-! Reading placed tokens. Each step takes some tokens off the front of the list and leaves the rest. A
    `Reader` carries the proof that it takes at least one, so that a loop over it ends. -/

namespace DiceNotation

/-- The next token; `finish` when none is left. -/
def peek : List Placed → Token
  | [] => .finish
  | p :: _ => p.token

def position : List Placed → Nat
  | [] => 0
  | p :: _ => p.offset

/-- A fault at the next token. -/
def refuse (tokens : List Placed) (fault : Fault) : Except Error α := .error (.malformed (position tokens) fault)

/-- Another token is wanted than the next one. -/
def refuseFor (tokens : List Placed) (wanted : Wanted) : Except Error α :=
  refuse tokens (.expected wanted (peek tokens))

@[simp] theorem refuse_ne_ok {tokens : List Placed} {fault : Fault} {a : α} :
    (refuse tokens fault : Except Error α) ≠ .ok a := by
  simp [refuse]

@[simp] theorem refuseFor_ne_ok {tokens : List Placed} {wanted : Wanted} {a : α} :
    (refuseFor tokens wanted : Except Error α) ≠ .ok a := by
  simp [refuseFor]

/-- A step of reading that takes at least one token. -/
structure Reader (α : Type) where
  run : List Placed → Except Error (α × List Placed)
  shorter : ∀ {tokens rest : List Placed} {a : α}, run tokens = .ok (a, rest) → rest.length < tokens.length

/-! ### Numbers -/

/-- An integer: a number with or without a minus sign. -/
def readSigned : List Placed → Except Error (Outcome × List Placed)
  | ⟨_, .number n⟩ :: rest => .ok (.ofInt n, rest)
  | ⟨_, .operator .subtract⟩ :: ⟨_, .number n⟩ :: rest => .ok (.ofInt (-n), rest)
  | ⟨_, .operator .subtract⟩ :: rest => refuseFor rest .number
  | tokens => refuseFor tokens .number

theorem readSigned_shorter {tokens rest : List Placed} {n : Outcome} (h : readSigned tokens = .ok (n, rest)) :
    rest.length < tokens.length := by
  unfold readSigned at h
  split at h
  · cases h; exact Nat.lt_succ_self _
  · cases h; simp only [List.length_cons]; omega
  · exact absurd h refuseFor_ne_ok
  · exact absurd h refuseFor_ne_ok

/-- The next number and the tokens after it, unless that number counts the dice of a group. -/
def looseNumber? : List Placed → Option (Nat × List Placed)
  | ⟨_, .number _⟩ :: ⟨_, .die⟩ :: _ => none
  | ⟨_, .number n⟩ :: rest => some (n, rest)
  | _ => none

theorem looseNumber?_cons {rest : List Placed} {offset n : Nat} (h : peek rest ≠ .die) :
    looseNumber? (⟨offset, .number n⟩ :: rest) = some (n, rest) := by
  unfold looseNumber?
  split
  · next heq => cases heq; exact absurd rfl h
  · next heq => cases heq; rfl
  · next hne => exact absurd rfl (hne _ _ _)

theorem looseNumber?_eq_some_iff {tokens rest : List Placed} {n : Nat} :
    looseNumber? tokens = some (n, rest) ↔ (∃ offset, tokens = ⟨offset, .number n⟩ :: rest) ∧ peek rest ≠ .die := by
  constructor
  · intro h
    unfold looseNumber? at h
    split at h
    · cases h
    · next hdie =>
      cases h
      refine ⟨⟨_, rfl⟩, fun hpeek => ?_⟩
      cases rest with
      | nil => cases hpeek
      | cons p rest =>
        obtain ⟨offset, t⟩ := p
        obtain rfl : t = .die := hpeek
        exact hdie _ _ rfl
    · cases h
  · rintro ⟨⟨offset, rfl⟩, hdie⟩
    exact looseNumber?_cons hdie

theorem looseNumber?_shorter {tokens rest : List Placed} {n : Nat} (h : looseNumber? tokens = some (n, rest)) :
    rest.length < tokens.length := by
  obtain ⟨⟨_, rfl⟩, -⟩ := looseNumber?_eq_some_iff.mp h
  exact Nat.lt_succ_self _

end DiceNotation
