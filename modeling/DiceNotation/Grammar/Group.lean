import DiceNotation.Dice.Build
import DiceNotation.Grammar.Reader

/-! Plain groups of a notation: a count of equal dice with modifiers, as in `4d6dh1!`. The count, the faces and
    the numbers of the modifiers may be left out. A number directly before a die letter counts the dice of the
    next group, so no modifier takes it. The selection is applied to the dice first and the explosion last, in
    whichever order they are written. -/

namespace DiceNotation

/-! ### Dice -/

/-- The faces of a custom die up to the closing bracket. -/
def readFaces (tokens : List Placed) : Except Error (List Outcome × List Placed) :=
  match _h : readSigned tokens with
  | .error e => .error e
  | .ok (face, ⟨_, .comma⟩ :: rest) => (readFaces rest).map fun (faces, rest) => (face :: faces, rest)
  | .ok (face, ⟨_, .closeFaces⟩ :: rest) => .ok ([face], rest)
  | .ok (_, rest) => refuseFor rest .moreFaces
termination_by tokens.length
decreasing_by
  have shorter := readSigned_shorter _h
  simp only [List.length_cons] at shorter
  omega

theorem readFaces_shorter {tokens rest : List Placed} {faces : List Outcome}
    (h : readFaces tokens = .ok (faces, rest)) : rest.length < tokens.length := by
  fun_induction readFaces tokens generalizing faces rest with
  | case1 => cases h
  | case2 tokens face offset after signed ih =>
    have := readSigned_shorter signed
    cases more : readFaces after with
    | error e => rw [more] at h; cases h
    | ok read =>
      rw [more] at h
      cases h
      have := ih more
      simp only [List.length_cons] at *
      omega
  | case3 tokens face offset after signed =>
    cases h
    have := readSigned_shorter signed
    simp only [List.length_cons] at *
    omega
  | case4 => exact absurd h refuseFor_ne_ok

/-- What follows the letter of a die: a number of sides, the sign of a special die, or a list of faces; if
    none of these, the die has the default sides. -/
def readDie : List Placed → Except Error (Die × List Placed)
  | ⟨_, .number sides⟩ :: rest => (Die.ofSides sides).map (·, rest)
  | ⟨_, .fudge⟩ :: rest => .ok (.fudge, rest)
  | ⟨_, .percent⟩ :: rest => .ok (.percentile, rest)
  | ⟨_, .openFaces⟩ :: rest =>
    match readFaces rest with
    | .error e => .error e
    | .ok (faces, rest) => (Die.ofFaces faces).map (·, rest)
  | tokens => (Die.ofSides defaultSides).map (·, tokens)

theorem readDie_le {tokens rest : List Placed} {die : Die} (h : readDie tokens = .ok (die, rest)) :
    rest.length ≤ tokens.length := by
  unfold readDie at h
  split at h
  · next sides after =>
    cases sided : Die.ofSides sides with
    | error e => rw [sided] at h; cases h
    | ok die => rw [sided] at h; cases h; simp
  · cases h; simp
  · cases h; simp
  · split at h
    · cases h
    · next faces after listed =>
      have := readFaces_shorter listed
      cases faced : Die.ofFaces faces with
      | error e => rw [faced] at h; cases h
      | ok die => rw [faced] at h; cases h; simp only [List.length_cons]; omega
  · cases h; exact Nat.le_refl _

/-- The count of a group, which is one when left out. -/
def readCount : List Placed → Except Error (Nat × List Placed)
  | ⟨_, .number count⟩ :: rest =>
    if count = 0 then .error (.illegal .noDice)
    else if maxDice < count then .error (.illegal (.tooManyDice count maxDice))
    else .ok (count, rest)
  | tokens => .ok (1, tokens)

/-- A count is a number of dice that a group may hold, or left out where no number comes next. -/
theorem readCount_eq_ok_iff {tokens rest : List Placed} {count : Nat} : readCount tokens = .ok (count, rest) ↔
    (∃ offset, tokens = ⟨offset, .number count⟩ :: rest ∧ count ≠ 0 ∧ count ≤ maxDice) ∨
      (count = 1 ∧ rest = tokens ∧ ∀ n, peek tokens ≠ .number n) := by
  constructor
  · intro h
    unfold readCount at h
    split at h
    · split at h
      · cases h
      · next some =>
        split at h
        · cases h
        · next few =>
          cases h
          exact .inl ⟨_, rfl, some, Nat.not_lt.mp few⟩
    · next none =>
      cases h
      refine .inr ⟨rfl, rfl, fun n hn => ?_⟩
      match tokens, hn with
      | ⟨_, _⟩ :: _, rfl => exact none _ _ _ rfl
  · rintro (⟨offset, rfl, some, few⟩ | ⟨rfl, rfl, none⟩)
    · rw [readCount, if_neg some, if_neg (Nat.not_lt.mpr few)]
    · unfold readCount
      split
      · exact absurd rfl (none _)
      · rfl

theorem readCount_le {tokens rest : List Placed} {count : Nat} (h : readCount tokens = .ok (count, rest)) :
    rest.length ≤ tokens.length := by
  obtain ⟨_, rfl, -⟩ | ⟨-, rfl, -⟩ := readCount_eq_ok_iff.mp h
  · exact Nat.le_succ _
  · exact Nat.le_refl _

/-! ### Modifiers -/

/-- When dice explode: a comparison, and a threshold unless the highest face is meant. -/
structure Trigger where
  comparison : Comparison
  threshold : Option Outcome
deriving DecidableEq

/-- The modifiers of a group, at most one of each kind. -/
structure Modifiers where
  trigger : Option Trigger := none
  selection : Option (Selector × Nat) := none
deriving DecidableEq

/-- What follows a bang: a comparison and an integer, or a number alone, or nothing. -/
def readTrigger : List Placed → Except Error (Trigger × List Placed)
  | ⟨_, .comparison c⟩ :: rest => (readSigned rest).map fun (threshold, rest) => (⟨c, some threshold⟩, rest)
  | tokens =>
    match looseNumber? tokens with
    | some (threshold, rest) => .ok (⟨.equals, some (.ofInt threshold)⟩, rest)
    | none => .ok (⟨.equals, none⟩, tokens)

theorem readTrigger_le {tokens rest : List Placed} {t : Trigger} (h : readTrigger tokens = .ok (t, rest)) :
    rest.length ≤ tokens.length := by
  unfold readTrigger at h
  split at h
  · next rest' =>
    cases signed : readSigned rest' with
    | error e => rw [signed] at h; cases h
    | ok read =>
      rw [signed] at h
      cases h
      have := readSigned_shorter signed
      simp only [List.length_cons]
      omega
  · split at h
    · next loose => cases h; exact Nat.le_of_lt (looseNumber?_shorter loose)
    · cases h; exact Nat.le_refl _

/-- What follows the letters of a selector: a number, or nothing, which means one. -/
def readRank (tokens : List Placed) : Nat × List Placed := (looseNumber? tokens).getD (1, tokens)

theorem readRank_le (tokens : List Placed) : (readRank tokens).2.length ≤ tokens.length := by
  unfold readRank
  cases loose : looseNumber? tokens with
  | none => exact Nat.le_refl _
  | some read => exact Nat.le_of_lt (looseNumber?_shorter loose)

/-- The modifiers up to the first token that starts none; `found` are those read so far. -/
def readModifiers (found : Modifiers) (tokens : List Placed) : Except Error (Modifiers × List Placed) :=
  match tokens with
  | ⟨offset, .bang⟩ :: after =>
    match _h : readTrigger after with
    | .error e => .error e
    | .ok (trigger, rest) =>
      if found.trigger.isSome then .error (.malformed offset .secondExplosion)
      else readModifiers { found with trigger := some trigger } rest
  | ⟨offset, .selector s⟩ :: after =>
    if found.selection.isSome then .error (.malformed offset .secondSelection)
    else readModifiers { found with selection := some (s, (readRank after).1) } (readRank after).2
  | tokens => .ok (found, tokens)
termination_by tokens.length
decreasing_by
  · have := readTrigger_le _h
    simp only [List.length_cons]
    omega
  · have := readRank_le after
    simp only [List.length_cons]
    omega

theorem readModifiers_bang (found : Modifiers) (offset : Nat) (after : List Placed) :
    readModifiers found (⟨offset, .bang⟩ :: after) =
      match readTrigger after with
      | .error e => .error e
      | .ok (trigger, rest) =>
        if found.trigger.isSome then .error (.malformed offset .secondExplosion)
        else readModifiers { found with trigger := some trigger } rest := by
  rw [readModifiers]
  cases readTrigger after <;> rfl

theorem readModifiers_selector (found : Modifiers) (offset : Nat) (s : Selector) (after : List Placed) :
    readModifiers found (⟨offset, .selector s⟩ :: after) =
      if found.selection.isSome then .error (.malformed offset .secondSelection)
      else readModifiers { found with selection := some (s, (readRank after).1) } (readRank after).2 := by
  rw [readModifiers]

theorem readModifiers_le {found modifiers : Modifiers} {tokens rest : List Placed}
    (h : readModifiers found tokens = .ok (modifiers, rest)) : rest.length ≤ tokens.length := by
  fun_induction readModifiers found tokens with
  | case1 => cases h
  | case2 => cases h
  | case3 found offset after trigger middle triggered _ ih =>
    have := readTrigger_le triggered
    have := ih h
    simp only [List.length_cons]
    omega
  | case4 => cases h
  | case5 found offset selector after _ ih =>
    have := readRank_le after
    have := ih h
    simp only [List.length_cons]
    omega
  | case6 => cases h; exact Nat.le_refl _

/-! ### The group -/

/-- The dice of a group: a single die stands alone, unless something is selected from it. -/
def assemble (settings : Settings) (count : Nat) (die : Die) : Option (Selector × Nat) → Except Error Dice
  | none => .ok (if count = 1 then .die die else (Pool.replicate count (.die die) settings.tracer).sum)
  | some (selector, k) => (Pool.replicate count (.die die) settings.tracer).select selector k settings.tracer

/-- The node of a group with its modifiers. -/
def buildGroup (settings : Settings) (count : Nat) (die : Die) (modifiers : Modifiers) : Except Error Dice :=
  match assemble settings count die modifiers.selection, modifiers.trigger with
  | .error e, _ => .error e
  | .ok inner, none => .ok inner
  | .ok inner, some trigger =>
    inner.explode trigger.comparison (trigger.threshold.getD inner.highestFace) settings.explodeLimit
      settings.tracer

/-- A group is its dice, or what explodes of them. -/
theorem buildGroup_cases {settings : Settings} {count : Nat} {die : Die} {modifiers : Modifiers} {d : Dice}
    (h : buildGroup settings count die modifiers = .ok d) :
    ∃ inner, assemble settings count die modifiers.selection = .ok inner ∧
      (modifiers.trigger = none ∧ d = inner ∨ ∃ trigger, modifiers.trigger = some trigger ∧
        inner.explode trigger.comparison (trigger.threshold.getD inner.highestFace) settings.explodeLimit
          settings.tracer = .ok d) := by
  unfold buildGroup at h
  split at h
  · cases h
  · next inner assembled triggered =>
    cases h
    exact ⟨_, assembled, .inl ⟨triggered, rfl⟩⟩
  · next inner trigger assembled triggered => exact ⟨inner, assembled, .inr ⟨trigger, triggered, h⟩⟩

/-- A plain group: count, die letter, faces and modifiers. -/
def readPlain (settings : Settings) (tokens : List Placed) : Except Error (Dice × List Placed) :=
  match readCount tokens with
  | .error e => .error e
  | .ok (count, ⟨_, .die⟩ :: rest) =>
    match readDie rest with
    | .error e => .error e
    | .ok (die, rest) =>
      match readModifiers {} rest with
      | .error e => .error e
      | .ok (modifiers, rest) => (buildGroup settings count die modifiers).map (·, rest)
  | .ok (_, rest) => refuseFor rest .die

/-- A plain group is read by reading its count, its letter, its faces and its modifiers, and by building its node. -/
theorem readPlain_eq_ok_iff {settings : Settings} {tokens rest : List Placed} {d : Dice} :
    readPlain settings tokens = .ok (d, rest) ↔ ∃ count offset afterDie die afterFaces modifiers,
      readCount tokens = .ok (count, ⟨offset, .die⟩ :: afterDie) ∧ readDie afterDie = .ok (die, afterFaces) ∧
        readModifiers {} afterFaces = .ok (modifiers, rest) ∧ buildGroup settings count die modifiers = .ok d := by
  constructor
  · intro h
    unfold readPlain at h
    split at h
    · cases h
    · next counted =>
      split at h
      · cases h
      · next die _ faced =>
        split at h
        · cases h
        · next modifiers _ modified =>
          cases built : buildGroup settings _ die modifiers with
          | error e =>
            rw [built] at h
            cases h
          | ok d =>
            rw [built] at h
            cases h
            exact ⟨_, _, _, _, _, _, counted, faced, modified, built⟩
    · exact absurd h refuseFor_ne_ok
  · rintro ⟨_, _, _, _, _, _, counted, faced, modified, built⟩
    simp only [readPlain, counted, faced, modified, built]
    rfl

theorem readPlain_shorter {settings : Settings} {tokens rest : List Placed} {d : Dice}
    (h : readPlain settings tokens = .ok (d, rest)) : rest.length < tokens.length := by
  obtain ⟨_, _, _, _, _, _, counted, faced, modified, -⟩ := readPlain_eq_ok_iff.mp h
  have := readCount_le counted
  have := readDie_le faced
  have := readModifiers_le modified
  simp only [List.length_cons] at *
  omega

end DiceNotation
