import DiceNotation.Grammar.Group

/-! Expressions of a notation: a sum of terms, each a group with a chain of operators and constants. Groups may
    stand side by side without a plus sign. Operators are applied from the left and none binds tighter than
    another. A plus or minus takes a constant only if the number after it does not count dice; then a plus goes
    on with the next term, and a minus is refused, since dice cannot be subtracted.

    Each layer is a reader built from the layer below it, and expressions in parentheses come back one level
    deeper. An expression of `n` tokens never nests deeper than `n`. -/

namespace DiceNotation

/-! ### Groups -/

/-- A group: an expression in parentheses, or plain dice. -/
def readGroup (settings : Settings) (expression : Reader Dice) (tokens : List Placed) :
    Except Error (Dice × List Placed) :=
  match tokens with
  | ⟨_, .openGroup⟩ :: ⟨offset, .closeGroup⟩ :: _ => .error (.malformed offset .emptyGroup)
  | ⟨_, .openGroup⟩ :: inside =>
    match expression.run inside with
    | .error e => .error e
    | .ok (d, ⟨_, .closeGroup⟩ :: rest) => .ok (d, rest)
    | .ok (_, rest) => refuseFor rest .closeGroup
  | ⟨_, .number _⟩ :: _ => readPlain settings tokens
  | ⟨_, .die⟩ :: _ => readPlain settings tokens
  | _ => refuseFor tokens .group

def groupOf (settings : Settings) (expression : Reader Dice) : Reader Dice where
  run := readGroup settings expression
  shorter {tokens rest d} h := by
    unfold readGroup at h
    split at h
    · cases h
    · split at h
      · cases h
      · next inner =>
        cases h
        have := expression.shorter inner
        simp only [List.length_cons] at *
        omega
      · exact absurd h refuseFor_ne_ok
    · exact readPlain_shorter h
    · exact readPlain_shorter h
    · exact absurd h refuseFor_ne_ok

/-! ### Terms -/

/-- The operator that comes next and the tokens after it, if a constant belongs to it. -/
def operatorAhead? : List Placed → Option (Operator × List Placed)
  | ⟨_, .operator .add⟩ :: rest => if (looseNumber? rest).isSome then some (.add, rest) else none
  | ⟨_, .operator .subtract⟩ :: rest => if (looseNumber? rest).isSome then some (.subtract, rest) else none
  | ⟨_, .operator operator⟩ :: rest => some (operator, rest)
  | _ => none

/-- An operator comes next if a constant belongs to it; a plus or minus takes no number that counts dice. -/
theorem operatorAhead?_eq_some_iff {tokens rest : List Placed} {operator : Operator} :
    operatorAhead? tokens = some (operator, rest) ↔ (∃ offset, tokens = ⟨offset, .operator operator⟩ :: rest) ∧
      (operator = .add ∨ operator = .subtract → (looseNumber? rest).isSome = true) := by
  constructor
  · intro h
    unfold operatorAhead? at h
    split at h
    · split at h
      · next loose =>
        cases h
        exact ⟨⟨_, rfl⟩, fun _ => loose⟩
      · cases h
    · split at h
      · next loose =>
        cases h
        exact ⟨⟨_, rfl⟩, fun _ => loose⟩
      · cases h
    · next noAdd noSubtract =>
      cases h
      exact ⟨⟨_, rfl⟩, fun h => (h.elim noAdd noSubtract).elim⟩
    · cases h
  · rintro ⟨⟨offset, rfl⟩, loose⟩
    cases operator with
    | add => exact if_pos (loose (.inl rfl))
    | subtract => exact if_pos (loose (.inr rfl))
    | _ => rfl

theorem operatorAhead?_shorter {tokens rest : List Placed} {operator : Operator}
    (h : operatorAhead? tokens = some (operator, rest)) : rest.length < tokens.length := by
  obtain ⟨⟨_, rfl⟩, -⟩ := operatorAhead?_eq_some_iff.mp h
  exact Nat.lt_succ_self _

/-- Applies the operators and constants that come next to a node. -/
def readChain (settings : Settings) (d : Dice) (tokens : List Placed) : Except Error (Dice × List Placed) :=
  match _ahead : operatorAhead? tokens with
  | none => .ok (d, tokens)
  | some (operator, after) =>
    match _signed : readSigned after with
    | .error e => .error e
    | .ok (operand, rest) =>
      match d.apply operator operand settings.tracer with
      | .error e => .error e
      | .ok d => readChain settings d rest
termination_by tokens.length
decreasing_by
  have := operatorAhead?_shorter _ahead
  have := readSigned_shorter _signed
  omega

theorem readChain_of_none {settings : Settings} {d : Dice} {tokens : List Placed}
    (h : operatorAhead? tokens = none) : readChain settings d tokens = .ok (d, tokens) := by
  rw [readChain]
  split
  · rfl
  · next h' => rw [h] at h'; cases h'

theorem readChain_of_some {settings : Settings} {d : Dice} {tokens after : List Placed} {operator : Operator}
    (h : operatorAhead? tokens = some (operator, after)) :
    readChain settings d tokens =
      match readSigned after with
      | .error e => .error e
      | .ok (operand, rest) =>
        match d.apply operator operand settings.tracer with
        | .error e => .error e
        | .ok d => readChain settings d rest := by
  rw [readChain]
  split
  · next h' => rw [h] at h'; cases h'
  · next h' => rw [h] at h'; cases h'; cases readSigned after <;> rfl

theorem readChain_le {settings : Settings} {d last : Dice} {tokens rest : List Placed}
    (h : readChain settings d tokens = .ok (last, rest)) : rest.length ≤ tokens.length := by
  fun_induction readChain settings d tokens with
  | case1 => cases h; exact Nat.le_refl _
  | case2 => cases h
  | case3 => cases h
  | case4 d tokens operator after ahead operand middle signed next _ ih =>
    have := operatorAhead?_shorter ahead
    have := readSigned_shorter signed
    have := ih h
    omega

/-- Terms: a group and its chain. -/
def termOf (settings : Settings) (group : Reader Dice) : Reader Dice where
  run tokens :=
    match group.run tokens with
    | .error e => .error e
    | .ok (d, rest) => readChain settings d rest
  shorter {tokens rest d} h := by
    split at h
    · cases h
    · next first =>
      have := group.shorter first
      have := readChain_le h
      omega

/-! ### Sums -/

/-- Whether a token can start a term. -/
def Token.startsTerm : Token → Bool
  | .number _ => true
  | .die => true
  | .openGroup => true
  | _ => false

/-- Where the next term of a sum starts: after a plus sign, or at once. -/
def nextTerm? : List Placed → Option (List Placed)
  | ⟨_, .operator .add⟩ :: rest => some rest
  | tokens => if (peek tokens).startsTerm then some tokens else none

theorem nextTerm?_cons {offset : Nat} {t : Token} {rest : List Placed} : nextTerm? (⟨offset, t⟩ :: rest) =
    if t = .operator .add then some rest else if t.startsTerm then some (⟨offset, t⟩ :: rest) else none := by
  unfold nextTerm?
  split
  · next heq =>
    cases heq
    rfl
  · next noAdd =>
    have hne : t ≠ .operator .add := fun h => noAdd offset rest (by rw [h])
    rw [if_neg hne]
    rfl

theorem nextTerm?_le {tokens start : List Placed} (h : nextTerm? tokens = some start) :
    start.length ≤ tokens.length := by
  unfold nextTerm? at h
  split at h
  · cases h; simp
  · split at h
    · cases h; exact Nat.le_refl _
    · cases h

/-- The terms of a sum after the first one. -/
def readTerms (term : Reader Dice) (tokens : List Placed) : Except Error (List Dice × List Placed) :=
  match _start : nextTerm? tokens with
  | none => if peek tokens = .operator .subtract then refuse tokens .subtractedGroup else .ok ([], tokens)
  | some start =>
    match _first : term.run start with
    | .error e => .error e
    | .ok (d, rest) => (readTerms term rest).map fun (ds, rest) => (d :: ds, rest)
termination_by tokens.length
decreasing_by
  have := nextTerm?_le _start
  have := term.shorter _first
  omega

theorem readTerms_of_none {term : Reader Dice} {tokens : List Placed} (h : nextTerm? tokens = none) :
    readTerms term tokens =
      if peek tokens = .operator .subtract then refuse tokens .subtractedGroup else .ok ([], tokens) := by
  rw [readTerms]
  split
  · rfl
  · next h' => rw [h] at h'; cases h'

theorem readTerms_of_some {term : Reader Dice} {tokens start : List Placed} (h : nextTerm? tokens = some start) :
    readTerms term tokens =
      match term.run start with
      | .error e => .error e
      | .ok (d, rest) => (readTerms term rest).map fun (ds, rest) => (d :: ds, rest) := by
  rw [readTerms]
  split
  · next h' => rw [h] at h'; cases h'
  · next h' => rw [h] at h'; cases h'; cases term.run start <;> rfl

theorem readTerms_le {term : Reader Dice} {tokens rest : List Placed} {ds : List Dice}
    (h : readTerms term tokens = .ok (ds, rest)) : rest.length ≤ tokens.length := by
  fun_induction readTerms term tokens generalizing ds rest with
  | case1 => exact absurd h refuse_ne_ok
  | case2 => cases h; exact Nat.le_refl _
  | case3 => cases h
  | case4 tokens start started d middle first ih =>
    have := nextTerm?_le started
    have := term.shorter first
    cases others : readTerms term middle with
    | error e => rw [others] at h; cases h
    | ok read =>
      rw [others] at h
      cases h
      have := ih others
      omega

/-- The node of a sum: a single term stands for itself. -/
def sumOfTerms (settings : Settings) (first : Dice) (others : List Dice) : Dice :=
  if others.isEmpty then first else .pool (first :: others) settings.tracer

def sumOf (settings : Settings) (term : Reader Dice) : Reader Dice where
  run tokens :=
    match term.run tokens with
    | .error e => .error e
    | .ok (first, rest) => (readTerms term rest).map fun (others, rest) => (sumOfTerms settings first others, rest)
  shorter {tokens rest d} h := by
    split at h
    · cases h
    · next first middle read =>
      have := term.shorter read
      cases others : readTerms term middle with
      | error e => rw [others] at h; cases h
      | ok read =>
        rw [others] at h
        cases h
        have := readTerms_le others
        omega

/-! ### Expressions -/

/-- Expressions with parentheses nested less than `depth` deep. -/
def expression (settings : Settings) : Nat → Reader Dice
  | 0 => ⟨fun tokens => refuseFor tokens .group, fun h => absurd h refuseFor_ne_ok⟩
  | depth + 1 => sumOf settings (termOf settings (groupOf settings (expression settings depth)))

/-! ### The depth does not matter

Two readers agree up to `n` if they do the same on every list of at most `n` tokens. Each layer keeps the
agreement of the layers below it, and parentheses add one token to it. -/

/-- The readers do the same on at most `n` tokens. -/
def Reader.AgreeUpTo (n : Nat) (a b : Reader α) : Prop :=
  ∀ tokens : List Placed, tokens.length ≤ n → a.run tokens = b.run tokens

theorem groupOf_agreeUpTo {settings : Settings} {n : Nat} {a b : Reader Dice} (h : Reader.AgreeUpTo n a b) :
    Reader.AgreeUpTo (n + 1) (groupOf settings a) (groupOf settings b) := by
  intro tokens short
  show readGroup settings a tokens = readGroup settings b tokens
  unfold readGroup
  split
  · rfl
  · next inside _ =>
    simp only [List.length_cons] at short
    rw [h inside (by omega)]
  · rfl
  · rfl
  · rfl

theorem termOf_agreeUpTo {settings : Settings} {n : Nat} {a b : Reader Dice} (h : Reader.AgreeUpTo n a b) :
    Reader.AgreeUpTo n (termOf settings a) (termOf settings b) := by
  intro tokens short
  simp only [termOf, h tokens short]

theorem readTerms_eq_of_agreeUpTo {n : Nat} {a b : Reader Dice} (h : Reader.AgreeUpTo n a b)
    {tokens : List Placed} (short : tokens.length ≤ n) : readTerms a tokens = readTerms b tokens := by
  fun_induction readTerms a tokens with
  | case1 tokens none subtract => rw [readTerms_of_none none, if_pos subtract]
  | case2 tokens none other => rw [readTerms_of_none none, if_neg other]
  | case3 tokens start started e first =>
    have := nextTerm?_le started
    rw [readTerms_of_some started, ← h start (by omega), first]
  | case4 tokens start started d rest first ih =>
    have := nextTerm?_le started
    have := a.shorter first
    rw [readTerms_of_some started, ← h start (by omega), first, ih (by omega)]

theorem sumOf_agreeUpTo {settings : Settings} {n : Nat} {a b : Reader Dice} (h : Reader.AgreeUpTo n a b) :
    Reader.AgreeUpTo n (sumOf settings a) (sumOf settings b) := by
  intro tokens short
  simp only [sumOf, ← h tokens short]
  cases first : a.run tokens with
  | error e => rfl
  | ok read =>
    have := a.shorter first
    simp only [readTerms_eq_of_agreeUpTo h (show read.2.length ≤ n by omega)]

/-- No expression needs a greater depth than it has tokens. -/
theorem expression_agreeUpTo (settings : Settings) (n m : Nat) :
    Reader.AgreeUpTo (min n m) (expression settings n) (expression settings m) := by
  induction n generalizing m with
  | zero =>
    intro tokens short
    have : tokens = [] := List.length_eq_zero_iff.1 (by omega)
    subst this
    cases m <;> rfl
  | succ n ih =>
    cases m with
    | zero =>
      intro tokens short
      have : tokens = [] := List.length_eq_zero_iff.1 (by omega)
      subst this
      rfl
    | succ m =>
      rw [show min (n + 1) (m + 1) = min n m + 1 by omega]
      exact sumOf_agreeUpTo (termOf_agreeUpTo (groupOf_agreeUpTo (ih m)))

end DiceNotation
