import DiceNotation.Proofs.Notation.Reading
import DiceNotation.Proofs.Notation.Shape

/-! Reading is local: what a reader makes of a text does not change when the text goes on with something that can
    follow a group. Each reader looks at most two tokens ahead, and at the end of the text it decides as it does
    before an operator, a closing parenthesis or another group; only a chain and a sum would go on, if what follows
    lets them, and a die without faces would take a number. -/

namespace DiceNotation

/-- A token that can follow a group: one that ends it, or the first of a group beside it. -/
def Token.follows : Token → Bool
  | number _ => true
  | openGroup => true
  | t => t.ends

/-- What can follow a group. A number there counts the dice of the next group. -/
structure Follows (rest : List Placed) : Prop where
  first : (peek rest).follows = true
  loose : looseNumber? rest = none

theorem Token.isNumber_of_ends {t : Token} (h : t.ends = true) : t.isNumber = false := by
  cases t with
  | number => cases h
  | _ => rfl

theorem Follows.of_ends {rest : List Placed} (h : (peek rest).ends = true) : Follows rest where
  first := by
    unfold Token.follows
    split
    · rfl
    · rfl
    · exact h
  loose := looseNumber?_of_peek fun n hn => by
    rw [hn] at h
    cases h

/-- The tokens of two texts with the same words, up to where the first text ends and the second goes on with
    something that can follow a group. A number does not come after the letter of a die in one of them only, since
    it would be taken for the faces. -/
inductive Alike (rest rest' : List Placed) : List Placed → List Placed → Prop
  | stop (ended : peek rest = .finish) (follows : Follows rest') : Alike rest rest' rest rest'
  | cons {offset offset' : Nat} {t : Token} {tokens tokens' : List Placed} (inner : t ≠ .finish)
      (faces : t = .die → (peek tokens').isNumber = (peek tokens).isNumber)
      (later : Alike rest rest' tokens tokens') : Alike rest rest' (⟨offset, t⟩ :: tokens) (⟨offset', t⟩ :: tokens')

section
variable {settings : Settings} {d : Dice} {rest rest' tokens tokens' after after' left : List Placed}
  {offset offset' n : Nat} {t : Token}

namespace Alike

theorem next (alike : Alike rest rest' (⟨offset, t⟩ :: after) tokens') (inner : t ≠ .finish) :
    ∃ offset' after', tokens' = ⟨offset', t⟩ :: after' ∧ Alike rest rest' after after' := by
  cases alike with
  | stop ended => exact absurd ended inner
  | cons _ _ later => exact ⟨_, _, rfl, later⟩

theorem prev (alike : Alike rest rest' tokens (⟨offset, t⟩ :: after))
    (inner : peek tokens = .finish → t.follows = false) :
    ∃ offset' before, tokens = ⟨offset', t⟩ :: before ∧ Alike rest rest' before after := by
  cases alike with
  | stop ended follows =>
    have first : t.follows = true := follows.first
    rw [inner ended] at first
    cases first
  | cons _ _ later => exact ⟨_, _, rfl, later⟩

theorem peek_eq_iff (alike : Alike rest rest' tokens tokens') (inner : t.follows = false) :
    peek tokens' = t ↔ peek tokens = t := by
  have hne : t ≠ .finish := by
    rintro rfl
    cases inner
  cases alike with
  | cons => exact Iff.rfl
  | stop ended follows =>
    rw [ended]
    refine ⟨fun h => ?_, fun h => absurd h.symm hne⟩
    have first := follows.first
    rw [h, inner] at first
    cases first

theorem peek_eq (alike : Alike rest rest' tokens tokens') (inner : peek tokens ≠ .finish) :
    peek tokens' = peek tokens := by
  cases alike with
  | stop ended => exact absurd ended inner
  | cons => rfl

/-- After the letter of a die both texts go on with a number, or none does. -/
theorem isNumber_after_die (alike : Alike rest rest' (⟨offset, .die⟩ :: after) (⟨offset', .die⟩ :: after')) :
    (peek after').isNumber = (peek after).isNumber := by
  cases alike with
  | stop ended => cases ended
  | cons _ faces => exact faces rfl

theorem eq_of_finish (alike : Alike rest rest' tokens tokens') (h : peek tokens = .finish) :
    tokens = rest ∧ tokens' = rest' := by
  cases alike with
  | stop => exact ⟨rfl, rfl⟩
  | cons inner => exact absurd h inner

theorem ended (alike : Alike rest rest' tokens tokens') : peek rest = .finish := by
  induction alike with
  | stop ended => exact ended
  | cons _ _ _ ih => exact ih

end Alike

/-! ### Numbers -/

theorem readSigned_alike {n : Outcome} (alike : Alike rest rest' tokens tokens')
    (h : readSigned tokens = .ok (n, left)) :
    ∃ left', readSigned tokens' = .ok (n, left') ∧ Alike rest rest' left left' := by
  unfold readSigned at h
  split at h
  · cases h
    obtain ⟨_, after', rfl, later⟩ := alike.next (by simp)
    exact ⟨after', rfl, later⟩
  · cases h
    obtain ⟨_, _, rfl, digits⟩ := alike.next (by simp)
    obtain ⟨_, after', rfl, later⟩ := digits.next (by simp)
    exact ⟨after', rfl, later⟩
  · exact absurd h refuseFor_ne_ok
  · exact absurd h refuseFor_ne_ok

theorem looseNumber?_alike (alike : Alike rest rest' tokens tokens') (h : looseNumber? tokens = some (n, left)) :
    ∃ left', looseNumber? tokens' = some (n, left') ∧ Alike rest rest' left left' := by
  obtain ⟨⟨_, rfl⟩, hdie⟩ := looseNumber?_eq_some_iff.mp h
  obtain ⟨_, after', rfl, later⟩ := alike.next (by simp)
  exact ⟨after', looseNumber?_cons fun hpeek => hdie ((later.peek_eq_iff rfl).mp hpeek), later⟩

theorem looseNumber?_none_alike (alike : Alike rest rest' tokens tokens') (h : looseNumber? tokens = none) :
    looseNumber? tokens' = none := by
  rw [Option.eq_none_iff_forall_ne_some] at h ⊢
  rintro ⟨n, after⟩ hsome
  cases alike with
  | stop _ follows =>
    rw [follows.loose] at hsome
    cases hsome
  | cons _ _ later =>
    obtain ⟨⟨_, heq⟩, hdie⟩ := looseNumber?_eq_some_iff.mp hsome
    cases heq
    exact h _ (looseNumber?_cons fun hpeek => hdie ((later.peek_eq_iff rfl).mpr hpeek))

theorem isSome_looseNumber?_alike (alike : Alike rest rest' tokens tokens') :
    (looseNumber? tokens').isSome = (looseNumber? tokens).isSome := by
  cases loose : looseNumber? tokens with
  | none => rw [looseNumber?_none_alike alike loose]
  | some read =>
    obtain ⟨_, loose', -⟩ := looseNumber?_alike alike loose
    rw [loose']
    rfl

/-! ### Plain groups -/

theorem readFaces_alike {faces : List Outcome} (alike : Alike rest rest' tokens tokens')
    (h : readFaces tokens = .ok (faces, left)) :
    ∃ left', readFaces tokens' = .ok (faces, left') ∧ Alike rest rest' left left' := by
  fun_induction readFaces tokens generalizing tokens' faces left with
  | case1 => cases h
  | case2 tokens face offset after signed ih =>
    obtain ⟨⟨faces, left⟩, hmore, heq⟩ := map_eq_ok h
    cases heq
    obtain ⟨_, hsigned, listed⟩ := readSigned_alike alike signed
    obtain ⟨_, after', rfl, later⟩ := listed.next (by simp)
    obtain ⟨left', hmore', alike'⟩ := ih later hmore
    refine ⟨left', ?_, alike'⟩
    unfold readFaces
    split <;> simp_all [Except.map]
  | case3 tokens face offset after signed =>
    cases h
    obtain ⟨_, hsigned, listed⟩ := readSigned_alike alike signed
    obtain ⟨_, after', rfl, later⟩ := listed.next (by simp)
    refine ⟨after', ?_, later⟩
    unfold readFaces
    split <;> simp_all
  | case4 => exact absurd h refuseFor_ne_ok

theorem readDie_alike {d : Die} (alike : Alike rest rest' tokens tokens')
    (hnumber : (peek tokens').isNumber = (peek tokens).isNumber) (h : readDie tokens = .ok (d, left)) :
    ∃ left', readDie tokens' = .ok (d, left') ∧ Alike rest rest' left left' := by
  unfold readDie at h
  split at h
  · obtain ⟨_, after', rfl, later⟩ := alike.next (by simp)
    obtain ⟨_, hd, heq⟩ := map_eq_ok h
    cases heq
    exact ⟨after', by rw [readDie, hd]; rfl, later⟩
  · cases h
    obtain ⟨_, after', rfl, later⟩ := alike.next (by simp)
    exact ⟨after', rfl, later⟩
  · cases h
    obtain ⟨_, after', rfl, later⟩ := alike.next (by simp)
    exact ⟨after', rfl, later⟩
  · obtain ⟨_, after', rfl, later⟩ := alike.next (by simp)
    split at h
    · cases h
    · next listed =>
      obtain ⟨_, hd, heq⟩ := map_eq_ok h
      cases heq
      obtain ⟨left', listed', alike'⟩ := readFaces_alike later listed
      exact ⟨left', by simp only [readDie, listed', hd]; rfl, alike'⟩
  · next number fudge percent faces =>
    obtain ⟨_, hd, heq⟩ := map_eq_ok h
    cases heq
    refine ⟨tokens', ?_, alike⟩
    unfold readDie
    split
    · obtain ⟨_, _, rfl, -⟩ := alike.prev fun hfinish => by
        rw [hfinish] at hnumber
        cases hnumber
      exact absurd rfl (number _ _ _)
    · obtain ⟨_, _, rfl, -⟩ := alike.prev fun _ => rfl
      exact absurd rfl (fudge _ _)
    · obtain ⟨_, _, rfl, -⟩ := alike.prev fun _ => rfl
      exact absurd rfl (percent _ _)
    · obtain ⟨_, _, rfl, -⟩ := alike.prev fun _ => rfl
      exact absurd rfl (faces _ _)
    · rw [hd]
      rfl

theorem readCount_alike {count : Nat} (alike : Alike rest rest' tokens tokens') (some : peek tokens ≠ .finish)
    (h : readCount tokens = .ok (count, left)) :
    ∃ left', readCount tokens' = .ok (count, left') ∧ Alike rest rest' left left' := by
  obtain ⟨_, rfl, positive, few⟩ | ⟨rfl, rfl, number⟩ := readCount_eq_ok_iff.mp h
  · obtain ⟨_, after', rfl, later⟩ := alike.next (by simp)
    exact ⟨after', readCount_eq_ok_iff.mpr (.inl ⟨_, rfl, positive, few⟩), later⟩
  · refine ⟨tokens', readCount_eq_ok_iff.mpr (.inr ⟨rfl, rfl, ?_⟩), alike⟩
    rwa [alike.peek_eq some]

theorem readTrigger_alike {trigger : Trigger} (alike : Alike rest rest' tokens tokens')
    (h : readTrigger tokens = .ok (trigger, left)) :
    ∃ left', readTrigger tokens' = .ok (trigger, left') ∧ Alike rest rest' left left' := by
  unfold readTrigger at h
  split at h
  · obtain ⟨_, after', rfl, later⟩ := alike.next (by simp)
    obtain ⟨_, hsigned, heq⟩ := map_eq_ok h
    cases heq
    obtain ⟨left', hsigned', alike'⟩ := readSigned_alike later hsigned
    exact ⟨left', by rw [readTrigger, hsigned']; rfl, alike'⟩
  · next comparison =>
    have bare : ∀ offset c after, tokens' = ⟨offset, .comparison c⟩ :: after → False := by
      rintro offset c after rfl
      obtain ⟨_, _, rfl, -⟩ := alike.prev fun _ => rfl
      exact comparison _ _ _ rfl
    split at h
    · next loose =>
      cases h
      obtain ⟨left', loose', alike'⟩ := looseNumber?_alike alike loose
      refine ⟨left', ?_, alike'⟩
      rw [readTrigger, loose']
      exact bare
    · next loose =>
      cases h
      refine ⟨tokens', ?_, alike⟩
      rw [readTrigger, looseNumber?_none_alike alike loose]
      exact bare

theorem readRank_alike (alike : Alike rest rest' tokens tokens') :
    (readRank tokens').1 = (readRank tokens).1 ∧ Alike rest rest' (readRank tokens).2 (readRank tokens').2 := by
  unfold readRank
  cases loose : looseNumber? tokens with
  | none =>
    rw [looseNumber?_none_alike alike loose]
    exact ⟨rfl, alike⟩
  | some read =>
    obtain ⟨_, loose', later⟩ := looseNumber?_alike alike loose
    rw [loose']
    exact ⟨rfl, later⟩

theorem readModifiers_alike {found modifiers : Modifiers} (alike : Alike rest rest' tokens tokens')
    (h : readModifiers found tokens = .ok (modifiers, left)) :
    ∃ left', readModifiers found tokens' = .ok (modifiers, left') ∧ Alike rest rest' left left' := by
  fun_induction readModifiers found tokens generalizing tokens' with
  | case1 => cases h
  | case2 => cases h
  | case3 found offset after trigger middle triggered first ih =>
    obtain ⟨_, after', rfl, later⟩ := alike.next (by simp)
    obtain ⟨_, triggered', more⟩ := readTrigger_alike later triggered
    rw [readModifiers_bang, triggered']
    simp only [if_neg first]
    exact ih more h
  | case4 => cases h
  | case5 found offset selector after first ih =>
    obtain ⟨_, after', rfl, later⟩ := alike.next (by simp)
    obtain ⟨hrank, more⟩ := readRank_alike later
    rw [readModifiers_selector, if_neg first, hrank]
    exact ih more h
  | case6 found tokens bang selector =>
    cases h
    refine ⟨tokens', ?_, alike⟩
    unfold readModifiers
    split
    · obtain ⟨_, _, rfl, -⟩ := alike.prev fun _ => rfl
      exact absurd rfl (bang _ _)
    · obtain ⟨_, _, rfl, -⟩ := alike.prev fun _ => rfl
      exact absurd rfl (selector _ _ _)
    · rfl

theorem ne_finish_of_startsTerm (h : (peek tokens).startsTerm = true) : peek tokens ≠ .finish := fun hfinish => by
  rw [hfinish] at h
  cases h

theorem readCount_opens {count : Nat} (h : readCount tokens = .ok (count, ⟨offset, .die⟩ :: after)) :
    (peek tokens).startsTerm = true ∧ looseNumber? tokens = none := by
  obtain ⟨_, rfl, -⟩ | ⟨-, rfl, -⟩ := readCount_eq_ok_iff.mp h <;> exact ⟨rfl, rfl⟩

theorem readPlain_opens (h : readPlain settings tokens = .ok (d, left)) :
    (peek tokens).startsTerm = true ∧ looseNumber? tokens = none := by
  obtain ⟨_, _, _, _, _, _, counted, -⟩ := readPlain_eq_ok_iff.mp h
  exact readCount_opens counted

theorem readPlain_alike (alike : Alike rest rest' tokens tokens') (h : readPlain settings tokens = .ok (d, left)) :
    ∃ left', readPlain settings tokens' = .ok (d, left') ∧ Alike rest rest' left left' := by
  have some := ne_finish_of_startsTerm (readPlain_opens h).1
  obtain ⟨_, _, _, _, _, _, counted, faced, modified, built⟩ := readPlain_eq_ok_iff.mp h
  obtain ⟨_, counted', atDie⟩ := readCount_alike alike some counted
  obtain ⟨_, _, rfl, afterDie⟩ := atDie.next (by simp)
  obtain ⟨_, faced', afterFaces⟩ := readDie_alike afterDie atDie.isNumber_after_die faced
  obtain ⟨left', modified', alike'⟩ := readModifiers_alike afterFaces modified
  exact ⟨left', readPlain_eq_ok_iff.mpr ⟨_, _, _, _, _, _, counted', faced', modified', built⟩, alike'⟩

/-! ### Readers -/

/-- The reader makes the same of the same words in a text that goes on, if it is stopped there where it takes all of
    them. -/
def Reader.Local (stop : List Placed → Prop) (reader : Reader Dice) : Prop :=
  ∀ ⦃rest rest' tokens tokens' left : List Placed⦄ ⦃d : Dice⦄, Alike rest rest' tokens tokens' →
    reader.run tokens = .ok (d, left) → (left = rest → stop rest') →
    ∃ left', reader.run tokens' = .ok (d, left') ∧ Alike rest rest' left left'

/-- What the reader takes starts as a term does, and not with a number that a plus or minus before it would take. -/
def Reader.Opens (reader : Reader Dice) : Prop :=
  ∀ ⦃tokens left : List Placed⦄ ⦃d : Dice⦄, reader.run tokens = .ok (d, left) →
    (peek tokens).startsTerm = true ∧ looseNumber? tokens = none

variable {expression group term : Reader Dice}

/-! ### Groups -/

theorem groupOf_opens (settings : Settings) (expression : Reader Dice) : (groupOf settings expression).Opens := by
  intro tokens left d h
  have hrun : readGroup settings expression tokens = .ok (d, left) := h
  unfold readGroup at hrun
  split at hrun
  · cases hrun
  · exact ⟨rfl, rfl⟩
  · exact readPlain_opens hrun
  · exact readPlain_opens hrun
  · exact absurd hrun refuseFor_ne_ok

/-- An expression in parentheses is a group. -/
theorem readGroup_of_inside {offset' : Nat} {inside : List Placed} (opens : expression.Opens)
    (h : expression.run inside = .ok (d, ⟨offset', .closeGroup⟩ :: left)) :
    readGroup settings expression (⟨offset, .openGroup⟩ :: inside) = .ok (d, left) := by
  unfold readGroup
  split
  · next heq =>
    cases heq
    cases (opens h).1
  · next heq =>
    cases heq
    rw [h]
  · next heq => cases heq
  · next heq => cases heq
  · next hopen _ _ => exact absurd rfl (hopen _ _)

theorem groupOf_local (settings : Settings) (inner : expression.Local Phrase.Closes) (opens : expression.Opens) :
    (groupOf settings expression).Local fun _ => True := by
  intro rest rest' tokens tokens' left d alike h _
  have hrun : readGroup settings expression tokens = .ok (d, left) := h
  show ∃ left', readGroup settings expression tokens' = .ok (d, left') ∧ _
  unfold readGroup at hrun
  split at hrun
  · cases hrun
  · obtain ⟨_, inside', rfl, inside⟩ := alike.next (by simp)
    split at hrun
    · cases hrun
    · next read =>
      cases hrun
      -- The expression ends at a closing parenthesis, so before the end of the text.
      obtain ⟨_, read', close⟩ := inner inside read (fun heq => by rw [← heq] at alike; cases alike.ended)
      obtain ⟨_, left', rfl, later⟩ := close.next (by simp)
      exact ⟨left', readGroup_of_inside opens read', later⟩
    · exact absurd hrun refuseFor_ne_ok
  · obtain ⟨_, _, rfl, -⟩ := alike.next (by simp)
    exact readPlain_alike alike hrun
  · obtain ⟨_, _, rfl, -⟩ := alike.next (by simp)
    exact readPlain_alike alike hrun
  · exact absurd hrun refuseFor_ne_ok

/-! ### Terms -/

theorem operatorAhead?_alike {operator : Operator} (alike : Alike rest rest' tokens tokens')
    (h : operatorAhead? tokens = some (operator, after)) :
    ∃ after', operatorAhead? tokens' = some (operator, after') ∧ Alike rest rest' after after' := by
  obtain ⟨⟨_, rfl⟩, loose⟩ := operatorAhead?_eq_some_iff.mp h
  obtain ⟨_, after', rfl, later⟩ := alike.next (by simp)
  rw [← isSome_looseNumber?_alike later] at loose
  exact ⟨after', operatorAhead?_eq_some_iff.mpr ⟨⟨_, rfl⟩, loose⟩, later⟩

theorem operatorAhead?_none_alike (alike : Alike rest rest' tokens tokens') (h : operatorAhead? tokens = none)
    (stop : tokens = rest → operatorAhead? rest' = none) : operatorAhead? tokens' = none := by
  cases alike with
  | stop => exact stop rfl
  | cons _ _ later =>
    rw [Option.eq_none_iff_forall_ne_some] at h ⊢
    rintro ⟨operator, after'⟩ hsome
    obtain ⟨⟨_, heq⟩, loose⟩ := operatorAhead?_eq_some_iff.mp hsome
    cases heq
    rw [isSome_looseNumber?_alike later] at loose
    exact h _ (operatorAhead?_eq_some_iff.mpr ⟨⟨_, rfl⟩, loose⟩)

theorem readChain_alike {last : Dice} (alike : Alike rest rest' tokens tokens')
    (h : readChain settings d tokens = .ok (last, left)) (stop : left = rest → operatorAhead? rest' = none) :
    ∃ left', readChain settings d tokens' = .ok (last, left') ∧ Alike rest rest' left left' := by
  fun_induction readChain settings d tokens generalizing tokens' with
  | case1 d tokens none =>
    cases h
    exact ⟨tokens', readChain_of_none (operatorAhead?_none_alike alike none stop), alike⟩
  | case2 => cases h
  | case3 => cases h
  | case4 d tokens operator after ahead operand middle signed next applied ih =>
    obtain ⟨_, ahead', later⟩ := operatorAhead?_alike alike ahead
    obtain ⟨_, signed', more⟩ := readSigned_alike later signed
    rw [readChain_of_some ahead', signed']
    simp only [applied]
    exact ih more h

theorem termOf_opens (opens : group.Opens) : (termOf settings group).Opens := by
  intro tokens left d h
  simp only [termOf] at h
  split at h
  · cases h
  · next first => exact opens first

theorem termOf_local (inner : group.Local fun _ => True) :
    (termOf settings group).Local fun rest' => operatorAhead? rest' = none := by
  intro rest rest' tokens tokens' left d alike h stop
  simp only [termOf] at h ⊢
  split at h
  · cases h
  · next first =>
    obtain ⟨_, first', later⟩ := inner alike first fun _ => trivial
    rw [first']
    exact readChain_alike later h stop

/-! ### Sums -/

theorem nextTerm?_alike {start : List Placed} (alike : Alike rest rest' tokens tokens')
    (h : nextTerm? tokens = some start) :
    ∃ start', nextTerm? tokens' = some start' ∧ Alike rest rest' start start' := by
  cases alike with
  | stop ended =>
    rw [Phrase.Closes.nextTerm? (.inr ended)] at h
    cases h
  | cons inner faces later =>
    rw [nextTerm?_cons] at h
    rw [nextTerm?_cons]
    split at h
    · next add =>
      cases h
      exact ⟨_, if_pos add, later⟩
    · next noAdd =>
      rw [if_neg noAdd]
      split at h
      · next starts =>
        cases h
        exact ⟨_, if_pos starts, .cons inner faces later⟩
      · cases h

theorem nextTerm?_none_cons {offset' : Nat} {after' : List Placed} (h : nextTerm? (⟨offset, t⟩ :: after) = none) :
    nextTerm? (⟨offset', t⟩ :: after') = none := by
  rw [nextTerm?_cons] at h ⊢
  split at h
  · cases h
  · next noAdd =>
    rw [if_neg noAdd]
    split at h
    · cases h
    · next noStart => exact if_neg noStart

/-- Where a sum takes all of a text, so does its last term, and what closes the sum stops the term. -/
theorem stop_of_readTerms {ds : List Dice} {middle : List Placed} (ended : peek rest = .finish)
    (h : readTerms term middle = .ok (ds, left)) (stop : left = rest → Phrase.Closes rest') (last : middle = rest) :
    operatorAhead? rest' = none := by
  subst last
  rw [Phrase.readTerms_of_closes (.inr ended)] at h
  cases h
  exact (stop rfl).operatorAhead?

theorem readTerms_alike {ds : List Dice} (inner : term.Local fun rest' => operatorAhead? rest' = none)
    (alike : Alike rest rest' tokens tokens') (h : readTerms term tokens = .ok (ds, left))
    (stop : left = rest → Phrase.Closes rest') :
    ∃ left', readTerms term tokens' = .ok (ds, left') ∧ Alike rest rest' left left' := by
  fun_induction readTerms term tokens generalizing tokens' ds left with
  | case1 => exact absurd h refuse_ne_ok
  | case2 tokens none noSubtract =>
    cases h
    refine ⟨tokens', ?_, alike⟩
    -- No term comes next: at the end of the text what follows closes the sum, and before it the next token decides.
    cases alike with
    | stop => exact Phrase.readTerms_of_closes (stop rfl) term
    | cons =>
      rw [readTerms_of_none (nextTerm?_none_cons none)]
      exact if_neg noSubtract
  | case3 => cases h
  | case4 tokens start started d middle first ih =>
    obtain ⟨⟨ds, left⟩, others, heq⟩ := map_eq_ok h
    cases heq
    obtain ⟨_, started', atTerm⟩ := nextTerm?_alike alike started
    obtain ⟨_, first', later⟩ := inner atTerm first (stop_of_readTerms alike.ended others stop)
    obtain ⟨left', others', alike'⟩ := ih later others stop
    refine ⟨left', ?_, alike'⟩
    simp only [readTerms_of_some started', first', others']
    rfl

theorem sumOf_opens (opens : term.Opens) : (sumOf settings term).Opens := by
  intro tokens left d h
  simp only [sumOf] at h
  split at h
  · cases h
  · next first => exact opens first

theorem sumOf_local (inner : term.Local fun rest' => operatorAhead? rest' = none) :
    (sumOf settings term).Local Phrase.Closes := by
  intro rest rest' tokens tokens' left d alike h stop
  simp only [sumOf] at h ⊢
  split at h
  · cases h
  · next first =>
    obtain ⟨_, others, heq⟩ := map_eq_ok h
    cases heq
    obtain ⟨_, first', later⟩ := inner alike first (stop_of_readTerms alike.ended others stop)
    obtain ⟨left', others', alike'⟩ := readTerms_alike inner later others stop
    exact ⟨left', by simp only [first', others']; rfl, alike'⟩

end

/-! ### Expressions -/

theorem expression_local (settings : Settings) (depth : Nat) :
    (expression settings depth).Local Phrase.Closes ∧ (expression settings depth).Opens := by
  induction depth with
  | zero => exact ⟨fun _ _ _ _ _ _ _ h _ => absurd h refuseFor_ne_ok, fun _ _ _ h => absurd h refuseFor_ne_ok⟩
  | succ depth ih =>
    have opens := groupOf_opens settings (expression settings depth)
    exact ⟨sumOf_local (termOf_local (groupOf_local settings ih.1 ih.2)), sumOf_opens (termOf_opens opens)⟩

theorem expressions_opens (settings : Settings) : (expressions settings).Opens :=
  fun _ _ _ h => (expression_local settings _).2 h

theorem expressions_local (settings : Settings) : (expressions settings).Local Phrase.Closes := by
  intro rest rest' tokens tokens' left d alike h stop
  have same := expression_agreeUpTo_expressions settings (max tokens.length tokens'.length)
  rw [← same tokens (Nat.le_max_left _ _)] at h
  rw [← same tokens' (Nat.le_max_right _ _)]
  exact (expression_local settings _).1 alike h stop

theorem terms_opens (settings : Settings) : (terms settings).Opens := termOf_opens (groupOf_opens settings _)

theorem terms_local (settings : Settings) : (terms settings).Local fun rest' => operatorAhead? rest' = none :=
  termOf_local (groupOf_local settings (expressions_local settings) (expressions_opens settings))

end DiceNotation
