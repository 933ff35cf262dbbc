import DiceNotation.Proofs.Notation.Written

/-! What a group may leave out, and the order of its modifiers. A group is parsed as the group that says what the first
    one leaves out, with the modifiers in either order. The two texts are refused at different characters only where
    they write the least outcome, whose digits no notation can hold. -/

namespace DiceNotation

/-! ### What is left out -/

theorem WrittenFaces.greatest_eq_highest {faces : WrittenFaces} {die : Die} (h : faces.die = .ok die) :
    die.greatest = faces.highest := by
  have sided : ∀ {n : Nat}, Die.ofSides n = .ok die → die.greatest = .ofInt n := fun h => by
    unfold Die.ofSides at h
    split at h
    · cases h
      rfl
    · cases h
  cases faces with
  | omitted => exact sided h
  | sides n => exact sided h
  | fudge => cases h; rfl
  | percent => cases h; rfl
  | list first others =>
    simp only [WrittenFaces.die, Die.ofFaces] at h
    split at h
    · cases h
      rfl
    · cases h

theorem WrittenFaces.least_mem_of_highest {faces : WrittenFaces} (h : faces.highest = .least) :
    .least ∈ faces.constants := by
  cases faces with
  | omitted => exact absurd h (ofInt_ne_least _)
  | sides n => exact absurd h (ofInt_ne_least _)
  | fudge => exact absurd h (by decide)
  | percent => exact absurd h (by decide)
  | list first others => exact (List.max?_eq_some_iff.mp (h ▸ List.max?_cons')).1

theorem one_le_of_checkedCount {count : Option Number} {n : Nat} (h : checkedCount count = .ok n) : 1 ≤ n := by
  cases count with
  | none =>
    cases h
    exact Nat.le_refl 1
  | some m =>
    simp only [checkedCount] at h
    split at h
    · cases h
    · next some =>
      split at h
      · cases h
      · cases h
        exact Nat.one_le_iff_ne_zero.mpr some

section
variable {settings : Settings} {count : Nat} {die : Die} {selection : Option (Selector × Nat)}

theorem highestFace_of_assemble {inner : Dice} (some : 1 ≤ count)
    (h : assemble settings count die selection = .ok inner) : inner.highestFace = die.greatest := by
  cases selection with
  | none =>
    cases h
    split
    · rfl
    · exact Dice.highestFaces_replicate some die
  | some selection =>
    obtain ⟨-, rfl⟩ := Pool.select_eq_ok_iff.mp h
    exact Dice.highestFaces_replicate some die

/-- A bang alone means the largest face, whatever is selected from the dice. -/
theorem buildGroup_bare (some : 1 ≤ count) :
    buildGroup settings count die { trigger := Option.some ⟨.equals, none⟩, selection } =
      buildGroup settings count die { trigger := Option.some ⟨.equals, Option.some die.greatest⟩, selection } := by
  unfold buildGroup
  cases assembled : assemble settings count die selection with
  | error e => rfl
  | ok inner =>
    show inner.explode .equals inner.highestFace _ _ = inner.explode .equals die.greatest _ _
    rw [highestFace_of_assemble some assembled]

end

namespace WrittenGroup
variable {g h : WrittenGroup}

/-- The groups differ in the order of the modifiers and in what they leave out. -/
inductive Restates : WrittenGroup → WrittenGroup → Prop
  | refl (g : WrittenGroup) : Restates g g
  | symm {g h : WrittenGroup} (restated : Restates g h) : Restates h g
  | trans {f g h : WrittenGroup} (restated : Restates f g) (again : Restates g h) : Restates f h
  | order (g : WrittenGroup) : Restates g { g with explodesFirst := !g.explodesFirst }
  | count {g : WrittenGroup} (omitted : g.count = none) : Restates g { g with count := some 1 }
  | faces {g : WrittenGroup} (omitted : g.faces = .omitted) : Restates g { g with faces := .sides 6 }
  | rank {g : WrittenGroup} {selector : Selector} (omitted : g.selection = some (selector, none)) :
      Restates g { g with selection := some (selector, some 1) }
  | comparison {g : WrittenGroup} {n : Number} (omitted : g.explosion = some (.number n)) :
      Restates g { g with explosion := some (.compared .equals (.ofInt n)) }
  | threshold {g : WrittenGroup} (omitted : g.explosion = some .bare) :
      Restates g { g with explosion := some (.compared .equals g.faces.highest) }

/-- Groups that restate each other build the same node or are refused with the same error. -/
theorem Restates.build_eq (restated : Restates g h) (settings : Settings) : g.build settings = h.build settings := by
  induction restated with
  | refl g => rfl
  | symm _ ih => exact ih.symm
  | trans _ _ ih ih' => exact ih.trans ih'
  | order g => rfl
  | count omitted =>
    unfold build
    rw [omitted]
    rfl
  | faces omitted =>
    unfold build
    rw [omitted]
    rfl
  | rank omitted =>
    unfold build modifiers
    rw [omitted]
    rfl
  | comparison omitted =>
    unfold build modifiers
    rw [omitted]
    rfl
  | @threshold g omitted =>
    unfold build modifiers
    rw [omitted]
    cases counted : checkedCount g.count with
    | error e => rfl
    | ok count =>
      cases faced : g.faces.die with
      | error e => rfl
      | ok die =>
        rw [← WrittenFaces.greatest_eq_highest faced]
        exact buildGroup_bare (one_le_of_checkedCount counted)

theorem constants_of_explosion {explosion : WrittenExplosion} (exploding : g.explosion = some explosion)
    (unsigned : explosion.constants = []) : g.constants = g.faces.constants := by
  rw [constants, exploding]
  exact (congrArg (g.faces.constants ++ ·) unsigned).trans (List.append_nil _)

/-- Groups that restate each other have the least outcome in common. -/
theorem Restates.least_mem_iff (restated : Restates g h) : .least ∈ g.constants ↔ .least ∈ h.constants := by
  induction restated with
  | refl g => rfl
  | symm _ ih => exact ih.symm
  | trans _ _ ih ih' => exact ih.trans ih'
  | order g => rfl
  | count _ => rfl
  | faces omitted =>
    unfold constants
    rw [omitted]
    rfl
  | rank _ => rfl
  | @comparison g n omitted =>
    show _ ↔ .least ∈ g.faces.constants ++ [.ofInt n]
    rw [constants_of_explosion omitted rfl, List.mem_append, List.mem_singleton]
    exact ⟨.inl, fun hmem => hmem.resolve_right (ofInt_ne_least n).symm⟩
  | @threshold g omitted =>
    show _ ↔ .least ∈ g.faces.constants ++ [g.faces.highest]
    rw [constants_of_explosion omitted rfl, List.mem_append, List.mem_singleton]
    exact ⟨.inl, fun hmem => hmem.elim id fun heq => WrittenFaces.least_mem_of_highest heq.symm⟩

end WrittenGroup

/-! ### Numbers that do not fit -/

/-- Where the least outcome is one of the constants, its size is among the words, and every other number fits. -/
structure Measured (constants : List Outcome) (words : List Token) : Prop where
  fits : ∀ t ∈ words, t.Fits ∨ t = .number (Token.greatestNumber + 1)
  least : .number (Token.greatestNumber + 1) ∈ words ↔ .least ∈ constants

section
variable {constants more : List Outcome} {words later : List Token}

theorem Measured.append (h : Measured constants words) (h' : Measured more later) :
    Measured (constants ++ more) (words ++ later) :=
  ⟨List.forall_mem_append.mpr ⟨h.fits, h'.fits⟩, by rw [List.mem_append, List.mem_append, h.least, h'.least]⟩

theorem measured_nil : Measured [] [] :=
  ⟨List.forall_mem_nil _, iff_of_false List.not_mem_nil List.not_mem_nil⟩

theorem measured_fit {t : Token} (fits : t.Fits) : Measured [] [t] := by
  refine ⟨List.forall_mem_singleton.mpr (.inl fits), iff_of_false (fun hmem => ?_) List.not_mem_nil⟩
  obtain rfl := List.mem_singleton.mp hmem
  exact absurd fits (by decide)

theorem measured_outcome (n : Outcome) : Measured [n] n.words := by
  by_cases heq : n = .least
  · subst heq
    exact ⟨by decide, by decide⟩
  · have fits := fits_outcome heq
    exact ⟨fun t ht => .inl (fits t ht),
      iff_of_false (fun hmem => absurd (fits _ hmem) (by decide)) fun hmem => heq (List.mem_singleton.mp hmem).symm⟩

theorem measured_list (listed : List Outcome) :
    Measured listed ([.comma].intercalate (listed.map Outcome.words)) := by
  induction listed with
  | nil => exact measured_nil
  | cons n listed ih =>
    cases listed with
    | nil =>
      rw [List.map_singleton, List.intercalate_singleton]
      exact measured_outcome n
    | cons m listed =>
      have comma : Measured [] [.comma] := measured_fit trivial
      rw [List.map_cons, List.map_cons, List.intercalate_cons_cons, List.append_assoc]
      exact (measured_outcome n).append (comma.append ih)

theorem measured_number (n : Number) : Measured [] [.number n] := measured_fit (Nat.le_of_lt_succ n.isLt)

theorem measured_faces (faces : WrittenFaces) : Measured faces.constants faces.words := by
  cases faces with
  | omitted => exact measured_nil
  | sides n => exact measured_number n
  | fudge => exact measured_fit trivial
  | percent => exact measured_fit trivial
  | list first others =>
    have opened : Measured [] [.openFaces] := measured_fit trivial
    have closed : Measured [] [.closeFaces] := measured_fit trivial
    have enclosed := (opened.append (measured_list (first :: others))).append closed
    rwa [List.append_nil] at enclosed

theorem measured_optionalNumber (number : Option Number) : Measured [] (optionalNumber number) := by
  cases number with
  | none => exact measured_nil
  | some n => exact measured_number n

theorem measured_selection (selection : Option (Selector × Option Number)) :
    Measured [] (optionalSelection selection) := by
  cases selection with
  | none => exact measured_nil
  | some selection =>
    have tag : Measured [] [.selector selection.1] := measured_fit trivial
    exact tag.append (measured_optionalNumber selection.2)

theorem measured_explosion (explosion : Option WrittenExplosion) :
    Measured (explosion.elim [] WrittenExplosion.constants) (optionalExplosion explosion) := by
  have bang : Measured [] [.bang] := measured_fit trivial
  cases explosion with
  | none => exact measured_nil
  | some explosion =>
    cases explosion with
    | bare => exact bang
    | number n => exact bang.append (measured_number n)
    | compared comparison threshold =>
      have sign : Measured [] [.comparison comparison] := measured_fit trivial
      exact bang.append (sign.append (measured_outcome threshold))

theorem measured_group (g : WrittenGroup) : Measured g.constants g.words := by
  have modified : Measured (g.explosion.elim [] WrittenExplosion.constants) g.modifierWords := by
    unfold WrittenGroup.modifierWords
    split
    · have := (measured_explosion g.explosion).append (measured_selection g.selection)
      rwa [List.append_nil] at this
    · exact (measured_selection g.selection).append (measured_explosion g.explosion)
  have letter : Measured [] [.die] := measured_fit trivial
  exact (measured_optionalNumber g.count).append (letter.append ((measured_faces g.faces).append modified))

end

/-- The text is refused for the digits of the first number past the greatest, where these digits stand. -/
def TooLarge (text : String) (e : Error) : Prop :=
  ∃ before digits after, text.toList = before ++ digits ++ after ∧
    (Token.number (Token.greatestNumber + 1)).WrittenAs digits ∧
    e = .malformed before.length (.numberTooLarge digits)

namespace Dice
variable {g h : WrittenGroup} {settings : Settings}

theorem parse_of_least {text : String} (written : Writes text g.words) (least : .least ∈ g.constants) :
    ∃ e, parse text settings = .error e ∧ TooLarge text e := by
  obtain ⟨fits, hleast⟩ := measured_group g
  have unfit : ¬(Token.number (Token.greatestNumber + 1)).Fits := by decide
  obtain ⟨t, ht, hunfit, before, digits, after, hdigits, split, scanned⟩ :=
    scan_of_unfit written ⟨_, hleast.mpr least, unfit⟩
  obtain rfl := (fits t ht).resolve_left hunfit
  exact ⟨_, by rw [parse, scanned], before, digits, after, split, hdigits, rfl⟩

/-- A group may leave out a count of one, six sides, a rank of one, the equals sign of a threshold and a threshold that
    is the largest face, and its modifiers may stand in either order: the tree or the error is the same. The least
    outcome is refused as a face and as a threshold, and then each text has the error where its own digits stand. -/
theorem parse_restated (restated : g.Restates h) {a b : String} (ha : Writes a g.words) (hb : Writes b h.words)
    (settings : Settings) :
    (Outcome.least ∉ g.constants → parse a settings = parse b settings) ∧
      (Outcome.least ∈ g.constants → (∃ e, parse a settings = .error e ∧ TooLarge a e) ∧
        ∃ e, parse b settings = .error e ∧ TooLarge b e) := by
  refine ⟨fun none => ?_, fun least =>
    ⟨parse_of_least ha least, parse_of_least hb (restated.least_mem_iff.mp least)⟩⟩
  have fits : ∀ {g : WrittenGroup}, .least ∉ g.constants → ∀ t ∈ g.words, t.Fits := fun {g} none t ht => by
    obtain ⟨fits, hleast⟩ := measured_group g
    refine (fits t ht).resolve_right ?_
    rintro rfl
    exact none (hleast.mp ht)
  rw [WrittenGroup.parse_of_writes ha (fits none), restated.build_eq settings,
    WrittenGroup.parse_of_writes hb (fits (restated.least_mem_iff.not.mp none))]

/-- A group that leaves out all it can. -/
def terse : WrittenGroup := { selection := some (.keepHighest, none), explosion := some .bare }

/-- The same group with nothing left out. -/
def verbose : WrittenGroup where
  count := some 1
  faces := .sides 6
  selection := some (.keepHighest, some 1)
  explosion := some (.compared .equals 6)
  explodesFirst := true

theorem terse_restates : terse.Restates verbose :=
  ((((WrittenGroup.Restates.count rfl).trans (.faces rfl)).trans (.rank rfl)).trans (.threshold rfl)).trans (.order _)

/-- A group whose threshold is the least outcome. -/
def leastThreshold : WrittenGroup := { explosion := some (.compared .equals .least) }

theorem verbose_parsed :
    (parse "D kh!" {} = parse "01d6 !=6KH1" {} ∧ (parse "D kh!" {}).isOk = true) ∧
      ∃ e, parse "D!=-9223372036854775808" {} = .error e ∧ TooLarge "D!=-9223372036854775808" e := by
  have short : scan "D kh!" = .ok [⟨0, .die⟩, ⟨2, .selector .keepHighest⟩, ⟨4, .bang⟩, ⟨5, .finish⟩] := by
    with_unfolding_all rfl
  have long : scan "01d6 !=6KH1" = .ok [⟨0, .number 1⟩, ⟨2, .die⟩, ⟨3, .number 6⟩, ⟨5, .bang⟩, ⟨6, .comparison .equals⟩,
      ⟨7, .number 6⟩, ⟨8, .selector .keepHighest⟩, ⟨10, .number 1⟩, ⟨11, .finish⟩] := by
    with_unfolding_all rfl
  have least : Writes (String.ofList (spelled leastThreshold.words)) leastThreshold.words :=
    writes_spelled (.cons rfl (.cons rfl (.cons rfl (.cons rfl (.number _)))))
  obtain ⟨same, -⟩ := parse_restated terse_restates (writes_of_scan short rfl) (writes_of_scan long rfl) {}
  obtain ⟨-, refused⟩ := parse_restated (.refl leastThreshold) least least {}
  exact ⟨⟨same (by decide), by with_unfolding_all rfl⟩, (refused (by decide)).1⟩

/-- The best of one die, again for each six, less five. -/
def bestLessFive : Dice :=
  .arithmetic (.explosion (.selection [.die six] none .keepHighest 1 none) .equals 6 maxExplosions none) .subtract 5
    none

/-- A minus after a bang is an operator, which no modifier follows, and the digits of the least outcome stand where the
    order of the modifiers puts them. -/
theorem order_matters :
    (∃ d e, parse "d6kh1!-5" {} = .ok d ∧ parse "d6!-5kh1" {} = .error e) ∧
      ∃ e e', parse "d6dh1!=-9223372036854775808" {} = .error e ∧
        parse "d6!=-9223372036854775808dh1" {} = .error e' ∧ e ≠ e' := by
  refine ⟨⟨bestLessFive, .malformed 5 (.unexpected (.selector .keepHighest)), ?_, ?_⟩,
    .malformed 8 (.numberTooLarge "9223372036854775808".toList),
    .malformed 5 (.numberTooLarge "9223372036854775808".toList), ?_, ?_, by decide⟩ <;> with_unfolding_all rfl

end Dice

end DiceNotation
