import DiceNotation.Dice.Parse
import DiceNotation.Proofs.Notation.Interleaving

/-! Where a text is refused. A fault of the text is found at a character that starts no token, at a token, or at the end
    of the text. No reader takes the end of the text, so there is always a token to refuse at. What stands before that
    place is a row of whole tokens. -/

namespace DiceNotation

/-! ### Causes without a place -/

/-- A step that refuses for a value and not for the text. -/
def Unplaced (x : Except Error α) : Prop := ∀ e, x = .error e → e.offset? = none

theorem Unplaced.ok (a : α) : Unplaced (.ok a : Except Error α) := by
  rintro _ ⟨⟩

theorem Unplaced.error {e : Error} (h : e.offset? = none) : Unplaced (.error e : Except Error α) := by
  rintro _ ⟨⟩
  exact h

section
variable {settings : Settings} {d : Dice} {tracer : Option Tracer}

theorem ofSides_unplaced (sides : Nat) : Unplaced (Die.ofSides sides) := by
  unfold Die.ofSides
  split
  · exact .ok _
  · exact .error rfl

theorem ofFaces_unplaced (faces : List Outcome) : Unplaced (Die.ofFaces faces) := by
  unfold Die.ofFaces
  split
  · exact .ok _
  · exact .error rfl

theorem apply_unplaced (operator : Operator) (operand : Outcome) : Unplaced (d.apply operator operand tracer) := by
  unfold Dice.apply
  split
  · exact .ok _
  · exact .error rfl

theorem explode_unplaced (comparison : Comparison) (threshold : Outcome) (limit : Nat) :
    Unplaced (d.explode comparison threshold limit tracer) := by
  unfold Dice.explode
  split
  · exact .ok _
  · exact .error rfl

theorem assemble_unplaced (count : Nat) (die : Die) (selection : Option (Selector × Nat)) :
    Unplaced (assemble settings count die selection) := by
  cases selection with
  | none => exact .ok _
  | some selection =>
    simp only [assemble, Pool.select]
    split
    · exact .error rfl
    · split
      · exact .error rfl
      · exact .ok _

theorem buildGroup_unplaced (count : Nat) (die : Die) (modifiers : Modifiers) :
    Unplaced (buildGroup settings count die modifiers) := by
  unfold buildGroup
  split
  · next refused => exact .error (assemble_unplaced _ _ _ _ refused)
  · exact .ok _
  · exact explode_unplaced _ _ _

theorem readCount_unplaced (tokens : List Placed) : Unplaced (readCount tokens) := by
  unfold readCount
  split
  · split
    · exact .error rfl
    · split
      · exact .error rfl
      · exact .ok _
  · exact .ok _

end

/-! ### Readers -/

/-- The end of the text is among the tokens. -/
def Ended (tokens : List Placed) : Prop := ∃ p ∈ tokens, p.token = .finish

/-- What a step of reading may do with tokens: it leaves the last of them, with the end of the text, or it refuses at
    one of them, if at any place. -/
def Within (tokens : List Placed) : Except Error (α × List Placed) → Prop
  | .ok (_, rest) => rest <:+ tokens ∧ Ended rest
  | .error e => ∀ offset ∈ e.offset?, offset ∈ tokens.map Placed.offset

section
variable {settings : Settings} {tokens middle rest : List Placed} {offset : Nat} {t : Token}

theorem Ended.next (h : Ended (⟨offset, t⟩ :: rest)) (inner : t ≠ .finish) : Ended rest := by
  obtain ⟨p, hp, finished⟩ := h
  rcases List.mem_cons.mp hp with rfl | hp
  · exact absurd finished inner
  · exact ⟨p, hp, finished⟩

theorem Ended.position_mem (h : Ended tokens) : position tokens ∈ tokens.map Placed.offset := by
  obtain ⟨p, hp, -⟩ := h
  cases tokens with
  | nil => cases hp
  | cons q rest => exact List.mem_cons_self

namespace Within

theorem trans {x : Except Error (α × List Placed)} (suffix : middle <:+ tokens) (h : Within middle x) :
    Within tokens x := by
  cases x with
  | ok read => exact ⟨h.1.trans suffix, h.2⟩
  | error e => exact fun offset hoffset => (suffix.map Placed.offset).subset (h offset hoffset)

theorem map {x : Except Error (α × List Placed)} (f : α → β) (h : Within tokens x) :
    Within tokens (x.map fun read => (f read.1, read.2)) := by
  cases x <;> exact h

theorem refuse (ended : Ended tokens) (fault : Fault) : Within (α := α) tokens (refuse tokens fault) := by
  rintro _ ⟨⟩
  exact ended.position_mem

theorem of_offset? {e : Error} (h : e.offset? = none) : Within (α := α) tokens (.error e) := by
  intro offset hoffset
  rw [h] at hoffset
  cases hoffset

theorem of_unplaced {x : Except Error α} (h : Unplaced x) (suffix : rest <:+ tokens) (ended : Ended rest) :
    Within tokens (x.map (·, rest)) := by
  cases x with
  | ok a => exact ⟨suffix, ended⟩
  | error e => exact of_offset? (h e rfl)

end Within

theorem readSigned_within (ended : Ended tokens) : Within tokens (readSigned tokens) := by
  unfold readSigned
  split
  · exact ⟨List.suffix_cons _ _, ended.next (by simp)⟩
  · exact ⟨(List.suffix_cons _ _).trans (List.suffix_cons _ _), (ended.next (by simp)).next (by simp)⟩
  · exact (Within.refuse (ended.next (by simp)) _).trans (List.suffix_cons _ _)
  · exact .refuse ended _

/-- A step that was taken leaves the last of the tokens. -/
theorem Within.left {x : Except Error (α × List Placed)} {a : α} (h : Within tokens x) (ok : x = .ok (a, rest)) :
    rest <:+ tokens ∧ Ended rest := by
  subst ok
  exact h

/-- A step that refuses, refuses whatever it would have read. -/
theorem Within.refused {x : Except Error (α × List Placed)} {e : Error} (h : Within tokens x) (error : x = .error e) :
    Within (α := β) tokens (.error e) := by
  subst error
  exact h

theorem looseNumber?_within {n : Nat} (ended : Ended tokens) (h : looseNumber? tokens = some (n, rest)) :
    rest <:+ tokens ∧ Ended rest := by
  obtain ⟨⟨_, rfl⟩, -⟩ := looseNumber?_eq_some_iff.mp h
  exact ⟨List.suffix_cons _ _, ended.next (by simp)⟩

theorem readFaces_within (ended : Ended tokens) : Within tokens (readFaces tokens) := by
  fun_induction readFaces tokens with
  | case1 tokens e signed => exact (readSigned_within ended).refused signed
  | case2 tokens face offset after signed ih =>
    obtain ⟨suffix, ended⟩ := (readSigned_within ended).left signed
    exact ((ih (ended.next (by simp))).map (face :: ·)).trans ((List.suffix_cons _ _).trans suffix)
  | case3 tokens face offset after signed =>
    obtain ⟨suffix, ended⟩ := (readSigned_within ended).left signed
    exact ⟨(List.suffix_cons _ _).trans suffix, ended.next (by simp)⟩
  | case4 tokens face after _ _ signed =>
    obtain ⟨suffix, ended⟩ := (readSigned_within ended).left signed
    exact (Within.refuse ended _).trans suffix

theorem readDie_within (ended : Ended tokens) : Within tokens (readDie tokens) := by
  unfold readDie
  split
  · exact .of_unplaced (ofSides_unplaced _) (List.suffix_cons _ _) (ended.next (by simp))
  · exact ⟨List.suffix_cons _ _, ended.next (by simp)⟩
  · exact ⟨List.suffix_cons _ _, ended.next (by simp)⟩
  · have inside := readFaces_within (ended.next (by simp))
    split
    · next refused => exact (inside.trans (List.suffix_cons _ _)).refused refused
    · next listed =>
      obtain ⟨suffix, ended⟩ := inside.left listed
      exact .of_unplaced (ofFaces_unplaced _) (suffix.trans (List.suffix_cons _ _)) ended
  · exact .of_unplaced (ofSides_unplaced _) (List.suffix_refl _) ended

theorem readCount_within (ended : Ended tokens) : Within tokens (readCount tokens) := by
  cases h : readCount tokens with
  | error e => exact .of_offset? (readCount_unplaced tokens e h)
  | ok read =>
    obtain ⟨_, rfl, -⟩ | ⟨-, heq, -⟩ := readCount_eq_ok_iff.mp h
    · exact ⟨List.suffix_cons _ _, ended.next (by simp)⟩
    · exact ⟨heq ▸ List.suffix_refl _, heq ▸ ended⟩

theorem readTrigger_within (ended : Ended tokens) : Within tokens (readTrigger tokens) := by
  unfold readTrigger
  split
  · next c rest =>
    exact ((readSigned_within (ended.next (by simp))).map fun n => Trigger.mk c (some n)).trans (List.suffix_cons _ _)
  · split
    · next loose => exact looseNumber?_within ended loose
    · exact ⟨List.suffix_refl _, ended⟩

theorem readRank_within (ended : Ended tokens) : (readRank tokens).2 <:+ tokens ∧ Ended (readRank tokens).2 := by
  unfold readRank
  cases loose : looseNumber? tokens with
  | none => exact ⟨List.suffix_refl _, ended⟩
  | some read => exact looseNumber?_within ended loose

theorem readModifiers_within (found : Modifiers) (ended : Ended tokens) :
    Within tokens (readModifiers found tokens) := by
  fun_induction readModifiers found tokens with
  | case1 found offset after e refused =>
    exact ((readTrigger_within (ended.next (by simp))).trans (List.suffix_cons _ _)).refused refused
  | case2 =>
    rintro _ ⟨⟩
    exact List.mem_cons_self
  | case3 found offset after trigger middle triggered _ ih =>
    obtain ⟨suffix, ended⟩ := (readTrigger_within (ended.next (by simp))).left triggered
    exact (ih ended).trans (suffix.trans (List.suffix_cons _ _))
  | case4 =>
    rintro _ ⟨⟩
    exact List.mem_cons_self
  | case5 found offset selector after _ ih =>
    obtain ⟨suffix, ended⟩ := readRank_within (ended.next (by simp))
    exact (ih ended).trans (suffix.trans (List.suffix_cons _ _))
  | case6 => exact ⟨List.suffix_refl _, ended⟩

theorem readPlain_within (ended : Ended tokens) : Within tokens (readPlain settings tokens) := by
  have counted := readCount_within ended
  unfold readPlain
  split
  · next refused => exact counted.refused refused
  · next read =>
    obtain ⟨suffix, ended⟩ := counted.left read
    have faced := (readDie_within (ended.next (by simp))).trans ((List.suffix_cons _ _).trans suffix)
    split
    · next refused => exact faced.refused refused
    · next read =>
      obtain ⟨suffix, ended⟩ := faced.left read
      have modified := (readModifiers_within {} ended).trans suffix
      split
      · next refused => exact modified.refused refused
      · next read =>
        obtain ⟨suffix, ended⟩ := modified.left read
        exact .of_unplaced (buildGroup_unplaced _ _ _) suffix ended
  · next read =>
    obtain ⟨suffix, ended⟩ := counted.left read
    exact (Within.refuse ended _).trans suffix

/-- The reader leaves the last of its tokens or refuses at one of them. -/
def Reader.StaysWithin (reader : Reader Dice) : Prop :=
  ∀ ⦃tokens : List Placed⦄, Ended tokens → Within tokens (reader.run tokens)

variable {below : Reader Dice}

theorem groupOf_within (h : below.StaysWithin) : (groupOf settings below).StaysWithin := by
  intro tokens ended
  show Within tokens (readGroup settings below tokens)
  unfold readGroup
  split
  · rintro _ ⟨⟩
    exact List.mem_cons_of_mem _ List.mem_cons_self
  · have inside := h (ended.next (by simp))
    split
    · next refused => exact (inside.trans (List.suffix_cons _ _)).refused refused
    · next read =>
      obtain ⟨suffix, ended⟩ := inside.left read
      exact ⟨(List.suffix_cons _ _).trans (suffix.trans (List.suffix_cons _ _)), ended.next (by simp)⟩
    · next read =>
      obtain ⟨suffix, ended⟩ := inside.left read
      exact (Within.refuse ended _).trans (suffix.trans (List.suffix_cons _ _))
  · exact readPlain_within ended
  · exact readPlain_within ended
  · exact .refuse ended _

theorem readChain_within (d : Dice) (ended : Ended tokens) : Within tokens (readChain settings d tokens) := by
  fun_induction readChain settings d tokens with
  | case1 => exact ⟨List.suffix_refl _, ended⟩
  | case2 d tokens operator after ahead e signed =>
    obtain ⟨⟨_, rfl⟩, -⟩ := operatorAhead?_eq_some_iff.mp ahead
    exact ((readSigned_within (ended.next (by simp))).trans (List.suffix_cons _ _)).refused signed
  | case3 d tokens operator after ahead operand middle signed e refused =>
    exact .of_offset? (apply_unplaced _ _ _ refused)
  | case4 d tokens operator after ahead operand middle signed next _ ih =>
    obtain ⟨⟨_, rfl⟩, -⟩ := operatorAhead?_eq_some_iff.mp ahead
    obtain ⟨suffix, ended⟩ := (readSigned_within (ended.next (by simp))).left signed
    exact (ih ended).trans (suffix.trans (List.suffix_cons _ _))

theorem termOf_within (h : below.StaysWithin) : (termOf settings below).StaysWithin := by
  intro tokens ended
  unfold termOf
  simp only
  split
  · next refused => exact (h ended).refused refused
  · next read =>
    obtain ⟨suffix, ended⟩ := (h ended).left read
    exact (readChain_within _ ended).trans suffix

theorem nextTerm?_within {start : List Placed} (ended : Ended tokens) (h : nextTerm? tokens = some start) :
    start <:+ tokens ∧ Ended start := by
  unfold nextTerm? at h
  split at h
  · cases h
    exact ⟨List.suffix_cons _ _, ended.next (by simp)⟩
  · split at h
    · cases h
      exact ⟨List.suffix_refl _, ended⟩
    · cases h

theorem readTerms_within (h : below.StaysWithin) (ended : Ended tokens) : Within tokens (readTerms below tokens) := by
  fun_induction readTerms below tokens with
  | case1 => exact .refuse ended _
  | case2 => exact ⟨List.suffix_refl _, ended⟩
  | case3 tokens start started e refused =>
    obtain ⟨suffix, ended⟩ := nextTerm?_within ended started
    exact ((h ended).trans suffix).refused refused
  | case4 tokens start started d middle first ih =>
    obtain ⟨suffix, ended⟩ := nextTerm?_within ended started
    obtain ⟨later, ended⟩ := (h ended).left first
    exact ((ih ended).map (d :: ·)).trans (later.trans suffix)

theorem sumOf_within (h : below.StaysWithin) : (sumOf settings below).StaysWithin := by
  intro tokens ended
  unfold sumOf
  simp only
  split
  · next refused => exact (h ended).refused refused
  · next first middle read =>
    obtain ⟨suffix, ended⟩ := (h ended).left read
    exact ((readTerms_within h ended).map (sumOfTerms settings first)).trans suffix

theorem expression_within (settings : Settings) (depth : Nat) : (expression settings depth).StaysWithin := by
  induction depth with
  | zero => exact fun _ ended => .refuse ended _
  | succ depth ih => exact sumOf_within (termOf_within (groupOf_within ih))

/-- Tokens are refused at one of them, if at any place. -/
theorem ofTokens_refused {e : Error} (ended : Ended tokens) (h : Dice.ofTokens settings tokens = .error e) :
    ∀ offset ∈ e.offset?, offset ∈ tokens.map Placed.offset := by
  have inside := expression_within settings tokens.length ended
  unfold Dice.ofTokens at h
  split at h
  · cases h
  · split at h
    · next refused =>
      cases h
      exact inside.refused (β := Unit) refused
    · next read =>
      obtain ⟨suffix, ended⟩ := inside.left read
      split at h
      · cases h
      · cases h
        exact (Within.refuse (α := Unit) ended _).trans suffix

end

/-! ### Places in a text -/

/-- A place in a text where a token can start: it lies within the text, no blank stands there, and what comes before it
    is scanned. -/
structure Boundary (text : String) (offset : Nat) : Prop where
  within : offset ≤ text.length
  inked : offset = text.length ∨ ∃ c, text.toList[offset]? = some c ∧ isBlank c = false
  scanned : ∃ tokens, scan (String.ofList (text.toList.take offset)) = .ok tokens

namespace Printed
variable {ps qs : List Printed} {blanks rest : List Char} {text : String} {offset start : Nat}

theorem Apart.left (h : Apart (ps ++ qs)) : Apart ps := by
  induction ps with
  | nil => exact trivial
  | cons p ps ih =>
    refine ⟨fun hp q hq => h.1 hp q ?_, ih h.2⟩
    obtain ⟨ps, rfl⟩ := List.head?_eq_some_iff.mp hq
    rfl

theorem Legible.left (h : Legible (ps ++ qs)) : Legible ps :=
  ⟨h.1.left, fun p hp => h.2 p (List.mem_append_left qs hp)⟩

/-- What comes after a row of tokens and blanks starts at a boundary, unless it is blank itself. -/
theorem boundary (legible : Legible ps) (blank : ∀ c ∈ blanks, isBlank c = true)
    (inked : ∀ c ∈ rest.head?, isBlank c = false) (split : text.toList = textAll ps ++ blanks ++ rest) :
    Boundary text (textAll ps ++ blanks).length := by
  have length := congrArg List.length split
  rw [String.length_toList, List.length_append] at length
  have before : scan (String.ofList (text.toList.take (textAll ps ++ blanks).length)) =
      .ok (place 0 ps ++ [⟨0 + (textAll ps ++ blanks).length, .finish⟩]) := by
    rw [scan, split, List.take_left, String.toList_ofList]
    exact scanFrom_printed legible blank 0
  refine ⟨by omega, ?_, _, before⟩
  cases rest with
  | nil => exact .inl length.symm
  | cons c rest =>
    refine .inr ⟨c, ?_, inked c rfl⟩
    rw [split, List.getElem?_append_right (Nat.le_refl _), Nat.sub_self]
    rfl

/-- A placed token stands after the row of those before it. -/
theorem exists_of_mem_place (h : offset ∈ (place start ps).map Placed.offset) :
    ∃ before p after, ps = before ++ p :: after ∧ offset = start + (textAll before ++ p.blanks).length := by
  induction ps generalizing start with
  | nil => cases h
  | cons p ps ih =>
    rw [place, List.map_cons] at h
    rcases List.mem_cons.mp h with rfl | h
    · exact ⟨[], p, ps, rfl, rfl⟩
    · obtain ⟨before, q, after, rfl, rfl⟩ := ih h
      refine ⟨p :: before, q, after, rfl, ?_⟩
      rw [textAll_cons, List.append_assoc, Nat.add_assoc]
      exact congrArg (start + ·) List.length_append.symm

end Printed

section
variable {settings : Settings} {text : String} {tokens : List Placed} {offset : Nat} {fault : Fault}

/-- Every scanned token stands at a boundary of the text, its end too. -/
theorem boundary_of_interleaves (h : Interleaves text tokens) (hoffset : offset ∈ tokens.map Placed.offset) :
    Boundary text offset := by
  obtain ⟨ps, blanks, legible, blank, split, rfl⟩ := h
  rw [List.map_append, List.mem_append] at hoffset
  rcases hoffset with inside | last
  · obtain ⟨before, p, after, rfl, rfl⟩ := Printed.exists_of_mem_place inside
    obtain ⟨c, cs, heq, inked, -⟩ := p.written.exists_cons
    rw [Nat.zero_add]
    have later : text.toList =
        Printed.textAll before ++ p.blanks ++ (p.chars ++ (Printed.textAll after ++ blanks)) := by
      rw [split, Printed.textAll_append, Printed.textAll_cons, Printed.text]
      simp only [List.append_assoc]
    refine Printed.boundary legible.left p.blank ?_ later
    rw [heq]
    rintro _ ⟨⟩
    exact inked
  · obtain rfl := List.mem_singleton.mp last
    have ended : text.toList = Printed.textAll ps ++ blanks ++ [] := by rw [split, List.append_nil]
    have whole := Printed.boundary legible blank (fun _ hc => by cases hc) ended
    rwa [← split, String.length_toList] at whole

/-- The scanner refuses a text at a boundary. -/
theorem boundary_of_scan (h : scan text = .error (.malformed offset fault)) : Boundary text offset := by
  have scanned := Printed.scanned 0 text.toList
  rw [show scanFrom 0 (text.toList.map Char.toLower) = _ from h] at scanned
  cases scanned with
  | @stuck ps blanks rest c _ legible blank inked split =>
    rw [Nat.zero_add]
    refine Printed.boundary legible blank ?_ split
    rintro _ ⟨⟩
    exact inked

theorem ended_of_interleaves (h : Interleaves text tokens) : Ended tokens := by
  obtain ⟨ps, blanks, -, -, -, rfl⟩ := h
  exact ⟨_, List.mem_append_right _ (List.mem_singleton_self _), rfl⟩

/-- A text is refused at a boundary: at its end or at a character that is not blank, where the text before is a row of
    whole tokens. -/
theorem Dice.boundary_of_malformed (h : parse text settings = .error (.malformed offset fault)) :
    Boundary text offset := by
  unfold parse at h
  split at h
  · next scanned =>
    cases h
    exact boundary_of_scan scanned
  · next tokens scanned =>
    have row := interleaves_of_scan scanned
    exact boundary_of_interleaves row (ofTokens_refused (ended_of_interleaves row) h offset rfl)

/-- A second bang is refused where it stands, after the number that follows it was read. Blanks are characters of any
    size. -/
theorem Dice.secondBang_boundary : parse "\u00a02D6!dh\u2003!9 +" = .error (.malformed 8 .secondExplosion) ∧
    Boundary "\u00a02D6!dh\u2003!9 +" 8 := by
  have refused : parse "\u00a02D6!dh\u2003!9 +" = .error (.malformed 8 .secondExplosion) := by
    with_unfolding_all rfl
  exact ⟨refused, boundary_of_malformed refused⟩

end

end DiceNotation
