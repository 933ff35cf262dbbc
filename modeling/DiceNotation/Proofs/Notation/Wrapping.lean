import DiceNotation.Proofs.Notation.Phrase

/-! Brackets in written phrases. The text of a phrase closes every bracket that it opens, so a text around it
    does not move its plus signs, and those outside of all brackets are the ones that its syntax shows. -/

namespace DiceNotation

namespace Wrap
variable {a b : List Char} {c : Char}

/-- A text is balanced if brackets around it are not touched and no plus of it counts inside of them. -/
def Balanced (text : List Char) : Prop := ∀ depth, depthAfter depth text = depth ∧ plusAt (depth + 1) text = false

theorem depthAfter_append (depth : Nat) : depthAfter depth (a ++ b) = depthAfter (depthAfter depth a) b :=
  List.foldl_append

theorem balanced_nil : Balanced [] := fun _ => ⟨rfl, rfl⟩

theorem Balanced.append (ha : Balanced a) (hb : Balanced b) : Balanced (a ++ b) := by
  intro depth
  rw [depthAfter_append, (ha depth).1, plusAt_append, (ha (depth + 1)).1, (ha depth).2, (hb depth).2]
  exact ⟨(hb depth).1, rfl⟩

theorem balanced_singleton (hopen : opens c = false) (hclose : closes c = false) : Balanced [c] := by
  intro depth
  simp [depthAfter, plusAt, step, hopen, hclose]

theorem balanced_bracket {o k : Char} (ho : opens o = true) (hk : opens k = false ∧ closes k = true) (ha : Balanced a) :
    Balanced (o :: a ++ [k]) := by
  have hplus : (k == '+') = false := by
    cases heq : k == '+' with
    | false => rfl
    | true => rw [eq_of_beq heq] at hk; cases hk.2
  intro depth
  have hopened : step depth o = depth + 1 ∧ step (depth + 1) o = depth + 1 + 1 := by simp [step, ho]
  constructor
  · rw [List.cons_append, depthAfter, List.foldl_cons, hopened.1]
    show depthAfter (depth + 1) (a ++ [k]) = depth
    rw [depthAfter_append, (ha _).1]
    simp [depthAfter, step, hk.1, hk.2]
  · rw [List.cons_append, plusAt, hopened.2, plusAt_append, (ha _).2, (ha _).1]
    simp [plusAt, hplus]

theorem not_plus_of_opens (h : opens c = true) : (c == '+') = false := by
  cases heq : c == '+' with
  | false => rfl
  | true => rw [eq_of_beq heq] at h; cases h

theorem hasPlus_append (ha : Balanced a) : hasPlus (a ++ b) = (hasPlus a || hasPlus b) := by
  rw [hasPlus, plusAt_append, (ha 0).1]
  rfl

theorem hasPlus_bracket {o : Char} (k : Char) (ho : opens o = true) (ha : Balanced a) :
    hasPlus (o :: a ++ [k]) = false := by
  rw [List.cons_append, hasPlus, plusAt, not_plus_of_opens ho, plusAt_append, show step 0 o = 0 + 1 by simp [step, ho], (ha 0).2,
    (ha 1).1]
  simp [plusAt]

/-- A text is quiet if it is balanced and has no plus outside of its brackets. -/
def Quiet (text : List Char) : Prop := Balanced text ∧ hasPlus text = false

theorem quiet_nil : Quiet [] := ⟨balanced_nil, rfl⟩

theorem Quiet.append (ha : Quiet a) (hb : Quiet b) : Quiet (a ++ b) :=
  ⟨ha.1.append hb.1, by rw [hasPlus_append ha.1, ha.2, hb.2]; rfl⟩

theorem quiet_bracket {o k : Char} (ho : opens o = true) (hk : opens k = false ∧ closes k = true) (ha : Balanced a) :
    Quiet (o :: a ++ [k]) :=
  ⟨balanced_bracket ho hk ha, hasPlus_bracket k ho ha⟩

theorem quiet_singleton (hopen : opens c = false) (hclose : closes c = false) (hplus : c ≠ '+') : Quiet [c] :=
  ⟨balanced_singleton hopen hclose, by simp [hasPlus, plusAt, hplus]⟩

theorem plain_of_isDigit (h : c.isDigit = true) : opens c = false ∧ closes c = false := by
  have hne : ∀ d : Char, d.isDigit = false → (c == d) = false := fun d hd => by
    cases heq : c == d with
    | false => rfl
    | true => rw [← eq_of_beq heq, h] at hd; cases hd
  constructor
  · rw [opens, hne '(' rfl, hne '[' rfl]
    rfl
  · rw [closes, hne ')' rfl, hne ']' rfl]
    rfl

theorem quiet_of_forall (h : ∀ c ∈ a, Quiet [c]) : Quiet a := by
  induction a with
  | nil => exact quiet_nil
  | cons c a ih =>
    exact Quiet.append (a := [c]) (h c List.mem_cons_self) (ih fun d hd => h d (List.mem_cons_of_mem c hd))

end Wrap

open Wrap

/-! ### Words -/

/-- A token without brackets that is no plus. -/
def Token.isQuiet : Token → Bool
  | openFaces => false
  | closeFaces => false
  | openGroup => false
  | closeGroup => false
  | operator .add => false
  | _ => true

theorem quiet_token {t : Token} (h : t.isQuiet = true) : Quiet t.chars := by
  cases t with
  | number n =>
    refine quiet_of_forall fun c hc => ?_
    have hdigit := Numeral.isDigit_of_mem_ofNat hc
    obtain ⟨hopen, hclose⟩ := plain_of_isDigit hdigit
    exact quiet_singleton hopen hclose fun heq => by rw [heq] at hdigit; cases hdigit
  | operator o =>
    cases o with
    | add => cases h
    | _ => exact quiet_singleton rfl rfl (by decide)
  | comparison c => cases c <;> exact quiet_singleton rfl rfl (by decide)
  | selector s =>
    cases s <;> exact quiet_of_forall (by
      simp only [Token.chars, Selector.tag, List.forall_mem_cons]
      exact ⟨quiet_singleton rfl rfl (by decide), quiet_singleton rfl rfl (by decide), List.forall_mem_nil _⟩)
  | finish => exact quiet_nil
  | openFaces => cases h
  | closeFaces => cases h
  | openGroup => cases h
  | closeGroup => cases h
  | _ => exact quiet_singleton rfl rfl (by decide)

theorem quiet_words {words : List Token} (h : ∀ t ∈ words, t.isQuiet = true) : Quiet (spelled words) := by
  induction words with
  | nil => exact quiet_nil
  | cons t words ih =>
    exact (quiet_token (h t List.mem_cons_self)).append (ih fun u hu => h u (List.mem_cons_of_mem t hu))

theorem isQuiet_outcome {n : Outcome} : ∀ t ∈ n.words, t.isQuiet = true := by
  unfold Outcome.words
  split
  · exact List.forall_mem_cons.mpr ⟨rfl, List.forall_mem_singleton.mpr rfl⟩
  · exact List.forall_mem_singleton.mpr rfl

theorem quiet_die (d : Die) : Quiet (spelled d.words) := by
  cases d with
  | standard sides _ => exact quiet_words (List.forall_mem_singleton.mpr rfl)
  | fudge => exact quiet_words (List.forall_mem_singleton.mpr rfl)
  | percentile => exact quiet_words (List.forall_mem_singleton.mpr rfl)
  | custom faces _ =>
    have listed : Quiet (spelled ([.comma].intercalate (faces.map Outcome.words))) :=
      quiet_words (forall_mem_intercalate (List.forall_mem_singleton.mpr rfl)
        (List.forall_mem_map.mpr fun _ _ => isQuiet_outcome))
    have bracketed := quiet_bracket (o := '[') (k := ']') rfl ⟨rfl, rfl⟩ listed.1
    rw [Die.words, spelled_append]
    exact bracketed

theorem quiet_modifiers (m : Modifiers) : Quiet (spelled m.words) := by
  obtain ⟨trigger, selection⟩ := m
  refine quiet_words (List.forall_mem_append.mpr ⟨?_, ?_⟩)
  · cases trigger with
    | none => exact List.forall_mem_nil _
    | some t =>
      obtain ⟨c, threshold⟩ := t
      cases threshold with
      | none => exact List.forall_mem_singleton.mpr rfl
      | some n => exact List.forall_mem_cons.mpr ⟨rfl, List.forall_mem_cons.mpr ⟨rfl, isQuiet_outcome⟩⟩
  · cases selection with
    | none => exact List.forall_mem_nil _
    | some selection => exact List.forall_mem_cons.mpr ⟨rfl, List.forall_mem_singleton.mpr rfl⟩

theorem quiet_group (g : PlainGroup) : Quiet (spelled g.words) := by
  have body : Quiet (spelled (.die :: (g.die.words ++ g.modifiers.words))) := by
    have letter : Quiet ['D'] := quiet_singleton rfl rfl (by decide)
    rw [← List.cons_append, spelled_append]
    exact (letter.append (quiet_die g.die)).append (quiet_modifiers g.modifiers)
  unfold PlainGroup.words
  rw [spelled_append]
  refine Quiet.append ?_ body
  split
  · exact quiet_words (List.forall_mem_singleton.mpr rfl)
  · exact quiet_nil

/-! ### Phrases -/

namespace Phrase

/-- The text of a phrase. -/
def chars (p : Phrase) : List Char := spelled p.words

theorem chars_sum (ps : List Phrase) : (sum ps).chars = ['+'].intercalate (ps.map chars) := by
  rw [chars, spelled, words, wordsAll_eq_map, flatMap_intercalate, List.map_map]
  rfl

theorem chars_chain (inner : Phrase) (operator : Operator) (operand : Outcome) :
    (chain inner operator operand).chars =
      (if inner.hasPlus then '(' :: inner.chars ++ [')'] else inner.chars) ++ operator.symbol :: spelled operand.words := by
  rw [chars, words, spelled_append]
  split
  · rw [spelled_append]
    rfl
  · rfl

theorem balanced_intercalate {parts : List (List Char)} (h : ∀ text ∈ parts, Balanced text) :
    Balanced (['+'].intercalate parts) := by
  induction parts with
  | nil => exact balanced_nil
  | cons text parts ih =>
    have later := ih fun more hmore => h more (List.mem_cons_of_mem text hmore)
    cases parts with
    | nil => simpa using h text List.mem_cons_self
    | cons more parts =>
      rw [List.intercalate_cons_cons, List.append_assoc]
      exact (h text List.mem_cons_self).append ((balanced_singleton rfl rfl).append later)

/-- The text of a phrase is balanced, and it has a plus outside of its brackets where its syntax has one. -/
theorem Legible.balanced {p : Phrase} (h : p.Legible) : Balanced p.chars ∧ Wrap.hasPlus p.chars = p.hasPlus := by
  induction h with
  | @plain g _ => exact quiet_group g
  | @chain inner operator operand _ _ ih =>
    have hoperand : Quiet (spelled operand.words) := quiet_words isQuiet_outcome
    have hsymbol : Balanced [operator.symbol] ∧ Wrap.hasPlus [operator.symbol] = (operator == .add) := by
      cases operator <;> exact ⟨balanced_singleton rfl rfl, rfl⟩
    have hinner : Quiet (if inner.hasPlus then '(' :: inner.chars ++ [')'] else inner.chars) := by
      split
      · exact quiet_bracket rfl ⟨rfl, rfl⟩ ih.1
      · next hplus => exact ⟨ih.1, ih.2.trans (Bool.eq_false_iff.mpr hplus)⟩
    rw [chars_chain, ← List.singleton_append (l := spelled operand.words)]
    refine ⟨hinner.1.append (hsymbol.1.append hoperand.1), ?_⟩
    rw [hasPlus_append hinner.1, hinner.2, hasPlus_append hsymbol.1, hsymbol.2, hoperand.2, Bool.or_false]
    rfl
  | @sum ps two _ _ ih =>
    rw [chars_sum]
    refine ⟨balanced_intercalate (List.forall_mem_map.mpr fun p hp => (ih p hp).1), ?_⟩
    obtain ⟨p, q, ps, rfl⟩ := exists_cons_cons two
    rw [List.map_cons, List.map_cons, List.intercalate_cons_cons, List.append_assoc,
      hasPlus_append (ih p List.mem_cons_self).1, List.singleton_append]
    exact Bool.or_true _

/-- The text of a phrase is wrapped if its syntax has a plus outside of parentheses. -/
theorem Legible.wrap {p : Phrase} (h : p.Legible) :
    Wrap.wrap p.chars = if p.hasPlus then '(' :: p.chars ++ [')'] else p.chars := by
  simp only [Wrap.wrap, h.balanced.2]

end Phrase

end DiceNotation
