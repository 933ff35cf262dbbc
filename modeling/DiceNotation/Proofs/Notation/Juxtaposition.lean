import DiceNotation.Proofs.Notation.Composition
import Mathlib.Data.List.Basic

/-! Groups side by side. Two groups with a blank between them are read as the pool of what they are read as alone,
    since none of the numbers that a group may leave out is taken from a count that comes next. There is one
    exception: the faces of a die are taken from any number after its letter, a count too, so a group that leaves
    them out at its end does not keep its dice. -/

namespace DiceNotation

section
variable {settings : Settings} {text : String} {d : Dice}

/-- The whole text is one plain group, which is read as `d`. -/
def IsPlain (settings : Settings) (text : String) (d : Dice) : Prop :=
  ∃ tokens rest, scan text = .ok tokens ∧ readPlain settings tokens = .ok (d, rest) ∧ peek rest = .finish

/-- The whole text is one group, plain dice or an expression in parentheses, which is read as `d`. -/
def IsGroup (settings : Settings) (text : String) (d : Dice) : Prop :=
  ∃ tokens rest, scan text = .ok tokens ∧
    (groupOf settings (expression settings tokens.length)).run tokens = .ok (d, rest) ∧ peek rest = .finish

/-- The text starts with a number, which counts the dice if it is one plain group. -/
def Counted (text : String) : Prop := ∃ tokens, scan text = .ok tokens ∧ (peek tokens).isNumber = true

/-- The text starts with a parenthesis. -/
def Enclosed (text : String) : Prop := ∃ tokens, scan text = .ok tokens ∧ peek tokens = .openGroup

/-- The text ends with the letter of a die. -/
def EndsBare (text : String) : Prop := ∃ tokens, scan text = .ok tokens ∧ BareEnd tokens

/-! ### Groups and terms -/

theorem exists_cons_of_startsTerm {tokens : List Placed} (h : (peek tokens).startsTerm = true) :
    ∃ offset after, tokens = ⟨offset, .die⟩ :: after ∨ tokens = ⟨offset, .openGroup⟩ :: after ∨
      ∃ n, tokens = ⟨offset, .number n⟩ :: after := by
  match tokens, h with
  | ⟨offset, .die⟩ :: after, _ => exact ⟨offset, after, .inl rfl⟩
  | ⟨offset, .openGroup⟩ :: after, _ => exact ⟨offset, after, .inr (.inl rfl)⟩
  | ⟨offset, .number n⟩ :: after, _ => exact ⟨offset, after, .inr (.inr ⟨n, rfl⟩)⟩

/-- Where a term starts, a chain ends and the next term of a sum begins. -/
theorem beside_of_startsTerm {tokens : List Placed} (h : (peek tokens).startsTerm = true) :
    operatorAhead? tokens = none ∧ nextTerm? tokens = some tokens := by
  obtain ⟨offset, after, rfl | rfl | ⟨n, rfl⟩⟩ := exists_cons_of_startsTerm h <;> exact ⟨rfl, rfl⟩

theorem readGroup_of_count {expression : Reader Dice} {tokens after : List Placed} {count offset : Nat}
    (counted : readCount tokens = .ok (count, ⟨offset, .die⟩ :: after)) :
    readGroup settings expression tokens = readPlain settings tokens := by
  obtain ⟨_, _, rfl | rfl | ⟨_, rfl⟩⟩ := exists_cons_of_startsTerm (readCount_opens counted).1
  · rfl
  · cases counted
  · rfl

theorem readGroup_of_plain {expression : Reader Dice} {tokens rest : List Placed}
    (h : readPlain settings tokens = .ok (d, rest)) : readGroup settings expression tokens = .ok (d, rest) := by
  obtain ⟨_, _, _, _, _, _, counted, -⟩ := readPlain_eq_ok_iff.mp h
  exact (readGroup_of_count counted).trans h

theorem IsPlain.isGroup (h : IsPlain settings text d) : IsGroup settings text d := by
  obtain ⟨tokens, rest, scanned, read, ended⟩ := h
  exact ⟨tokens, rest, scanned, readGroup_of_plain read, ended⟩

theorem IsGroup.isTerm (h : IsGroup settings text d) : IsTerm settings text d := by
  obtain ⟨tokens, rest, scanned, read, ended⟩ := h
  refine ⟨tokens, rest, scanned, ?_, ended⟩
  simp only [termOf, read]
  exact readChain_of_none (Phrase.Closes.operatorAhead? (.inr ended))

/-- A group is read in the same way wherever its text stands. -/
theorem IsGroup.exists_read (h : IsGroup settings text d) (start : Nat) :
    ∃ tokens tokens' final, scan text = .ok tokens ∧ scanFrom start (text.toList.map Char.toLower) = .ok tokens' ∧
      peek tokens' = peek tokens ∧ (groupOf settings (expressions settings)).run tokens' = .ok (d, final) ∧
      peek final = .finish := by
  obtain ⟨tokens, rest, scanned, read, ended⟩ := h
  have same : Reader.AgreeUpTo _ _ (groupOf settings (expressions settings)) :=
    groupOf_agreeUpTo (expression_agreeUpTo_expressions settings tokens.length)
  have read := (same tokens (Nat.le_succ _)).symm.trans read
  have aside : Token.Aside [] := fun _ hc => by cases hc
  have later := @scanFrom_nil (start + (text.toList.map Char.toLower).length) [] rfl
  obtain ⟨last, tokens', scanned', alike⟩ := scanFrom_alike aside scanned later (.of_ends rfl) fun _ => rfl
  obtain ⟨left', read', after⟩ :=
    groupOf_local settings (expressions_local settings) (expressions_opens settings) alike read fun _ => trivial
  obtain ⟨-, rfl⟩ := after.eq_of_finish ended
  rw [List.append_nil] at scanned'
  have some := ne_finish_of_startsTerm (groupOf_opens settings _ read).1
  exact ⟨tokens, tokens', _, scanned, scanned', alike.peek_eq some, read', rfl⟩

/-- Two groups without a plus sign between them are an expression. -/
theorem expressions_of_beside {first second : Dice} {tokens middle final : List Placed}
    (h : (groupOf settings (expressions settings)).run tokens = .ok (first, middle))
    (h' : (groupOf settings (expressions settings)).run middle = .ok (second, final)) (ended : peek final = .finish) :
    (expressions settings).run tokens = .ok (.pool [first, second] settings.tracer, final) := by
  obtain ⟨alone, next⟩ := beside_of_startsTerm (groupOf_opens settings _ h').1
  have closes : Phrase.Closes final := .inr ended
  rw [expressions_run]
  simp only [sumOf, terms, termOf, h, readChain_of_none alone, readTerms_of_some next, h',
    readChain_of_none closes.operatorAhead?, Phrase.readTerms_of_closes closes]
  rfl

end

/-! ### Two groups with a blank between them -/

section
variable {settings : Settings} {a b : String} {A B d : Dice} {tokens more rest : List Placed}

theorem scan_beside (scanned : scan a = .ok tokens)
    (later : scanFrom ((a.toList.map Char.toLower).length + 1) (b.toList.map Char.toLower) = .ok more) :
    ∃ words tokens', tokens.map Placed.token = words ++ [.finish] ∧ .finish ∉ words ∧
      scan (a ++ " " ++ b) = .ok tokens' ∧ Starts tokens' words more := by
  have hchars : (a ++ " " ++ b).toList.map Char.toLower =
      a.toList.map Char.toLower ++ ([' '] ++ b.toList.map Char.toLower) := by
    simp
  have aside : Token.Aside ([' '] ++ b.toList.map Char.toLower) := fun c hc => by cases hc; decide
  rw [scan, hchars]
  refine scanFrom_append aside scanned ?_
  rw [scanFrom_blanks (List.forall_mem_singleton.mpr (by decide)), Nat.zero_add]
  exact later

theorem follows_of_first (opens : looseNumber? more = none)
    (first : (peek more).isNumber = true ∨ peek more = .openGroup) : Follows more := by
  refine ⟨?_, opens⟩
  rcases first with number | parenthesis
  · cases hpeek : peek more with
    | number => rfl
    | _ =>
      rw [hpeek] at number
      cases number
  · rw [parenthesis]
    rfl

/-- Two groups side by side are their pool, if no count comes after a die without faces. -/
theorem IsPlain.parse_append (ha : IsPlain settings a A) (hb : IsGroup settings b B)
    (apart : Counted b ∨ Enclosed b) (faces : ¬(EndsBare a ∧ Counted b)) :
    Dice.parse (a ++ " " ++ b) settings = .ok (.pool [A, B] settings.tracer) := by
  obtain ⟨tokens, rest, scanned, read, ended⟩ := ha
  obtain ⟨tokensB, more, final, scannedB, later, peekB, readB, finished⟩ :=
    hb.exists_read ((a.toList.map Char.toLower).length + 1)
  obtain ⟨words, tokens', hwords, unfinished, scanned', starts⟩ := scan_beside scanned later
  have first : (peek more).isNumber = true ∨ peek more = .openGroup := by
    rcases apart with ⟨_, scannedB', first⟩ | ⟨_, scannedB', first⟩
    · obtain rfl := Except.ok.inj (scannedB.symm.trans scannedB')
      exact .inl (peekB ▸ first)
    · obtain rfl := Except.ok.inj (scannedB.symm.trans scannedB')
      exact .inr (peekB ▸ first)
  have follows := follows_of_first (groupOf_opens settings _ readB).2 first
  have bare : BareEnd tokens → (peek more).isNumber = false := fun bare => by
    cases number : (peek more).isNumber with
    | false => rfl
    | true => exact absurd ⟨⟨tokens, scanned, bare⟩, tokensB, scannedB, peekB ▸ number⟩ faces
  obtain ⟨last, alike⟩ := starts.alike hwords unfinished follows bare
  obtain ⟨left', read', after⟩ := readPlain_alike alike read
  obtain ⟨-, rfl⟩ := after.eq_of_finish ended
  have run := expressions_of_beside (readGroup_of_plain read') readB finished
  obtain ⟨opens, loose⟩ := readPlain_opens read'
  rw [Dice.parse, scanned']
  exact ofTokens_of_expressions (x := .ok _) (readsEmpty_of_opens opens loose) run finished

/-! ### A die without faces -/

/-- The words of a count, which is the same wherever they are followed by the letter of a die. -/
theorem exists_words_of_readCount {count offset : Nat} {after : List Placed}
    (h : readCount tokens = .ok (count, ⟨offset, .die⟩ :: after)) :
    ∃ words, Token.die ∉ words ∧ tokens.map Placed.token = words ++ .die :: after.map Placed.token ∧
      ∀ offset' tokens' after', Starts tokens' words (⟨offset', .die⟩ :: after') →
        readCount tokens' = .ok (count, ⟨offset', .die⟩ :: after') := by
  obtain ⟨_, rfl, some, few⟩ | ⟨rfl, rfl, -⟩ := readCount_eq_ok_iff.mp h
  · refine ⟨[.number count], by simp, rfl, ?_⟩
    rintro offset' _ after' ⟨_, _, rfl, rfl⟩
    exact readCount_eq_ok_iff.mpr (.inl ⟨_, rfl, some, few⟩)
  · refine ⟨[], List.not_mem_nil, rfl, ?_⟩
    rintro offset' _ after' rfl
    rfl

/-- Nothing comes after the letter of a die that is the last of a plain group. -/
theorem bare_of_readPlain {words : List Token} (lexed : Lexed tokens) (read : readPlain settings tokens = .ok (A, rest))
    (hrest : rest.map Placed.token = [.finish]) (bare : BareEnd tokens)
    (hwords : tokens.map Placed.token = words ++ [.finish]) :
    ∃ count, ∀ tokens' more, Starts tokens' words more →
      ∃ offset, readCount tokens' = .ok (count, ⟨offset, .die⟩ :: more) := by
  obtain ⟨count, _, after, _, _, _, counted, faced, modified, -⟩ := readPlain_eq_ok_iff.mp read
  obtain ⟨countWords, hnone, heq, again⟩ := exists_words_of_readCount counted
  refine ⟨count, fun tokens' more starts => ?_⟩
  have only : Token.die ∉ after.map Placed.token := by
    obtain ⟨-, hcount⟩ := readCount_few counted
    have lexedAfter := (lexed.after hcount).tail
    obtain ⟨-, hfaces⟩ := readDie_writable lexedAfter faced
    obtain ⟨-, hmodifiers⟩ := readModifiers_writable (lexedAfter.after hfaces) (fun _ ht => by cases ht) modified
    obtain ⟨taken, rfl, hdie⟩ := hfaces.trans hmodifiers
    rw [List.map_append, hrest]
    simpa using List.count_eq_zero.mp hdie
  obtain ⟨earlier, hearlier⟩ := bare
  obtain ⟨rfl, -, hafter⟩ := (List.append_cons_inj_of_notMem hnone only).mp (heq.symm.trans hearlier.symm)
  have hlast : words ++ [.finish] = (countWords ++ [.die]) ++ [.finish] := by
    rw [← hwords, heq, hafter, List.append_assoc]
    rfl
  obtain rfl := List.append_cancel_right hlast
  obtain ⟨_, hcount, offset, _, rfl, rfl⟩ := starts_append.mp starts
  exact ⟨offset, again offset tokens' more hcount⟩

theorem length_eq_of_sameAll {ds es : List Dice} (h : Dice.sameAll ds es = true) : ds.length = es.length := by
  induction ds generalizing es with
  | nil =>
    cases es with
    | nil => rfl
    | cons => cases h
  | cons d ds ih =>
    cases es with
    | nil => cases h
    | cons e es => rw [List.length_cons, List.length_cons, ih (Bool.and_eq_true_iff.mp h).2]

theorem not_same_of_assemble {count : Nat} {die : Die} {selection : Option (Selector × Nat)} {one many : Dice}
    (two : 2 ≤ count) (hone : assemble settings 1 die selection = .ok one)
    (hmany : assemble settings count die selection = .ok many) : Dice.same one many = false := by
  cases selection with
  | none =>
    cases hone
    cases hmany
    rw [if_neg (Nat.ne_of_gt two)]
    rfl
  | some selection =>
    obtain ⟨-, rfl⟩ := Pool.select_eq_ok_iff.mp hone
    obtain ⟨-, rfl⟩ := Pool.select_eq_ok_iff.mp hmany
    refine Bool.and_eq_false_imp.mpr fun _ => Bool.eq_false_iff.mpr fun h => ?_
    have hlength := length_eq_of_sameAll h
    rw [Pool.replicate, Pool.replicate, List.length_replicate, List.length_replicate] at hlength
    exact absurd hlength (Nat.ne_of_lt two)

/-- More dice than one do not build what one builds. -/
theorem not_same_of_count {count : Nat} {die : Die} {m : Modifiers} {one many : Dice} (two : 2 ≤ count)
    (hone : buildGroup settings 1 die m = .ok one) (hmany : buildGroup settings count die m = .ok many) :
    Dice.same one many = false := by
  obtain ⟨x, hx, ⟨untriggered, rfl⟩ | ⟨t, triggered, exploded⟩⟩ := buildGroup_cases hone <;>
    obtain ⟨y, hy, ⟨untriggered', rfl⟩ | ⟨t', triggered', exploded'⟩⟩ := buildGroup_cases hmany
  · exact not_same_of_assemble two hx hy
  · rw [untriggered] at triggered'
    cases triggered'
  · rw [triggered] at untriggered'
    cases untriggered'
  · obtain ⟨-, rfl⟩ := Dice.explode_eq_ok_iff.mp exploded
    obtain ⟨-, rfl⟩ := Dice.explode_eq_ok_iff.mp exploded'
    rw [Dice.same, not_same_of_assemble two hx hy, Bool.and_false]

theorem exists_first (h : (expressions settings).run tokens = .ok (d, rest)) :
    ∃ first middle, (groupOf settings (expressions settings)).run tokens = .ok (first, middle) := by
  rw [expressions_run] at h
  cases hfirst : (groupOf settings (expressions settings)).run tokens with
  | error e =>
    simp only [sumOf, terms, termOf, hfirst] at h
    cases h
  | ok read => exact ⟨_, _, rfl⟩

/-- The first two groups of an expression, if the second one comes right after the first. -/
theorem exists_beside {first : Dice} {middle : List Placed} (h : (expressions settings).run tokens = .ok (d, rest))
    (hfirst : (groupOf settings (expressions settings)).run tokens = .ok (first, middle))
    (starts : (peek middle).startsTerm = true) :
    ∃ second final, (groupOf settings (expressions settings)).run middle = .ok (second, final) ∧
      (peek final = .finish → ∃ others, d = .pool (first :: second :: others) settings.tracer) := by
  obtain ⟨alone, next⟩ := beside_of_startsTerm starts
  rw [expressions_run] at h
  simp only [sumOf, terms, termOf, hfirst, readChain_of_none alone, readTerms_of_some next] at h
  cases hsecond : (groupOf settings (expressions settings)).run middle with
  | error e =>
    simp only [hsecond] at h
    cases h
  | ok read =>
    obtain ⟨second, final⟩ := read
    refine ⟨second, final, rfl, fun ended => ?_⟩
    simp only [hsecond, readChain_of_none (Phrase.Closes.operatorAhead? (.inr ended))] at h
    obtain ⟨_, hothers, heq⟩ := map_eq_ok h
    obtain ⟨_, -, rfl⟩ := map_eq_ok hothers
    cases heq
    exact ⟨_, rfl⟩

theorem readModifiers_die (found : Modifiers) (offset : Nat) (after : List Placed) :
    readModifiers found (⟨offset, .die⟩ :: after) = .ok (found, ⟨offset, .die⟩ :: after) := by
  rw [readModifiers]
  · rintro _ _ ⟨⟩
  · rintro _ _ _ ⟨⟩

/-- Where the count of the second group is taken for the faces of the first one, the second group is read without its
    count. -/
theorem exists_uncounted {count offset : Nat} {final : List Placed}
    (counted : readCount tokens = .ok (count, ⟨offset, .die⟩ :: more)) (number : (peek more).isNumber = true)
    (read : readGroup settings (expressions settings) more = .ok (B, rest)) (ended : peek rest = .finish)
    (h : (expressions settings).run tokens = .ok (d, final)) :
    ∃ first second others, d = .pool (first :: second :: others) settings.tracer ∧ Dice.same second B = false := by
  match more, number with
  | ⟨_, .number n⟩ :: after, _ =>
  obtain ⟨k, letter, afterDie, die, afterFaces, modifiers, countedB, faced, modified, built⟩ := readPlain_eq_ok_iff.mp read
  obtain ⟨_, heq, -⟩ := (readCount_eq_ok_iff.mp countedB).resolve_right fun uncounted => uncounted.2.2 n rfl
  cases heq
  obtain ⟨first, middle, hfirst⟩ := exists_first h
  have hplain := (readGroup_of_count counted).symm.trans hfirst
  obtain ⟨_, _, _, _, _, _, counted', faced', modified', -⟩ := readPlain_eq_ok_iff.mp hplain
  rw [counted] at counted'
  cases counted'
  obtain ⟨_, sided, heq⟩ := map_eq_ok faced'
  cases heq
  rw [readModifiers_die] at modified'
  cases modified'
  obtain ⟨second, final', hsecond, whole⟩ := exists_beside h hfirst rfl
  have hplain : readPlain settings (⟨letter, .die⟩ :: afterDie) = .ok (second, final') := hsecond
  obtain ⟨_, _, _, _, _, _, counted', faced', modified', built'⟩ := readPlain_eq_ok_iff.mp hplain
  cases counted'
  rw [faced] at faced'
  cases faced'
  rw [modified] at modified'
  cases modified'
  obtain ⟨others, rfl⟩ := whole ended
  refine ⟨first, second, others, rfl, not_same_of_count ?_ built' built⟩
  unfold Die.ofSides at sided
  split at sided
  · next two => exact two
  · cases sided

/-- A die without faces takes them from the count that comes next. What is parsed then, if anything, is not the
    pool of the two groups. -/
theorem IsPlain.not_same_append (ha : IsPlain settings a A) (hb : IsGroup settings b B) (bare : EndsBare a)
    (counted : Counted b) (h : Dice.parse (a ++ " " ++ b) settings = .ok d) :
    (d == .pool [A, B] settings.tracer) = false := by
  obtain ⟨tokens, rest, scanned, read, ended⟩ := ha
  obtain ⟨_, scanned', bare⟩ := bare
  obtain rfl := Except.ok.inj (scanned.symm.trans scanned')
  obtain ⟨tokensB, more, final, scannedB, later, peekB, readB, finished⟩ :=
    hb.exists_read ((a.toList.map Char.toLower).length + 1)
  obtain ⟨words, tokens', hwords, unfinished, scanned', starts⟩ := scan_beside scanned later
  have hrest : rest.map Placed.token = [.finish] := by
    obtain ⟨ending, hending, whole⟩ := starts_of_map_token hwords
    obtain ⟨⟨_, _⟩, rfl, rfl⟩ := List.map_eq_singleton_iff.mp hending
    obtain ⟨last, alike⟩ := whole.alike hwords unfinished (.of_ends rfl) fun _ => rfl
    obtain ⟨_, -, after⟩ := readPlain_alike alike read
    obtain ⟨rfl, -⟩ := after.eq_of_finish ended
    rfl
  obtain ⟨count, hcount⟩ := bare_of_readPlain (fits_of_scan scanned) read hrest bare hwords
  obtain ⟨offset, counted'⟩ := hcount tokens' more starts
  obtain ⟨_, scannedB', number⟩ := counted
  obtain rfl := Except.ok.inj (scannedB.symm.trans scannedB')
  obtain ⟨opens, loose⟩ := readCount_opens counted'
  obtain ⟨_, _, scanned'', run, -⟩ := Expresses.read ⟨tokens', scanned', readsEmpty_of_opens opens loose, h⟩
  obtain rfl := Except.ok.inj (scanned'.symm.trans scanned'')
  obtain ⟨first, second, others, rfl, different⟩ := exists_uncounted counted' (peekB ▸ number) readB finished run
  show (Dice.same first A && (Dice.same second B && Dice.sameAll others [])) = false
  rw [different, Bool.false_and, Bool.and_false]

/-- Groups side by side, the second one counted or in parentheses: each text is parsed alone, and the two texts with a
    blank between them are parsed as the pool of both, but for a die that leaves its faces out before a count. That is
    never parsed as the pool of both. -/
theorem Dice.parse_beside (ha : IsPlain settings a A) (hb : IsGroup settings b B) (apart : Counted b ∨ Enclosed b) :
    parse a settings = .ok A ∧ parse b settings = .ok B ∧
      (¬(EndsBare a ∧ Counted b) → parse (a ++ " " ++ b) settings = .ok (.pool [A, B] settings.tracer)) ∧
      (EndsBare a ∧ Counted b → ∀ d, parse (a ++ " " ++ b) settings = .ok d →
        (d == .pool [A, B] settings.tracer) = false) :=
  ⟨ha.isGroup.isTerm.parse, hb.isTerm.parse, ha.parse_append hb apart, fun ⟨bare, counted⟩ _ =>
    ha.not_same_append hb bare counted⟩

end

namespace Dice

def explodingSixes : Dice := .explosion (.pool (List.replicate 4 (.die six)) none) .equals 6 maxExplosions none

def threeEights : Dice := .pool (List.replicate 3 (.die eight)) none

def twoSixes : Dice := .pool (List.replicate 2 (.die six)) none

theorem explodingSixes_isPlain : IsPlain {} "4d6!" explodingSixes ∧ ¬EndsBare "4d6!" := by
  have scanned : scan "4d6!" = .ok [⟨0, .number 4⟩, ⟨1, .die⟩, ⟨2, .number 6⟩, ⟨3, .bang⟩, ⟨4, .finish⟩] := by
    with_unfolding_all rfl
  refine ⟨⟨_, [⟨4, .finish⟩], scanned, by with_unfolding_all rfl, rfl⟩, ?_⟩
  rintro ⟨_, scanned', bare⟩
  obtain rfl := Except.ok.inj (scanned.symm.trans scanned')
  exact absurd bare (by decide)

theorem six_isPlain : IsPlain {} "d" (.die six) ∧ EndsBare "d" := by
  have scanned : scan "d" = .ok [⟨0, .die⟩, ⟨1, .finish⟩] := by with_unfolding_all rfl
  exact ⟨⟨_, [⟨1, .finish⟩], scanned, by with_unfolding_all rfl, rfl⟩, _, scanned, List.suffix_refl _⟩

theorem threeEights_isGroup : IsGroup {} "3d8" threeEights ∧ Counted "3d8" := by
  have scanned : scan "3d8" = .ok [⟨0, .number 3⟩, ⟨1, .die⟩, ⟨2, .number 8⟩, ⟨3, .finish⟩] := by
    with_unfolding_all rfl
  exact ⟨⟨_, [⟨3, .finish⟩], scanned, by with_unfolding_all rfl, rfl⟩, _, scanned, rfl⟩

theorem twoSixes_isGroup : IsGroup {} "2d6" twoSixes ∧ Counted "2d6" := by
  have scanned : scan "2d6" = .ok [⟨0, .number 2⟩, ⟨1, .die⟩, ⟨2, .number 6⟩, ⟨3, .finish⟩] := by
    with_unfolding_all rfl
  exact ⟨⟨_, [⟨3, .finish⟩], scanned, by with_unfolding_all rfl, rfl⟩, _, scanned, rfl⟩

/-- The number after a bang is left out before a count, and the faces after a letter are not. -/
theorem besideTexts_parsed :
    parse ("4d6!" ++ " " ++ "3d8") {} = .ok (.pool [explodingSixes, threeEights] none) ∧
      parse ("d" ++ " " ++ "2d6") {} = .ok (.pool [.die (.standard 2 (Nat.le_refl 2)), .die six] none) ∧
      ∀ d, parse ("d" ++ " " ++ "2d6") {} = .ok d → (d == .pool [.die six, twoSixes] none) = false := by
  obtain ⟨plain, faces⟩ := explodingSixes_isPlain
  obtain ⟨group, counted⟩ := threeEights_isGroup
  obtain ⟨bare, omitted⟩ := six_isPlain
  obtain ⟨two, counted'⟩ := twoSixes_isGroup
  obtain ⟨-, -, apart, -⟩ := parse_beside plain group (.inl counted)
  obtain ⟨-, -, -, taken⟩ := parse_beside bare two (.inl counted')
  exact ⟨apart fun h => faces h.1, by with_unfolding_all rfl, taken ⟨omitted, counted'⟩⟩

end Dice

end DiceNotation
