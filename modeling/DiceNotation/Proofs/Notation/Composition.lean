import DiceNotation.Proofs.Notation.Canonical
import DiceNotation.Proofs.Notation.Locality

/-! Parsing is compositional. Texts that are joined by a plus sign, put in parentheses or followed by operators and
    constants are parsed as the trees of the single texts, put together by what joins them. -/

namespace DiceNotation

/-! ### Scanning joined texts -/

theorem map_intercalate (f : α → β) (sep : List α) (parts : List (List α)) :
    (sep.intercalate parts).map f = (sep.map f).intercalate (parts.map (·.map f)) := by
  have := flatMap_intercalate (fun a => [f a]) sep parts
  simpa only [← List.map_eq_flatMap] using this

theorem blanks_append (text : List Char) :
    (∀ c ∈ text.takeWhile isBlank, isBlank c = true) ∧ text.takeWhile isBlank ++ text.dropWhile isBlank = text :=
  ⟨List.all_eq_true.mp List.all_takeWhile, List.takeWhile_append_dropWhile⟩

/-- Where a text goes on with another one that is aside from it, the words before its end stay the same. -/
theorem scanFrom_append {text rest : List Char} {offset start : Nat} {tokens more : List Placed}
    (aside : Token.Aside rest) (h : scanFrom offset text = .ok tokens)
    (later : scanFrom (start + text.length) rest = .ok more) :
    ∃ words tokens', tokens.map Placed.token = words ++ [.finish] ∧ .finish ∉ words ∧
      scanFrom start (text ++ rest) = .ok tokens' ∧ Starts tokens' words more := by
  fun_induction scanFrom offset text generalizing start tokens with
  | case1 offset text first =>
    rename_i blank
    cases h
    obtain ⟨hblanks, hsplit⟩ := blanks_append text
    rw [blank, List.append_nil] at hsplit
    rw [hsplit] at hblanks
    rw [scanFrom_blanks hblanks]
    exact ⟨[], more, rfl, List.not_mem_nil, later, rfl⟩
  | case2 => cases h
  | case3 offset text first c after dropped t taken read =>
    rename_i ih
    obtain ⟨others, scanned, heq⟩ := map_eq_ok h
    cases heq
    obtain ⟨lexeme, apart⟩ := Token.lexeme_of_read read
    have inner : t ≠ .finish := by
      rintro rfl
      exact lexeme
    -- The text is some blanks, the lexeme of the token, and the text that is scanned next.
    obtain ⟨hblanks, hsplit⟩ := blanks_append text
    rw [dropped, ← List.take_append_drop taken after, ← List.cons_append] at hsplit
    have hlength := congrArg List.length hsplit
    rw [List.length_append, List.length_append] at hlength
    have step := @scanFrom_lexeme t start _ _ _ hblanks lexeme (apart.append aside)
    rw [if_pos (Token.fits_of_read read), ← List.append_assoc (c :: _), ← List.append_assoc, hsplit] at step
    obtain ⟨words, tokens', hwords, unfinished, hscan, starts⟩ :=
      ih scanned (by rw [Nat.add_assoc, Nat.add_assoc, hlength]; exact later)
    refine ⟨t :: words, _, ?_, ?_, by rw [step, hscan]; rfl, _, _, rfl, starts⟩
    · rw [List.map_cons, hwords]
      rfl
    · exact List.not_mem_cons_of_ne_of_not_mem inner.symm unfinished

/-- The last word is the letter of a die, whose faces are left out. -/
def BareEnd (tokens : List Placed) : Prop := [.die, .finish] <:+ tokens.map Placed.token

instance (tokens : List Placed) : Decidable (BareEnd tokens) :=
  inferInstanceAs (Decidable ([.die, .finish] <:+ tokens.map Placed.token))

/-- Tokens with the same words are alike, if no number comes after a die whose faces are left out. -/
theorem Starts.alike {words : List Token} {tokens tokens' more : List Placed}
    (hwords : tokens.map Placed.token = words ++ [.finish]) (unfinished : .finish ∉ words)
    (starts : Starts tokens' words more) (follows : Follows more)
    (bare : BareEnd tokens → (peek more).isNumber = false) :
    ∃ last, Alike [⟨last, .finish⟩] more tokens tokens' := by
  induction words generalizing tokens tokens' with
  | nil =>
    obtain ⟨⟨last, _⟩, rfl, rfl⟩ := List.map_eq_singleton_iff.mp hwords
    obtain rfl := starts
    exact ⟨last, .stop rfl follows⟩
  | cons _ words ih =>
    obtain ⟨⟨offset, t⟩, after, rfl, rfl, hafter⟩ := List.map_eq_cons_iff.mp hwords
    obtain ⟨offset', after', rfl, later⟩ := starts
    have inner : t ≠ .finish := (List.ne_of_not_mem_cons unfinished).symm
    obtain ⟨last, alike⟩ := ih hafter (List.not_mem_of_not_mem_cons unfinished) later fun h =>
      bare (h.trans (List.suffix_cons _ _))
    refine ⟨last, .cons inner (fun hdie => ?_) alike⟩
    cases alike with
    | stop =>
      -- The die is the last of the text.
      subst hdie
      exact bare (List.suffix_refl _)
    | cons => rfl

/-- Where a text goes on with another one, its tokens stay alike up to its end. -/
theorem scanFrom_alike {text rest : List Char} {offset start : Nat} {tokens more : List Placed}
    (aside : Token.Aside rest) (h : scanFrom offset text = .ok tokens)
    (later : scanFrom (start + text.length) rest = .ok more) (follows : Follows more)
    (bare : BareEnd tokens → (peek more).isNumber = false) :
    ∃ last tokens', scanFrom start (text ++ rest) = .ok tokens' ∧ Alike [⟨last, .finish⟩] more tokens tokens' := by
  obtain ⟨words, tokens', hwords, unfinished, scanned, starts⟩ := scanFrom_append aside h later
  obtain ⟨last, alike⟩ := starts.alike hwords unfinished follows bare
  exact ⟨last, tokens', scanned, alike⟩

theorem scanFrom_char {t : Token} {c : Char} {offset : Nat} {rest : List Char} {tokens : List Placed}
    (lexeme : t.Lexeme [c]) (apart : t.Apart rest) (fits : t.Fits) (h : scanFrom (offset + 1) rest = .ok tokens) :
    scanFrom offset (c :: rest) = .ok (⟨offset, t⟩ :: tokens) := by
  have step := @scanFrom_lexeme t offset [] [c] rest (List.forall_mem_nil _) lexeme apart
  simp only [if_pos fits, List.nil_append, List.singleton_append, List.length_nil, List.length_singleton, Nat.add_zero,
    h] at step
  exact step

/-! ### Terms and expressions as texts -/

section
variable {settings : Settings} {text : String} {d : Dice} {tokens rest : List Placed}

/-- The whole text is one term, which is read as `d`. -/
def IsTerm (settings : Settings) (text : String) (d : Dice) : Prop :=
  ∃ tokens rest, scan text = .ok tokens ∧
    (termOf settings (groupOf settings (expression settings tokens.length))).run tokens = .ok (d, rest) ∧
    peek rest = .finish

/-- The text is parsed as `d`, and it is neither blank nor a lone zero. -/
def Expresses (settings : Settings) (text : String) (d : Dice) : Prop :=
  ∃ tokens, scan text = .ok tokens ∧ Dice.readsEmpty tokens = false ∧ Dice.parse text settings = .ok d

theorem IsTerm.read (h : IsTerm settings text d) :
    ∃ tokens rest, scan text = .ok tokens ∧ (terms settings).run tokens = .ok (d, rest) ∧ peek rest = .finish := by
  obtain ⟨tokens, rest, scanned, read, ended⟩ := h
  have same : Reader.AgreeUpTo _ _ (terms settings) :=
    termOf_agreeUpTo (groupOf_agreeUpTo (expression_agreeUpTo_expressions settings tokens.length))
  exact ⟨tokens, rest, scanned, (same tokens (Nat.le_succ _)).symm.trans read, ended⟩

theorem Expresses.read (h : Expresses settings text d) :
    ∃ tokens rest, scan text = .ok tokens ∧ (expressions settings).run tokens = .ok (d, rest) ∧
      peek rest = .finish := by
  obtain ⟨tokens, scanned, some, parsed⟩ := h
  rw [Dice.parse, scanned] at parsed
  simp only [Dice.ofTokens, some, Bool.false_eq_true, if_false] at parsed
  split at parsed
  · cases parsed
  · next read =>
    split at parsed
    · next ended =>
      cases parsed
      exact ⟨tokens, _, scanned, read, ended⟩
    · exact absurd parsed refuse_ne_ok

theorem readsEmpty_of_opens (starts : (peek tokens).startsTerm = true) (loose : looseNumber? tokens = none) :
    Dice.readsEmpty tokens = false := by
  unfold Dice.readsEmpty
  split
  · cases loose
  · exact beq_false_of_ne (ne_finish_of_startsTerm starts)

theorem ofTokens_of_expressions {x : Except Error Dice} (some : Dice.readsEmpty tokens = false)
    (h : (expressions settings).run tokens = x.map (·, rest)) (ended : peek rest = .finish) :
    Dice.ofTokens settings tokens = x := by
  have run : (expression settings tokens.length).run tokens = x.map (·, rest) := h
  rw [Dice.ofTokens, some, run]
  cases x with
  | error e => rfl
  | ok d => exact if_pos ended

/-- Tokens that are read as one term describe what the term is read as. -/
theorem ofTokens_of_terms {x : Except Error Dice} (some : Dice.readsEmpty tokens = false)
    (h : (terms settings).run tokens = x.map (·, rest)) (ended : peek rest = .finish) :
    Dice.ofTokens settings tokens = x := by
  refine ofTokens_of_expressions some ?_ ended
  rw [expressions_run]
  simp only [sumOf, h]
  cases x with
  | error e => rfl
  | ok d =>
    simp only [Except.map, Phrase.readTerms_of_closes (.inr ended)]
    rfl

theorem IsTerm.parse (h : IsTerm settings text d) : Dice.parse text settings = .ok d := by
  obtain ⟨tokens, rest, scanned, read, ended⟩ := h.read
  obtain ⟨starts, loose⟩ := terms_opens settings read
  rw [Dice.parse, scanned]
  exact ofTokens_of_terms (x := .ok d) (readsEmpty_of_opens starts loose) read ended

end

/-! ### Sums of texts -/

section
variable {settings : Settings} {text : String} {d : Dice} {texts : List String} {ds : List Dice}

/-- A term in a text that goes on with something that stops it. -/
theorem IsTerm.read_append {more : List Placed} {chars : List Char} {start : Nat} (h : IsTerm settings text d)
    (aside : Token.Aside chars)
    (later : scanFrom (start + (text.toList.map Char.toLower).length) chars = .ok more)
    (ends : (peek more).ends = true) (stop : operatorAhead? more = none) :
    ∃ tokens, scanFrom start (text.toList.map Char.toLower ++ chars) = .ok tokens ∧
      (terms settings).run tokens = .ok (d, more) := by
  obtain ⟨tokens, rest, scanned, read, ended⟩ := h.read
  obtain ⟨last, tokens', scanned', alike⟩ :=
    scanFrom_alike aside scanned later (.of_ends ends) fun _ => Token.isNumber_of_ends ends
  obtain ⟨left', read', after⟩ := terms_local settings alike read fun _ => stop
  obtain ⟨-, rfl⟩ := after.eq_of_finish ended
  exact ⟨tokens', scanned', read'⟩

/-- Terms that are joined by plus signs are read one after the other. -/
theorem exists_sum (h : IsTerm settings text d) (hs : texts.Forall₂ (IsTerm settings) ds) (start : Nat) :
    ∃ tokens middle rest,
      scanFrom start (['+'].intercalate ((text :: texts).map fun t => t.toList.map Char.toLower)) = .ok tokens ∧
        (terms settings).run tokens = .ok (d, middle) ∧ readTerms (terms settings) middle = .ok (ds, rest) ∧
        peek rest = .finish := by
  induction hs generalizing text d start with
  | nil =>
    have aside : Token.Aside [] := fun _ hc => (by cases hc)
    have later := @scanFrom_nil (start + (text.toList.map Char.toLower).length) [] rfl
    obtain ⟨tokens, scanned, read⟩ := h.read_append aside later rfl rfl
    rw [List.append_nil] at scanned
    refine ⟨tokens, _, _, ?_, read, Phrase.readTerms_of_closes (.inr rfl) _, rfl⟩
    simpa using scanned
  | @cons text' d' texts ds h' _ ih =>
    obtain ⟨tokens, middle, rest, scanned, read, others, ended⟩ :=
      ih h' (start + (text.toList.map Char.toLower).length + 1)
    have plus := @scanFrom_char (.operator .add) '+' (start + (text.toList.map Char.toLower).length) _ _ rfl trivial
      trivial scanned
    have stop : operatorAhead? (⟨start + (text.toList.map Char.toLower).length, .operator .add⟩ :: tokens) = none := by
      simp [operatorAhead?, (terms_opens settings read).2]
    obtain ⟨tokens', scanned', read'⟩ := h.read_append (fun c hc => by cases hc; decide) plus rfl stop
    refine ⟨tokens', _, rest, ?_, read', ?_, ended⟩
    · rw [List.map_cons, List.map_cons, List.intercalate_cons_cons, List.append_assoc]
      exact scanned'
    · rw [readTerms_of_some (show nextTerm? (_ :: tokens) = some tokens from rfl)]
      simp only [read, others]
      rfl

theorem IsTerm.parse_sum (h : IsTerm settings text d) (hs : texts.Forall₂ (IsTerm settings) ds) (more : ds ≠ []) :
    Dice.parse ("+".intercalate (text :: texts)) settings = .ok (.pool (d :: ds) settings.tracer) := by
  obtain ⟨tokens, middle, rest, scanned, read, others, ended⟩ := exists_sum h hs 0
  have htext : scan ("+".intercalate (text :: texts)) = .ok tokens := by
    rw [scan, String.toList_intercalate, map_intercalate, List.map_map]
    exact scanned
  have run : (expressions settings).run tokens = .ok (.pool (d :: ds) settings.tracer, rest) := by
    obtain ⟨e, es, rfl⟩ := List.exists_cons_of_ne_nil more
    rw [expressions_run]
    simp only [sumOf, read, others]
    rfl
  obtain ⟨starts, loose⟩ := terms_opens settings read
  rw [Dice.parse, htext]
  exact ofTokens_of_expressions (x := .ok _) (readsEmpty_of_opens starts loose) run ended

end

/-! ### Operators after parentheses -/

/-- An operator and the constant after it. -/
structure Link where
  operator : Operator
  operand : Outcome

namespace Link

def chars (link : Link) : List Char := link.operator.symbol :: link.operand.chars

def words (link : Link) : List Token := .operator link.operator :: link.operand.words

/-- The constant can be written after the operator. -/
def Writable (link : Link) : Prop := link.operator.Writable link.operand

instance (link : Link) : Decidable link.Writable :=
  inferInstanceAs (Decidable (link.operand ≠ .least ∧
    (link.operator = .add ∨ link.operator = .subtract → 0 ≤ link.operand)))

def apply (settings : Settings) (d : Dice) (link : Link) : Except Error Dice :=
  d.apply link.operator link.operand settings.tracer

/-- The text of operators and constants, one after the other. -/
def text (links : List Link) : String := String.ofList (links.flatMap chars)

end Link

section
variable {settings : Settings} {text : String} {d : Dice} {links : List Link} {words : List Token}
  {tokens rest : List Placed}

theorem spelled_links (links : List Link) : spelled (links.flatMap Link.words) = links.flatMap Link.chars := by
  induction links with
  | nil => rfl
  | cons link links ih =>
    rw [List.flatMap_cons, List.flatMap_cons, spelled_append, ih, Link.words, spelled_cons, spelled_outcome]
    rfl

theorem Spaced.append_links (h : Spaced words) : Spaced (words ++ links.flatMap Link.words) := by
  induction links generalizing words with
  | nil => simpa using h
  | cons link links ih =>
    rw [List.flatMap_cons, ← List.append_assoc]
    exact ih (.append rfl h (.cons rfl (spaced_outcome link.operand)))

theorem fits_links (writable : ∀ link ∈ links, link.Writable) : ∀ t ∈ links.flatMap Link.words, t.Fits := by
  intro t ht
  obtain ⟨link, hlink, ht⟩ := List.mem_flatMap.mp ht
  exact List.forall_mem_cons.mpr ⟨trivial, fits_outcome (writable link hlink).1⟩ t ht

/-- Operators and constants are applied from the left, up to the first that the node refuses. -/
theorem readChain_links (writable : ∀ link ∈ links, link.Writable)
    (h : Starts tokens (links.flatMap Link.words) rest) (ended : peek rest = .finish) :
    readChain settings d tokens = (links.foldlM (Link.apply settings) d).map (·, rest) := by
  induction links generalizing d tokens with
  | nil =>
    obtain rfl := h
    exact readChain_of_none (Phrase.Closes.operatorAhead? (.inr ended))
  | cons link links ih =>
    obtain ⟨hlink, hlinks⟩ := List.forall_mem_cons.mp writable
    obtain ⟨middle, first, later⟩ := starts_append.mp h
    have ends : (peek middle).ends = true := by
      cases links with
      | nil =>
        obtain rfl := later
        rw [ended]
        rfl
      | cons _ _ =>
        obtain ⟨_, _, rfl, -⟩ := later
        rfl
    rw [Phrase.readChain_of_starts d hlink.2 ends first, List.foldlM_cons, Link.apply]
    cases d.apply link.operator link.operand settings.tracer with
    | error e => rfl
    | ok d => exact ih hlinks later

/-- Operators and constants after a text in parentheses are applied to what the text is parsed as. -/
theorem Expresses.parse_links (h : Expresses settings text d) (writable : ∀ link ∈ links, link.Writable) :
    Dice.parse ("(" ++ text ++ ")" ++ Link.text links) settings = links.foldlM (Link.apply settings) d := by
  obtain ⟨tokens, rest, scanned, read, ended⟩ := h.read
  have close : Spaced [.closeGroup] := .cons rfl trivial
  have spaced : Spaced (.closeGroup :: links.flatMap Link.words) := close.append_links
  have fits : ∀ t ∈ Token.closeGroup :: links.flatMap Link.words, t.Fits :=
    List.forall_mem_cons.mpr ⟨trivial, fits_links writable⟩
  obtain ⟨more, later⟩ := exists_scanFrom spaced fits (1 + (text.toList.map Char.toLower).length)
  obtain ⟨final, hfinal, _, after, rfl, hlinks⟩ := starts_of_map_token (token_of_scanFrom spaced later)
  have ended' : peek final = .finish := by
    match final, hfinal with
    | [⟨_, _⟩], rfl => rfl
  -- The parenthesis ends the text as the end of the text alone does.
  have aside : Token.Aside ((spelled (.closeGroup :: links.flatMap Link.words)).map Char.toLower) :=
    fun c hc => by cases hc; decide
  obtain ⟨last, tokens', scanned', alike⟩ := scanFrom_alike aside scanned later (.of_ends rfl) fun _ => rfl
  obtain ⟨_, read', inside⟩ := expressions_local settings alike read fun _ => .inl rfl
  obtain ⟨-, rfl⟩ := inside.eq_of_finish ended
  have opened : scan ("(" ++ text ++ ")" ++ Link.text links) = .ok (⟨0, .openGroup⟩ :: tokens') := by
    have hchars : (("(" ++ text ++ ")" ++ Link.text links).toList).map Char.toLower =
        '(' :: (text.toList.map Char.toLower ++ (spelled (.closeGroup :: links.flatMap Link.words)).map Char.toLower) := by
      rw [spelled_cons, spelled_links]
      simp [Link.text, Token.chars]
    rw [scan, hchars]
    exact scanFrom_char rfl trivial trivial scanned'
  have run : (terms settings).run (⟨0, .openGroup⟩ :: tokens') =
      (links.foldlM (Link.apply settings) d).map (·, final) := by
    simp only [terms, termOf, groupOf, readGroup_of_inside (expressions_opens settings) read']
    exact readChain_links writable hlinks ended'
  rw [Dice.parse, opened]
  exact ofTokens_of_terms (readsEmpty_of_opens rfl rfl) run ended'

end

/-! ### Compositional parsing -/

namespace Dice

/-- Terms that are joined by plus signs are parsed as the pool of what they are parsed as one by one; a text in
    parentheses is parsed as the text is; and operators and constants after it are applied to this from the left,
    up to the first that is refused. -/
theorem parse_compositional (settings : Settings) :
    (∀ texts ds, 2 ≤ texts.length → texts.Forall₂ (IsTerm settings) ds →
      texts.Forall₂ (fun text d => parse text settings = .ok d) ds ∧
        parse ("+".intercalate texts) settings = .ok (.pool ds settings.tracer)) ∧
    (∀ text d, Expresses settings text d → parse ("(" ++ text ++ ")") settings = .ok d) ∧
    ∀ text d (links : List Link), Expresses settings text d → (∀ link ∈ links, link.Writable) →
      parse ("(" ++ text ++ ")" ++ Link.text links) settings =
        links.foldlM (fun d link => d.apply link.operator link.operand settings.tracer) d := by
  refine ⟨fun texts ds two h => ⟨h.imp fun _ _ => IsTerm.parse, ?_⟩, fun text d h => ?_, fun text d links h writable => ?_⟩
  · obtain ⟨text, more, texts, rfl⟩ := exists_cons_cons two
    cases h with
    | cons first others =>
      refine first.parse_sum others fun hnil => ?_
      rw [hnil] at others
      cases others
  · have alone := @Expresses.parse_links settings text d [] h (List.forall_mem_nil _)
    rwa [show Link.text [] = "" from rfl, String.append_empty] at alone
  · exact h.parse_links writable

def doubleSix : Dice := .arithmetic (.die six) .multiply 2 none

def sixEight : Dice := .pool [.die six, .die eight] none

theorem doubleSix_isTerm : IsTerm {} "d6*2" doubleSix :=
  ⟨[⟨0, .die⟩, ⟨1, .number 6⟩, ⟨2, .operator .multiply⟩, ⟨3, .number 2⟩, ⟨4, .finish⟩], [⟨4, .finish⟩],
    by with_unfolding_all rfl, by with_unfolding_all rfl, rfl⟩

theorem sixEight_isTerm : IsTerm {} "(d6+d8)" sixEight :=
  ⟨[⟨0, .openGroup⟩, ⟨1, .die⟩, ⟨2, .number 6⟩, ⟨3, .operator .add⟩, ⟨4, .die⟩, ⟨5, .number 8⟩, ⟨6, .closeGroup⟩,
    ⟨7, .finish⟩], [⟨7, .finish⟩], by with_unfolding_all rfl, by with_unfolding_all rfl, rfl⟩

theorem sixEight_expressed : Expresses {} "d6+d8" sixEight :=
  ⟨[⟨0, .die⟩, ⟨1, .number 6⟩, ⟨2, .operator .add⟩, ⟨3, .die⟩, ⟨4, .number 8⟩, ⟨5, .finish⟩],
    by with_unfolding_all rfl, rfl, by with_unfolding_all rfl⟩

theorem joinedTexts_parsed :
    parse ("+".intercalate ["d6*2", "(d6+d8)"]) {} = .ok (.pool [doubleSix, sixEight] none) ∧
      parse ("(" ++ "d6+d8" ++ ")") {} = .ok sixEight ∧
      parse ("(" ++ "d6+d8" ++ ")" ++ Link.text [⟨.multiply, 2⟩, ⟨.divide, 0⟩, ⟨.power, .ofInt (-1)⟩]) {} =
        .error (.illegal .divisionByZero) := by
  obtain ⟨sums, groups, chains⟩ := parse_compositional {}
  have terms : ["d6*2", "(d6+d8)"].Forall₂ (IsTerm {}) [doubleSix, sixEight] :=
    .cons doubleSix_isTerm (.cons sixEight_isTerm .nil)
  exact ⟨(sums _ _ (by decide) terms).2, groups _ _ sixEight_expressed, chains _ _ _ sixEight_expressed (by decide)⟩

end Dice

end DiceNotation
