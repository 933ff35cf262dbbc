import DiceNotation.Token.Scan

/-! Lexemes: what the characters of a token look like, and that the scanner reads each of them as that token
    when the text after it cannot be taken into it. Tokens written one after the other, with no two numbers side
    by side, are scanned back. -/

namespace DiceNotation

theorem toLower_of_isDigit {c : Char} (h : c.isDigit = true) : c.toLower = c := by
  simp only [Char.isDigit, Bool.and_eq_true, decide_eq_true_eq] at h
  unfold Char.toLower
  rw [dif_neg]
  rintro ⟨upper, -⟩
  exact absurd (UInt32.le_trans upper h.2) (by decide)

namespace Token

/-- The token as notations write it: in capitals, and a number without leading zeros. -/
def chars : Token → List Char
  | number value => Numeral.ofNat value
  | die => ['D']
  | fudge => ['F']
  | percent => ['%']
  | openFaces => ['[']
  | closeFaces => [']']
  | comma => [',']
  | operator o => [o.symbol]
  | openGroup => ['(']
  | closeGroup => [')']
  | bang => ['!']
  | comparison c => [c.symbol]
  | selector s => s.tag
  | finish => []

def isNumber : Token → Bool
  | number _ => true
  | _ => false

/-- A token that may stand between any two others. -/
def separates : Token → Bool
  | number _ => false
  | finish => false
  | _ => true

/-- A number fits if a notation can hold it. -/
def Fits : Token → Prop
  | number value => value ≤ greatestNumber
  | _ => True

instance (t : Token) : Decidable t.Fits := by
  cases t with
  | number value => exact inferInstanceAs (Decidable (value ≤ greatestNumber))
  | _ => exact .isTrue trivial

/-- A text in small letters stands for a token. A number may have leading zeros. -/
def Lexeme : Token → List Char → Prop
  | number value, text => text ≠ [] ∧ (∀ c ∈ text, c.isDigit = true) ∧ Numeral.toNat text = value
  | finish, _ => False
  | t, text => text = t.chars.map Char.toLower

/-- The text after a token is not taken into its lexeme. -/
def Apart : Token → List Char → Prop
  | number _, rest => ∀ c ∈ rest.head?, c.isDigit = false
  | die, rest => ∀ c ∈ rest.head?, c ≠ 'h' ∧ c ≠ 'l'
  | _, _ => True

variable {t u : Token} {text rest : List Char}

theorem lexeme_chars (h : t ≠ finish) : t.Lexeme (t.chars.map Char.toLower) := by
  cases t with
  | number value =>
    have hdigit : ∀ c ∈ Numeral.ofNat value, c.isDigit = true := fun _ => Numeral.isDigit_of_mem_ofNat
    have hsame : (Numeral.ofNat value).map Char.toLower = Numeral.ofNat value :=
      (List.map_congr_left fun c hc => toLower_of_isDigit (hdigit c hc)).trans (List.map_id _)
    rw [chars, hsame]
    exact ⟨Numeral.ofNat_ne_nil value, hdigit, Numeral.toNat_ofNat value⟩
  | finish => exact absurd rfl h
  | _ => rfl

/-! ### One token -/

/-- A lexeme starts with a character that is not blank, and that is a digit only if it stands for a number. -/
theorem Lexeme.exists_cons (h : t.Lexeme text) :
    ∃ c cs, text = c :: cs ∧ isBlank c = false ∧ c ≠ 'h' ∧ c ≠ 'l' ∧ (t.isNumber = false → c.isDigit = false) := by
  cases t with
  | number value =>
    obtain ⟨c, cs, rfl⟩ := List.exists_cons_of_ne_nil h.1
    have hc : c.isDigit = true := h.2.1 c List.mem_cons_self
    refine ⟨c, cs, rfl, isBlank_eq_false_of_isDigit hc, ?_, ?_, fun hn => by cases hn⟩
    · rintro rfl
      cases hc
    · rintro rfl
      cases hc
  | finish => exact h.elim
  | operator o =>
    cases o <;> exact ⟨_, _, h, by decide, by decide, by decide, fun _ => by decide⟩
  | comparison c =>
    cases c <;> exact ⟨_, _, h, by decide, by decide, by decide, fun _ => by decide⟩
  | selector s =>
    cases s <;> exact ⟨_, _, h, by decide, by decide, by decide, fun _ => by decide⟩
  | _ => exact ⟨_, _, h, by decide, by decide, by decide, fun _ => by decide⟩

theorem apart_of_lexeme (hu : u.Lexeme text) (h : t.isNumber = true → u.isNumber = false) :
    t.Apart (text ++ rest) := by
  obtain ⟨c, cs, rfl, -, hh, hl, hdigit⟩ := hu.exists_cons
  cases t with
  | number value =>
    rintro _ ⟨⟩
    exact hdigit (h rfl)
  | die =>
    rintro _ ⟨⟩
    exact ⟨hh, hl⟩
  | _ => exact trivial

theorem read_number {c : Char} {cs : List Char} {value : Nat} (lexeme : (number value).Lexeme (c :: cs))
    (apart : (number value).Apart rest) :
    read c (cs ++ rest) =
      if (number value).Fits then .ok (number value, cs.length) else .error (.numberTooLarge (c :: cs)) := by
  obtain ⟨-, hdigits, hvalue⟩ := lexeme
  have taken : (cs ++ rest).takeWhile Char.isDigit = cs := by
    rw [List.takeWhile_append_of_pos fun c hc => hdigits c (List.mem_cons_of_mem _ hc)]
    cases rest with
    | nil => simp
    | cons d rest => rw [List.takeWhile_cons_of_neg (by rw [apart d rfl]; decide), List.append_nil]
  unfold read
  rw [if_pos (hdigits c List.mem_cons_self), readNumber, taken, hvalue]
  rfl

theorem read_die (apart : die.Apart rest) : read 'd' rest = .ok (die, 0) := by
  cases rest with
  | nil => rfl
  | cons c rest =>
    obtain ⟨hh, hl⟩ := apart c rfl
    simp only [read]
    split <;> simp_all

/-- The scanner reads a lexeme as the token that it stands for. -/
theorem read_lexeme {c : Char} {cs : List Char} (lexeme : t.Lexeme (c :: cs)) (apart : t.Apart rest) :
    read c (cs ++ rest) = if t.Fits then .ok (t, cs.length) else .error (.numberTooLarge (c :: cs)) := by
  cases t with
  | number value => exact read_number lexeme apart
  | die =>
    cases lexeme
    exact read_die apart
  | finish => exact lexeme.elim
  | operator o => cases o <;> cases lexeme <;> rfl
  | comparison c => cases c <;> cases lexeme <;> rfl
  | selector s => cases s <;> cases lexeme <;> rfl
  | _ => cases lexeme; rfl

theorem fits_of_read {c : Char} {more : Nat} (h : read c rest = .ok (t, more)) : t.Fits := by
  unfold read at h
  split at h
  · simp only [readNumber] at h
    split at h
    · next hle =>
      cases h
      exact hle
    · cases h
  · split at h <;> first | (cases h; exact trivial) | cases h

theorem take_drop_takeWhile (p : Char → Bool) (text : List Char) :
    text.take (text.takeWhile p).length = text.takeWhile p ∧ text.drop (text.takeWhile p).length = text.dropWhile p := by
  induction text with
  | nil => exact ⟨rfl, rfl⟩
  | cons c text ih =>
    rw [List.takeWhile_cons, List.dropWhile_cons]
    split
    · exact ⟨congrArg (c :: ·) ih.1, ih.2⟩
    · exact ⟨rfl, rfl⟩

/-- What the scanner reads as a token is a lexeme of that token, and what follows is apart from it. -/
theorem lexeme_of_read {c : Char} {more : Nat} (h : read c rest = .ok (t, more)) :
    t.Lexeme (c :: rest.take more) ∧ t.Apart (rest.drop more) := by
  unfold read at h
  split at h
  · next hc =>
    simp only [readNumber] at h
    split at h
    · cases h
      obtain ⟨taken, dropped⟩ := take_drop_takeWhile Char.isDigit rest
      rw [taken, dropped]
      refine ⟨⟨List.cons_ne_nil _ _, List.forall_mem_cons.mpr ⟨hc, fun d hd => ?_⟩, rfl⟩, fun d hd => ?_⟩
      · exact List.all_eq_true.mp List.all_takeWhile d hd
      · have := List.head?_dropWhile_not Char.isDigit rest
        rw [hd] at this
        simpa using this
    · cases h
  · split at h <;> cases h
    case h_3.refl high low =>
      refine ⟨rfl, fun d hd => ?_⟩
      obtain ⟨rest, rfl⟩ := List.head?_eq_some_iff.mp hd
      exact ⟨fun heq => high rest (by rw [heq]), fun heq => low rest (by rw [heq])⟩
    all_goals exact ⟨rfl, trivial⟩

/-- A text that no lexeme before it takes characters from. -/
def Aside (rest : List Char) : Prop := ∀ c ∈ rest.head?, c.isDigit = false ∧ c ≠ 'h' ∧ c ≠ 'l'

theorem Apart.append (apart : t.Apart text) (aside : Aside rest) : t.Apart (text ++ rest) := by
  cases t with
  | number value =>
    intro c hc
    cases text with
    | nil => exact (aside c hc).1
    | cons d text => exact apart c hc
  | die =>
    intro c hc
    cases text with
    | nil => exact (aside c hc).2
    | cons d text => exact apart c hc
  | _ => exact trivial

end Token

/-- The text of words. -/
def spelled (words : List Token) : List Char := words.flatMap Token.chars

theorem spelled_cons (t : Token) (words : List Token) : spelled (t :: words) = t.chars ++ spelled words :=
  List.flatMap_cons

theorem spelled_append (words more : List Token) : spelled (words ++ more) = spelled words ++ spelled more :=
  List.flatMap_append

/-! ### Runs of tokens -/

theorem scanFrom_lexeme {t : Token} {offset : Nat} {blanks text rest : List Char}
    (hblanks : ∀ c ∈ blanks, isBlank c = true) (lexeme : t.Lexeme text) (apart : t.Apart rest) :
    scanFrom offset (blanks ++ (text ++ rest)) =
      if t.Fits then
        (scanFrom (offset + blanks.length + text.length) rest).map (⟨offset + blanks.length, t⟩ :: ·)
      else .error (.malformed (offset + blanks.length) (.numberTooLarge text)) := by
  obtain ⟨c, cs, rfl, hblank, -⟩ := lexeme.exists_cons
  have kept : (blanks ++ (c :: cs ++ rest)).takeWhile isBlank = blanks := by
    rw [List.takeWhile_append_of_pos hblanks, List.cons_append,
      List.takeWhile_cons_of_neg (by rw [hblank]; decide), List.append_nil]
  have dropped : (blanks ++ (c :: cs ++ rest)).dropWhile isBlank = c :: (cs ++ rest) := by
    rw [List.dropWhile_append_of_pos hblanks, List.cons_append,
      List.dropWhile_cons_of_neg (by rw [hblank]; decide)]
  rw [scanFrom_cons dropped, Token.read_lexeme lexeme apart, kept]
  by_cases fits : t.Fits
  · simp only [if_pos fits, List.drop_left, List.length_cons]
    rw [show offset + blanks.length + 1 + cs.length = offset + blanks.length + (cs.length + 1) by omega]
  · simp only [if_neg fits]

theorem scanFrom_blanks {offset : Nat} {blanks rest : List Char} (hblanks : ∀ c ∈ blanks, isBlank c = true) :
    scanFrom offset (blanks ++ rest) = scanFrom (offset + blanks.length) rest := by
  have start : offset + ((blanks ++ rest).takeWhile isBlank).length =
      offset + blanks.length + (rest.takeWhile isBlank).length := by
    rw [List.takeWhile_append_of_pos hblanks, List.length_append, Nat.add_assoc]
  have later : (blanks ++ rest).dropWhile isBlank = rest.dropWhile isBlank := List.dropWhile_append_of_pos hblanks
  cases dropped : rest.dropWhile isBlank with
  | nil =>
    rw [dropped] at later
    rw [scanFrom_nil dropped, scanFrom_nil later, start]
  | cons c more =>
    rw [dropped] at later
    rw [scanFrom_cons dropped, scanFrom_cons later, start]

theorem fits_of_scanFrom {offset : Nat} {text : List Char} {tokens : List Placed}
    (h : scanFrom offset text = .ok tokens) : ∀ p ∈ tokens, p.token.Fits := by
  fun_induction scanFrom offset text generalizing tokens with
  | case1 =>
    cases h
    exact List.forall_mem_singleton.mpr trivial
  | case2 => cases h
  | case3 offset text start c rest dropped t more read =>
    rename_i ih
    cases others : scanFrom (start + 1 + more) (rest.drop more) with
    | error e => rw [others] at h; cases h
    | ok later =>
      rw [others] at h
      cases h
      exact List.forall_mem_cons.mpr ⟨Token.fits_of_read read, ih others⟩

theorem fits_of_scan {text : String} {tokens : List Placed} (h : scan text = .ok tokens) :
    ∀ p ∈ tokens, p.token.Fits := fits_of_scanFrom h

theorem count_die_of_scanFrom {offset : Nat} {text : List Char} {tokens : List Placed}
    (h : scanFrom offset text = .ok tokens) : (tokens.map Placed.token).count .die ≤ text.length := by
  fun_induction scanFrom offset text generalizing tokens with
  | case1 =>
    cases h
    exact Nat.zero_le _
  | case2 => cases h
  | case3 offset text start c rest dropped t more read =>
    rename_i ih
    cases others : scanFrom (start + 1 + more) (rest.drop more) with
    | error e => rw [others] at h; cases h
    | ok later =>
      rw [others] at h
      cases h
      have hlater := ih others
      have shorter := length_lt_of_dropWhile dropped
      rw [List.length_drop] at hlater
      rw [List.map_cons, List.count_cons]
      split <;> omega

/-- Each die letter takes a character. -/
theorem count_die_of_scan {text : String} {tokens : List Placed} (h : scan text = .ok tokens) :
    (tokens.map Placed.token).count .die ≤ text.length := by
  have := count_die_of_scanFrom h
  rwa [List.length_map, String.length_toList] at this

theorem finish_last_of_scanFrom {offset : Nat} {text : List Char} {tokens : List Placed}
    (h : scanFrom offset text = .ok tokens) : tokens.Pairwise fun p _ => p.token ≠ .finish := by
  fun_induction scanFrom offset text generalizing tokens with
  | case1 =>
    cases h
    exact List.pairwise_singleton _ _
  | case2 => cases h
  | case3 offset text start c rest dropped t more read =>
    rename_i ih
    cases others : scanFrom (start + 1 + more) (rest.drop more) with
    | error e => rw [others] at h; cases h
    | ok later =>
      rw [others] at h
      cases h
      refine List.pairwise_cons.mpr ⟨fun _ _ => ?_, ih others⟩
      rintro rfl
      exact (Token.lexeme_of_read read).1

/-- The end of the text is followed by no token. -/
theorem finish_last_of_scan {text : String} {tokens : List Placed} (h : scan text = .ok tokens) :
    tokens.Pairwise fun p _ => p.token ≠ .finish := finish_last_of_scanFrom h

/-- Words that can be written one after the other: no two numbers side by side, and no end of the text. -/
def Spaced : List Token → Prop
  | [] => True
  | t :: words => t ≠ .finish ∧ (t.isNumber = true → ∀ u ∈ words.head?, u.isNumber = false) ∧ Spaced words

theorem Token.isNumber_of_separates {t : Token} (h : t.separates = true) : t.isNumber = false := by
  cases t with
  | number n => cases h
  | _ => rfl

theorem Spaced.cons {t : Token} {words : List Token} (ht : t.separates = true) (h : Spaced words) :
    Spaced (t :: words) := by
  refine ⟨?_, fun hn => ?_, h⟩
  · rintro rfl
    cases ht
  · rw [Token.isNumber_of_separates ht] at hn
    cases hn

theorem Spaced.number (n : Nat) : Spaced [.number n] :=
  ⟨fun h => (by cases h), fun _ _ hu => (by cases hu), trivial⟩

/-- A word that is no number stands between other words. -/
theorem Spaced.append {t : Token} {words more : List Token} (ht : t.separates = true) (h : Spaced words)
    (hmore : Spaced (t :: more)) : Spaced (words ++ t :: more) := by
  induction words with
  | nil => exact hmore
  | cons u words ih =>
    obtain ⟨hfinish, hnext, hwords⟩ := h
    refine ⟨hfinish, fun hu => ?_, ih hwords⟩
    cases words with
    | nil =>
      rintro _ ⟨⟩
      exact Token.isNumber_of_separates ht
    | cons v words =>
      rintro _ ⟨⟩
      exact hnext hu v rfl

variable {words : List Token} {tokens : List Placed}

theorem apart_of_spaced {t : Token} (h : Spaced (t :: words)) :
    t.Apart ((spelled words).map Char.toLower) := by
  obtain ⟨-, hnext, hwords⟩ := h
  cases words with
  | nil => cases t <;> first | exact trivial | exact fun _ hc => (by cases hc)
  | cons u words =>
    rw [spelled_cons, List.map_append]
    exact Token.apart_of_lexeme (Token.lexeme_chars hwords.1) fun hn => hnext hn u rfl

theorem scanFrom_spaced {t : Token} (h : Spaced (t :: words)) (offset : Nat) :
    ∃ e, scanFrom offset ((spelled (t :: words)).map Char.toLower) =
      if t.Fits then
        (scanFrom (offset + t.chars.length) ((spelled words).map Char.toLower)).map (⟨offset, t⟩ :: ·)
      else .error e := by
  have noBlanks : ∀ c ∈ ([] : List Char), isBlank c = true := List.forall_mem_nil _
  have step := @scanFrom_lexeme t offset [] _ _ noBlanks (Token.lexeme_chars h.1) (apart_of_spaced h)
  rw [spelled_cons, List.map_append]
  simp only [List.nil_append, List.length_nil, Nat.add_zero, List.length_map] at step
  exact ⟨_, step⟩

/-- What is scanned from written words are these words. -/
theorem token_of_scanFrom (h : Spaced words) {offset : Nat}
    (scanned : scanFrom offset ((spelled words).map Char.toLower) = .ok tokens) :
    tokens.map Placed.token = words ++ [.finish] := by
  induction words generalizing offset tokens with
  | nil =>
    rw [spelled, List.flatMap_nil, List.map_nil, scanFrom_nil rfl] at scanned
    cases scanned
    rfl
  | cons t words ih =>
    obtain ⟨e, step⟩ := scanFrom_spaced h offset
    rw [step] at scanned
    split at scanned
    · cases others : scanFrom (offset + t.chars.length) ((spelled words).map Char.toLower) with
      | error e => rw [others] at scanned; cases scanned
      | ok later =>
        rw [others] at scanned
        cases scanned
        rw [List.map_cons, ih h.2.2 others]
        rfl
    · cases scanned

/-- Written words are scanned if their numbers fit. -/
theorem exists_scanFrom (h : Spaced words) (fits : ∀ t ∈ words, t.Fits) (offset : Nat) :
    ∃ tokens, scanFrom offset ((spelled words).map Char.toLower) = .ok tokens := by
  induction words generalizing offset with
  | nil => exact ⟨_, scanFrom_nil rfl⟩
  | cons t words ih =>
    obtain ⟨e, step⟩ := scanFrom_spaced h offset
    obtain ⟨later, hlater⟩ := ih h.2.2 (fun u hu => fits u (List.mem_cons_of_mem _ hu)) (offset + t.chars.length)
    rw [step, if_pos (fits t List.mem_cons_self), hlater]
    exact ⟨_, rfl⟩

theorem token_of_scan (h : Spaced words) (scanned : scan (String.ofList (spelled words)) = .ok tokens) :
    tokens.map Placed.token = words ++ [.finish] := by
  rw [scan, String.toList_ofList] at scanned
  exact token_of_scanFrom h scanned

theorem exists_scan (h : Spaced words) (fits : ∀ t ∈ words, t.Fits) :
    ∃ tokens, scan (String.ofList (spelled words)) = .ok tokens := by
  rw [scan, String.toList_ofList]
  exact exists_scanFrom h fits 0

/-- Words that are written alike are alike. -/
theorem words_injective {words' : List Token} (h : Spaced words) (h' : Spaced words')
    (fits : ∀ t ∈ words, t.Fits) (same : spelled words = spelled words') :
    words = words' := by
  obtain ⟨tokens, scanned⟩ := exists_scan h fits
  have hwords := token_of_scan h scanned
  rw [same] at scanned
  rw [token_of_scan h' scanned] at hwords
  exact (List.append_cancel_right hwords).symm

end DiceNotation
