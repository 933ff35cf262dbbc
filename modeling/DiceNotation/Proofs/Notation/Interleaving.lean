import DiceNotation.Proofs.Notation.Lexeme

/-! Texts as rows of tokens. The scanner accepts exactly the texts in which tokens stand in a row with blanks before,
    between and after them, where only two numbers side by side need a blank between them. It tells where each token
    starts. If it refuses a text, then at the first character after such a row that no token can start with. -/

namespace DiceNotation

/-! ### Capitals -/

theorem separate_of_letter {c : Char} (hl : 65 ≤ c.toNat) (hg : c.toNat ≤ 122) :
    isBlank c = false ∧ c.isDigit = false := by
  constructor
  · simp only [isBlank, Bool.or_eq_false_iff, Bool.and_eq_false_iff, decide_eq_false_iff_not, beq_eq_false_iff_ne]
    omega
  · refine Bool.eq_false_iff.mpr fun digit => ?_
    simp only [Char.isDigit, Bool.and_eq_true, decide_eq_true_eq] at digit
    have : c.toNat ≤ 57 := UInt32.le_iff_toNat_le.1 digit.2
    omega

/-- A capital and its small letter are neither blank nor a digit, and no other character changes. -/
theorem toLower_cases (c : Char) : c.toLower = c ∨
    (isBlank c = false ∧ c.isDigit = false) ∧ isBlank c.toLower = false ∧ c.toLower.isDigit = false := by
  unfold Char.toLower
  split
  · next h =>
    have hl : 65 ≤ c.toNat := UInt32.le_iff_toNat_le.1 h.1
    have hg : c.toNat ≤ 90 := UInt32.le_iff_toNat_le.1 h.2
    have lower : (c.val + ('a'.val - 'A'.val)).toNat = c.toNat + 32 := by
      rw [UInt32.toNat_add]
      show (c.toNat + 32) % 4294967296 = _
      omega
    refine .inr ⟨separate_of_letter hl (by omega), separate_of_letter ?_ ?_⟩
    · show 65 ≤ (c.val + ('a'.val - 'A'.val)).toNat
      omega
    · show (c.val + ('a'.val - 'A'.val)).toNat ≤ 122
      omega
  · exact .inl rfl

theorem isBlank_toLower (c : Char) : isBlank c.toLower = isBlank c := by
  obtain same | ⟨⟨h, -⟩, h', -⟩ := toLower_cases c
  · rw [same]
  · rw [h, h']

theorem isDigit_toLower (c : Char) : c.toLower.isDigit = c.isDigit := by
  obtain same | ⟨⟨-, h⟩, -, h'⟩ := toLower_cases c
  · rw [same]
  · rw [h, h']

theorem toLower_of_isBlank {c : Char} (h : isBlank c = true) : c.toLower = c := by
  obtain same | ⟨⟨other, -⟩, -⟩ := toLower_cases c
  · exact same
  · rw [h] at other
    cases other

theorem map_toLower_of_blank {chars : List Char} (h : ∀ c ∈ chars, isBlank c = true) :
    chars.map Char.toLower = chars :=
  (List.map_congr_left fun c hc => toLower_of_isBlank (h c hc)).trans (List.map_id _)

theorem map_toLower_of_digits {chars : List Char} (h : ∀ c ∈ chars, c.isDigit = true) :
    chars.map Char.toLower = chars :=
  (List.map_congr_left fun c hc => toLower_of_isDigit (h c hc)).trans (List.map_id _)

theorem blank_map_toLower {chars : List Char} :
    (∀ c ∈ chars.map Char.toLower, isBlank c = true) ↔ ∀ c ∈ chars, isBlank c = true := by
  simp only [List.forall_mem_map, isBlank_toLower]

theorem digits_map_toLower {chars : List Char} :
    (∀ c ∈ chars.map Char.toLower, c.isDigit = true) ↔ ∀ c ∈ chars, c.isDigit = true := by
  simp only [List.forall_mem_map, isDigit_toLower]

theorem isBlank_of_dropWhile {text rest : List Char} {c : Char} (h : text.dropWhile isBlank = c :: rest) :
    isBlank c = false := by
  have first := List.head?_dropWhile_not isBlank text
  rw [h] at first
  simpa using first

/-! ### Printed tokens -/

namespace Token
variable {t : Token} {chars rest : List Char}

/-- A token takes no more characters than there are. -/
theorem le_length_of_read {c : Char} {more : Nat} (h : read c rest = .ok (t, more)) : more ≤ rest.length := by
  unfold read at h
  split at h
  · simp only [readNumber] at h
    split at h
    · cases h
      exact (List.takeWhile_prefix _).length_le
    · cases h
  · split at h <;> cases h <;> simp

/-- The token can be written as these characters: a letter as a capital or as a small letter, a sign as it is, and a
    number in decimal digits, with zeros in front of it or without. -/
def WrittenAs : Token → List Char → Prop
  | number value, chars => chars ≠ [] ∧ (∀ c ∈ chars, c.isDigit = true) ∧ Numeral.toNat chars = value
  | finish, _ => False
  | t, chars => chars.map Char.toLower = t.chars.map Char.toLower

theorem lexeme_map_toLower : t.Lexeme (chars.map Char.toLower) ↔ t.WrittenAs chars := by
  cases t with
  | number value =>
    constructor
    · rintro ⟨some, digits, hvalue⟩
      rw [digits_map_toLower] at digits
      rw [map_toLower_of_digits digits] at some hvalue
      exact ⟨some, digits, hvalue⟩
    · rintro ⟨some, digits, hvalue⟩
      rw [map_toLower_of_digits digits]
      exact ⟨some, digits, hvalue⟩
  | _ => exact Iff.rfl

theorem WrittenAs.lexeme (h : t.WrittenAs chars) : t.Lexeme (chars.map Char.toLower) := lexeme_map_toLower.mpr h

/-- The first character of a written token is not blank, and it is a digit if the token is a number. -/
theorem WrittenAs.exists_cons (h : t.WrittenAs chars) :
    ∃ c cs, chars = c :: cs ∧ isBlank c = false ∧ (t.isNumber = true → c.isDigit = true) := by
  obtain ⟨_, _, heq, hblank, -⟩ := h.lexeme.exists_cons
  obtain ⟨c, cs, rfl, rfl, -⟩ := List.map_eq_cons_iff.mp heq
  refine ⟨c, cs, rfl, isBlank_toLower c ▸ hblank, fun number => ?_⟩
  cases t with
  | number value => exact h.2.1 c List.mem_cons_self
  | _ => cases number

theorem Aside.apart (h : Aside rest) : t.Apart rest := by
  cases t with
  | number value => exact fun c hc => (h c hc).1
  | die => exact fun c hc => (h c hc).2
  | _ => exact trivial

theorem Apart.head_not_digit (h : t.Apart (rest.map Char.toLower)) (number : t.isNumber = true) :
    ∀ c ∈ rest.head?, c.isDigit = false := by
  intro c hc
  obtain ⟨more, rfl⟩ := List.head?_eq_some_iff.mp hc
  cases t with
  | number value => exact (isDigit_toLower c).symm.trans (h _ rfl)
  | _ => cases number

theorem aside_of_blank (h : ∀ c ∈ rest.head?, isBlank c = true) : Aside rest := by
  intro c hc
  have blank := h c hc
  refine ⟨Bool.eq_false_iff.mpr fun digit => ?_, ?_, ?_⟩
  · rw [isBlank_eq_false_of_isDigit digit] at blank
    cases blank
  · rintro rfl
    cases blank
  · rintro rfl
    cases blank

end Token

/-- A token as a text has it: some blanks, and the characters that it is written as. -/
structure Printed where
  blanks : List Char
  token : Token
  chars : List Char
  blank : ∀ c ∈ blanks, isBlank c = true
  written : token.WrittenAs chars

namespace Printed
variable {p : Printed} {ps : List Printed} {blanks chars rest : List Char} {start : Nat}

def text (p : Printed) : List Char := p.blanks ++ p.chars

/-- The characters of a row of tokens. -/
def textAll (ps : List Printed) : List Char := ps.flatMap text

/-- Each token at the offset of its first character, in a text that starts at the given offset. -/
def place (start : Nat) : List Printed → List Placed
  | [] => []
  | p :: ps => ⟨start + p.blanks.length, p.token⟩ :: place (start + p.text.length) ps

/-- Two numbers side by side have a blank between them. -/
def Apart : List Printed → Prop
  | [] => True
  | p :: ps => (p.token.isNumber = true → ∀ q ∈ ps.head?, q.token.isNumber = true → q.blanks ≠ []) ∧ Apart ps

/-- A row of tokens that the scanner can take: its numbers are apart, and each of them fits. -/
def Legible (ps : List Printed) : Prop := Apart ps ∧ ∀ p ∈ ps, p.token.Fits

theorem textAll_cons (p : Printed) (ps : List Printed) : textAll (p :: ps) = p.text ++ textAll ps := List.flatMap_cons

theorem textAll_append (ps qs : List Printed) : textAll (ps ++ qs) = textAll ps ++ textAll qs := List.flatMap_append

theorem map_token_place (start : Nat) (ps : List Printed) :
    (place start ps).map Placed.token = ps.map token := by
  induction ps generalizing start with
  | nil => rfl
  | cons p ps ih => rw [place, List.map_cons, List.map_cons, ih]

theorem length_text_pos (p : Printed) : p.blanks.length < p.text.length := by
  obtain ⟨_, _, heq, -⟩ := p.written.exists_cons
  rw [text, List.length_append, heq, List.length_cons]
  omega

/-! ### Scanning a row -/

/-- What comes after a token of a row is not taken into it. -/
theorem Apart.token_apart (h : Apart (p :: ps)) (blank : ∀ c ∈ blanks, isBlank c = true) :
    p.token.Apart ((textAll ps ++ blanks).map Char.toLower) := by
  have beside : ∀ {chars : List Char}, (∀ c ∈ chars.head?, isBlank c = true) →
      p.token.Apart (chars.map Char.toLower) := fun first => by
    refine (Token.aside_of_blank fun c hc => ?_).apart
    obtain ⟨more, hmore⟩ := List.head?_eq_some_iff.mp hc
    obtain ⟨c, _, rfl, rfl, -⟩ := List.map_eq_cons_iff.mp hmore
    exact (isBlank_toLower c).trans (first c rfl)
  cases ps with
  | nil => exact beside fun c hc => blank c (List.mem_of_mem_head? hc)
  | cons q ps =>
    rw [textAll_cons, text, List.append_assoc, List.append_assoc]
    cases hblanks : q.blanks with
    | nil =>
      rw [List.nil_append, List.map_append]
      exact Token.apart_of_lexeme q.written.lexeme fun hp => Bool.eq_false_iff.mpr fun hq => h.1 hp q rfl hq hblanks
    | cons c more =>
      refine beside ?_
      rintro _ ⟨⟩
      exact q.blank c (hblanks ▸ List.mem_cons_self)

/-- The first token of a row is scanned, unless it is a number that does not fit. -/
theorem scanFrom_cons_printed (apart : Apart (p :: ps)) (blank : ∀ c ∈ blanks, isBlank c = true) (start : Nat) :
    scanFrom start ((textAll (p :: ps) ++ blanks).map Char.toLower) =
      if p.token.Fits then
        (scanFrom (start + p.text.length) ((textAll ps ++ blanks).map Char.toLower)).map
          (⟨start + p.blanks.length, p.token⟩ :: ·)
      else .error (.malformed (start + p.blanks.length) (.numberTooLarge (p.chars.map Char.toLower))) := by
  have step := @scanFrom_lexeme p.token start _ _ _ p.blank p.written.lexeme (apart.token_apart blank)
  rw [textAll_cons, text, List.append_assoc, List.append_assoc, List.map_append, List.map_append,
    map_toLower_of_blank p.blank, step, List.length_map, List.length_append, Nat.add_assoc]

/-- A row of tokens is scanned as these tokens. -/
theorem scanFrom_printed (legible : Legible ps) (blank : ∀ c ∈ blanks, isBlank c = true) (start : Nat) :
    scanFrom start ((textAll ps ++ blanks).map Char.toLower) =
      .ok (place start ps ++ [⟨start + (textAll ps ++ blanks).length, .finish⟩]) := by
  obtain ⟨apart, fits⟩ := legible
  induction ps generalizing start with
  | nil =>
    have ended := (@scanFrom_blanks start blanks [] blank).trans (scanFrom_nil rfl)
    rw [List.append_nil] at ended
    rw [textAll, List.flatMap_nil, List.nil_append, map_toLower_of_blank blank, ended]
    rfl
  | cons p ps ih =>
    obtain ⟨hp, hps⟩ := List.forall_mem_cons.mp fits
    rw [scanFrom_cons_printed apart blank, if_pos hp, ih _ apart.2 hps]
    simp only [Except.map, place, textAll_cons, List.cons_append, List.length_append, Nat.add_assoc]

/-- The first number of a row that does not fit is refused. -/
theorem scanFrom_unfit (apart : Apart ps) (blank : ∀ c ∈ blanks, isBlank c = true) (unfit : ∃ p ∈ ps, ¬p.token.Fits)
    (start : Nat) : ∃ before p after, ps = before ++ p :: after ∧ ¬p.token.Fits ∧
      scanFrom start ((textAll ps ++ blanks).map Char.toLower) =
        .error (.malformed (start + (textAll before ++ p.blanks).length)
          (.numberTooLarge (p.chars.map Char.toLower))) := by
  induction ps generalizing start with
  | nil => obtain ⟨_, none, -⟩ := unfit; cases none
  | cons p ps ih =>
    by_cases fits : p.token.Fits
    · obtain ⟨q, hq, hunfit⟩ := unfit
      have later : q ∈ ps := (List.mem_cons.mp hq).resolve_left fun heq => hunfit (heq ▸ fits)
      obtain ⟨before, r, after, rfl, hr, scanned⟩ := ih apart.2 ⟨q, later, hunfit⟩ (start + p.text.length)
      refine ⟨p :: before, r, after, rfl, hr, ?_⟩
      rw [scanFrom_cons_printed apart blank, if_pos fits, scanned, textAll_cons]
      simp only [Except.map, List.append_assoc, List.length_append, Nat.add_assoc]
    · exact ⟨[], p, ps, rfl, fits, by rw [scanFrom_cons_printed apart blank, if_neg fits]; rfl⟩

/-! ### What the scanner makes of a text -/

/-- What scanning makes of a text that starts at an offset. It takes a row of tokens and the blanks after it, and ends
    there, or refuses the character that comes next. -/
inductive Scanned (start : Nat) (chars : List Char) : Except Error (List Placed) → Prop
  | done {ps : List Printed} {blanks : List Char} (legible : Legible ps) (blank : ∀ c ∈ blanks, isBlank c = true)
      (split : chars = textAll ps ++ blanks) :
      Scanned start chars (.ok (place start ps ++ [⟨start + chars.length, .finish⟩]))
  | stuck {ps : List Printed} {blanks rest : List Char} {c : Char} (fault : Fault) (legible : Legible ps)
      (blank : ∀ c ∈ blanks, isBlank c = true) (inked : isBlank c = false)
      (split : chars = textAll ps ++ blanks ++ c :: rest) :
      Scanned start chars (.error (.malformed (start + (textAll ps ++ blanks).length) fault))

/-- A number is not followed by a digit of the next token. -/
theorem Legible.cons (h : Legible ps) (fits : p.token.Fits)
    (next : p.token.isNumber = true → ∀ c ∈ (textAll ps ++ rest).head?, c.isDigit = false) : Legible (p :: ps) := by
  refine ⟨⟨fun hp q hq number none => ?_, h.1⟩, List.forall_mem_cons.mpr ⟨fits, h.2⟩⟩
  obtain ⟨ps, rfl⟩ := List.head?_eq_some_iff.mp hq
  obtain ⟨c, cs, heq, -, digit⟩ := q.written.exists_cons
  have first : c ∈ (textAll (q :: ps) ++ rest).head? := by
    rw [textAll_cons, text, none, heq]
    rfl
  rw [next hp c first] at digit
  cases digit number

theorem Scanned.cons {result : Except Error (List Placed)} (h : Scanned (start + p.text.length) rest result)
    (fits : p.token.Fits) (next : p.token.isNumber = true → ∀ c ∈ rest.head?, c.isDigit = false) :
    Scanned start (p.text ++ rest) (result.map (⟨start + p.blanks.length, p.token⟩ :: ·)) := by
  cases h with
  | @done ps blanks legible blank split =>
    subst split
    have row := @done start (p.text ++ (textAll ps ++ blanks)) (p :: ps) blanks (legible.cons fits next) blank
      (by rw [textAll_cons, List.append_assoc])
    rwa [place, List.cons_append, List.length_append, ← Nat.add_assoc] at row
  | @stuck ps blanks after c fault legible blank inked split =>
    subst split
    have later := next
    rw [List.append_assoc] at later
    have row := @stuck start (p.text ++ (textAll ps ++ blanks ++ c :: after)) (p :: ps) blanks after c fault
      (legible.cons fits later) blank inked (by simp only [textAll_cons, List.append_assoc])
    rwa [textAll_cons, List.append_assoc p.text, List.length_append, ← Nat.add_assoc] at row

/-- The blanks at the front of a text are those of the text in small letters. -/
theorem exists_blanks (chars : List Char) : ∃ blanks more, chars = blanks ++ more ∧ (∀ c ∈ blanks, isBlank c = true) ∧
    ((chars.map Char.toLower).takeWhile isBlank).length = blanks.length ∧
      (chars.map Char.toLower).dropWhile isBlank = more.map Char.toLower := by
  have split := List.takeWhile_append_dropWhile (p := isBlank) (l := chars.map Char.toLower)
  obtain ⟨blanks, more, rfl, hblanks, hmore⟩ := List.map_eq_append_iff.mp split.symm
  refine ⟨blanks, more, rfl, blank_map_toLower.mp ?_, ?_, hmore.symm⟩
  · rw [hblanks]
    exact List.all_eq_true.mp List.all_takeWhile
  · rw [← hblanks, List.length_map]

/-- Every text is scanned in this way. -/
theorem scanned (start : Nat) (chars : List Char) : Scanned start chars (scanFrom start (chars.map Char.toLower)) := by
  generalize hlower : chars.map Char.toLower = lower
  have none : Legible [] := ⟨trivial, List.forall_mem_nil _⟩
  fun_induction scanFrom start lower generalizing chars with
  | case1 start lower first dropped =>
    obtain ⟨blanks, more, rfl, blank, hlength, hmore⟩ := exists_blanks chars
    rw [hlower] at hlength hmore
    have hfirst : first = start + blanks.length := congrArg (start + ·) hlength
    obtain rfl := List.map_eq_nil_iff.mp (hmore.symm.trans dropped)
    rw [List.append_nil, hfirst]
    exact .done none blank rfl
  | case2 start lower first c rest dropped fault read =>
    obtain ⟨blanks, more, rfl, blank, hlength, hmore⟩ := exists_blanks chars
    rw [hlower] at hlength hmore
    have hfirst : first = start + blanks.length := congrArg (start + ·) hlength
    obtain ⟨d, after, rfl, rfl, -⟩ := List.map_eq_cons_iff.mp (hmore.symm.trans dropped)
    rw [hfirst]
    have inked : isBlank d = false := (isBlank_toLower d).symm.trans (isBlank_of_dropWhile dropped)
    exact .stuck fault none blank inked rfl
  | case3 start lower first c rest dropped t taken read ih =>
    obtain ⟨blanks, more, rfl, blank, hlength, hmore⟩ := exists_blanks chars
    rw [hlower] at hlength hmore
    have hfirst : first = start + blanks.length := congrArg (start + ·) hlength
    obtain ⟨lexeme, apart⟩ := Token.lexeme_of_read read
    -- What comes after the blanks is the lexeme of the token and the text that is scanned next.
    rw [dropped, ← List.take_append_drop taken rest, ← List.cons_append] at hmore
    obtain ⟨inked, after, rfl, hinked, hafter⟩ := List.map_eq_append_iff.mp hmore.symm
    rw [← hinked, Token.lexeme_map_toLower] at lexeme
    rw [← hafter] at apart
    have length : inked.length = taken + 1 := by
      have := congrArg List.length hinked
      rwa [List.length_map, List.length_cons, List.length_take_of_le (Token.le_length_of_read read)] at this
    let p : Printed := ⟨blanks, t, inked, blank, lexeme⟩
    have hnext : first + 1 + taken = start + p.text.length := by
      show _ = start + (blanks ++ inked).length
      rw [List.length_append, length, hfirst]
      omega
    have later := ih after hafter
    rw [hnext] at later ⊢
    rw [hfirst, ← List.append_assoc]
    exact Scanned.cons (p := p) later (Token.fits_of_read read) apart.head_not_digit

end Printed

/-! ### Texts that are scanned -/

/-- A text is a row of tokens with blanks before, between and after them. Its numbers fit and are apart, each token is
    placed at the offset where its characters start, and the end of the text at the number of all characters. -/
def Interleaves (text : String) (tokens : List Placed) : Prop :=
  ∃ ps blanks, Printed.Legible ps ∧ (∀ c ∈ blanks, isBlank c = true) ∧ text.toList = Printed.textAll ps ++ blanks ∧
    tokens = Printed.place 0 ps ++ [⟨text.length, .finish⟩]

theorem scan_of_interleaves {text : String} {tokens : List Placed} (h : Interleaves text tokens) :
    scan text = .ok tokens := by
  obtain ⟨ps, blanks, legible, blank, split, rfl⟩ := h
  rw [scan, split, Printed.scanFrom_printed legible blank, ← split, String.length_toList, Nat.zero_add]

theorem interleaves_of_scan {text : String} {tokens : List Placed} (h : scan text = .ok tokens) :
    Interleaves text tokens := by
  have scanned := Printed.scanned 0 text.toList
  rw [show scanFrom 0 (text.toList.map Char.toLower) = .ok tokens from h] at scanned
  cases scanned with
  | @done ps blanks legible blank split =>
    rw [Nat.zero_add, String.length_toList]
    exact ⟨ps, blanks, legible, blank, split, rfl⟩

/-- The offsets of a row lie within it and increase. -/
theorem Printed.increasing (start : Nat) (ps : List Printed) :
    ((place start ps).map Placed.offset).Pairwise (· < ·) ∧
      ∀ offset ∈ (place start ps).map Placed.offset, start ≤ offset ∧ offset < start + (textAll ps).length := by
  induction ps generalizing start with
  | nil => exact ⟨.nil, List.forall_mem_nil _⟩
  | cons p ps ih =>
    obtain ⟨pairwise, within⟩ := ih (start + p.text.length)
    have hp := p.length_text_pos
    rw [place, List.map_cons, textAll_cons, List.length_append]
    refine ⟨List.pairwise_cons.mpr ⟨fun offset hoffset => ?_, pairwise⟩,
      List.forall_mem_cons.mpr ⟨?_, fun offset hoffset => ?_⟩⟩
    · have := (within offset hoffset).1
      show start + p.blanks.length < offset
      omega
    · show start ≤ start + p.blanks.length ∧ start + p.blanks.length < _
      omega
    · have := within offset hoffset
      omega

theorem increasing_of_interleaves {text : String} {tokens : List Placed} (h : Interleaves text tokens) :
    (tokens.map Placed.offset).Pairwise (· < ·) := by
  obtain ⟨ps, blanks, -, -, split, rfl⟩ := h
  obtain ⟨pairwise, within⟩ := Printed.increasing 0 ps
  rw [List.map_append]
  refine List.pairwise_append.mpr ⟨pairwise, List.pairwise_singleton _ _, fun offset hoffset last hlast => ?_⟩
  obtain rfl := List.mem_singleton.mp hlast
  have := (within offset hoffset).2
  have length := congrArg List.length split
  rw [String.length_toList, List.length_append] at length
  show offset < text.length
  omega

/-- A text is scanned as some tokens exactly if it is a row of these tokens, written in letters of either case and in
    digits with any zeros in front, with blanks between them, and the tokens are placed where their characters start.
    The offsets increase, and the last one is that of the end of the text. -/
theorem scan_iff_interleaves (text : String) (tokens : List Placed) :
    (scan text = .ok tokens ↔ Interleaves text tokens) ∧
      (scan text = .ok tokens → (tokens.map Placed.offset).Pairwise (· < ·)) :=
  ⟨⟨interleaves_of_scan, scan_of_interleaves⟩, fun h => increasing_of_interleaves (interleaves_of_scan h)⟩

/-! ### Words of a text -/

/-- A text writes these words: they stand in it in a row, in letters of either case and in digits with any zeros in
    front, with blanks before, between and after them. A number may be too large for a notation. -/
def Writes (text : String) (words : List Token) : Prop :=
  ∃ ps blanks, Printed.Apart ps ∧ (∀ c ∈ blanks, isBlank c = true) ∧ text.toList = Printed.textAll ps ++ blanks ∧
    ps.map Printed.token = words

section
variable {text : String} {words : List Token}

/-- A text that writes words whose numbers fit is scanned as these words. -/
theorem scan_of_writes (h : Writes text words) (fits : ∀ t ∈ words, t.Fits) :
    ∃ tokens, scan text = .ok tokens ∧ tokens.map Placed.token = words ++ [.finish] := by
  obtain ⟨ps, blanks, apart, blank, split, rfl⟩ := h
  have scanned := Printed.scanFrom_printed ⟨apart, List.forall_mem_map.mp fits⟩ blank 0
  rw [← split] at scanned
  exact ⟨_, scanned, by rw [List.map_append, Printed.map_token_place]; rfl⟩

theorem writes_of_scan {tokens : List Placed} (h : scan text = .ok tokens)
    (hwords : tokens.map Placed.token = words ++ [.finish]) : Writes text words := by
  obtain ⟨ps, blanks, ⟨apart, -⟩, blank, split, rfl⟩ := interleaves_of_scan h
  rw [List.map_append, Printed.map_token_place] at hwords
  exact ⟨ps, blanks, apart, blank, split, List.append_cancel_right hwords⟩

/-- Words that no number stands beside a number in have a text. -/
theorem writes_spelled (h : Spaced words) : Writes (String.ofList (spelled words)) words := by
  suffices ∃ ps, Printed.Apart ps ∧ Printed.textAll ps = spelled words ∧ ps.map Printed.token = words by
    obtain ⟨ps, apart, htext, hwords⟩ := this
    exact ⟨ps, [], apart, List.forall_mem_nil _, by rw [String.toList_ofList, htext, List.append_nil], hwords⟩
  induction words with
  | nil => exact ⟨[], trivial, rfl, rfl⟩
  | cons t words ih =>
    obtain ⟨inner, next, later⟩ := h
    obtain ⟨ps, apart, htext, rfl⟩ := ih later
    have written : t.WrittenAs t.chars := Token.lexeme_map_toLower.mp (Token.lexeme_chars inner)
    refine ⟨⟨[], t, t.chars, List.forall_mem_nil _, written⟩ :: ps, ⟨fun number q hq other => ?_, apart⟩, ?_, rfl⟩
    · have beside := next number q.token (by rw [List.head?_map]; exact Option.mem_map_of_mem _ hq)
      rw [other] at beside
      cases beside
    · rw [Printed.textAll_cons, htext, spelled_cons]
      rfl

/-- A text that writes a number that does not fit is refused where the first such number stands. -/
theorem scan_of_unfit (h : Writes text words) (unfit : ∃ t ∈ words, ¬t.Fits) :
    ∃ t ∈ words, ¬t.Fits ∧ ∃ before digits after, t.WrittenAs digits ∧ text.toList = before ++ digits ++ after ∧
      scan text = .error (.malformed before.length (.numberTooLarge digits)) := by
  obtain ⟨ps, blanks, apart, blank, split, rfl⟩ := h
  obtain ⟨_, hmem, hunfit⟩ := unfit
  obtain ⟨p, hp, rfl⟩ := List.mem_map.mp hmem
  obtain ⟨before, q, after, rfl, hq, scanned⟩ := Printed.scanFrom_unfit apart blank ⟨p, hp, hunfit⟩ 0
  have digits : ∀ c ∈ q.chars, c.isDigit = true := by
    have written := q.written
    cases ht : q.token with
    | number value => rw [ht] at written; exact written.2.1
    | _ => rw [ht] at hq; exact absurd trivial hq
  rw [← split, map_toLower_of_digits digits, Nat.zero_add] at scanned
  refine ⟨q.token, List.mem_map_of_mem (List.mem_append_right _ List.mem_cons_self), hq,
    Printed.textAll before ++ q.blanks, q.chars, Printed.textAll after ++ blanks, q.written, ?_, scanned⟩
  rw [split, Printed.textAll_append, Printed.textAll_cons, Printed.text]
  simp only [List.append_assoc]

end

end DiceNotation
