import DiceNotation.Error
import DiceNotation.Text

/-! Scanning: from the characters of a notation to its placed tokens. Capitals count as small letters.
    Blanks separate tokens and are dropped; a token takes the longest lexeme at its place, so `dh` is a
    selector and never a die. `scanFrom` is the whole scanner; `scanFrom_nil` and `scanFrom_cons` unfold it. -/

namespace DiceNotation

namespace Token

/-- The largest number that a notation can hold. -/
def greatestNumber : Nat := 9223372036854775807

/-- A token that starts with a digit: the number of the digits there. -/
def readNumber (c : Char) (rest : List Char) : Except Fault (Token × Nat) :=
  let digits := rest.takeWhile Char.isDigit
  let value := Numeral.toNat (c :: digits)
  if value ≤ greatestNumber then .ok (number value, digits.length) else .error (.numberTooLarge (c :: digits))

/-- The token at a character that is not blank, and how many characters it takes after that one. -/
def read (c : Char) (rest : List Char) : Except Fault (Token × Nat) :=
  if c.isDigit then readNumber c rest
  else match c, rest with
    | 'd', 'h' :: _ => .ok (selector .dropHighest, 1)
    | 'd', 'l' :: _ => .ok (selector .dropLowest, 1)
    | 'd', _ => .ok (die, 0)
    | 'k', 'h' :: _ => .ok (selector .keepHighest, 1)
    | 'k', 'l' :: _ => .ok (selector .keepLowest, 1)
    | 'k', _ => .error .halfKeepTag
    | 'f', _ => .ok (fudge, 0)
    | '%', _ => .ok (percent, 0)
    | '[', _ => .ok (openFaces, 0)
    | ']', _ => .ok (closeFaces, 0)
    | ',', _ => .ok (comma, 0)
    | '+', _ => .ok (operator .add, 0)
    | '-', _ => .ok (operator .subtract, 0)
    | '*', _ => .ok (operator .multiply, 0)
    | '/', _ => .ok (operator .divide, 0)
    | '^', _ => .ok (operator .power, 0)
    | '(', _ => .ok (openGroup, 0)
    | ')', _ => .ok (closeGroup, 0)
    | '!', _ => .ok (bang, 0)
    | '=', _ => .ok (comparison .equals, 0)
    | '>', _ => .ok (comparison .greater, 0)
    | '<', _ => .ok (comparison .lesser, 0)
    | c, _ => .error (.strayCharacter c)

end Token

theorem length_lt_of_dropWhile {p : Char → Bool} {text rest : List Char} {c : Char}
    (h : text.dropWhile p = c :: rest) : rest.length < text.length := by
  have hle := (List.dropWhile_suffix p (l := text)).length_le
  rw [h, List.length_cons] at hle
  omega

/-- The tokens of a text in small letters that starts at the given offset. -/
def scanFrom (offset : Nat) (text : List Char) : Except Error (List Placed) :=
  let start := offset + (text.takeWhile isBlank).length
  match _h : text.dropWhile isBlank with
  | [] => .ok [⟨start, .finish⟩]
  | c :: rest =>
    match Token.read c rest with
    | .error fault => .error (.malformed start fault)
    | .ok (token, more) => (scanFrom (start + 1 + more) (rest.drop more)).map (⟨start, token⟩ :: ·)
termination_by text.length
decreasing_by
  have shorter := length_lt_of_dropWhile _h
  rw [List.length_drop]
  omega

def scan (text : String) : Except Error (List Placed) := scanFrom 0 (text.toList.map Char.toLower)

/-! ### Unfolding -/

theorem scanFrom_nil {offset : Nat} {text : List Char} (h : text.dropWhile isBlank = []) :
    scanFrom offset text = .ok [⟨offset + (text.takeWhile isBlank).length, .finish⟩] := by
  rw [scanFrom]
  split
  · rfl
  · next h' => rw [h] at h'; cases h'

theorem scanFrom_cons {offset : Nat} {text rest : List Char} {c : Char}
    (h : text.dropWhile isBlank = c :: rest) :
    scanFrom offset text =
      match Token.read c rest with
      | .error fault => .error (.malformed (offset + (text.takeWhile isBlank).length) fault)
      | .ok (token, more) =>
        (scanFrom (offset + (text.takeWhile isBlank).length + 1 + more) (rest.drop more)).map
          (⟨offset + (text.takeWhile isBlank).length, token⟩ :: ·) := by
  rw [scanFrom]
  split
  · next h' => rw [h] at h'; cases h'
  · next h' => rw [h] at h'; cases h'; rfl

end DiceNotation
