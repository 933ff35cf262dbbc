import DiceNotation.Outcome

/-! Text: which characters are blank, how numbers are written and read, and when a text must be put in parentheses.
    A number is written in the fewest digits, with a minus sign in front when it is negative; a run of digits is read
    in any length, so leading zeros count for nothing. -/

namespace DiceNotation

/-! ### Blanks -/

/-- A character is blank if it has the property White_Space. Of the 25 characters that have it, core's
    `Char.isWhitespace` knows four. -/
def isBlank (c : Char) : Bool :=
  (0x09 ≤ c.toNat && c.toNat ≤ 0x0D) || c.toNat == 0x20 || c.toNat == 0x85 || c.toNat == 0xA0 ||
    c.toNat == 0x1680 || (0x2000 ≤ c.toNat && c.toNat ≤ 0x200A) || c.toNat == 0x2028 ||
    c.toNat == 0x2029 || c.toNat == 0x202F || c.toNat == 0x205F || c.toNat == 0x3000

theorem isBlank_eq_false_of_isDigit {c : Char} (h : c.isDigit = true) : isBlank c = false := by
  have hl : 48 ≤ c.toNat := by
    simp only [Char.isDigit, Bool.and_eq_true, decide_eq_true_eq] at h
    exact UInt32.le_iff_toNat_le.1 h.1
  have hg : c.toNat ≤ 57 := by
    simp only [Char.isDigit, Bool.and_eq_true, decide_eq_true_eq] at h
    exact UInt32.le_iff_toNat_le.1 h.2
  simp only [isBlank, Bool.or_eq_false_iff, Bool.and_eq_false_iff, decide_eq_false_iff_not, beq_eq_false_iff_ne]
  omega

/-! ### Numerals -/

namespace Numeral

/-- The decimal digits of a natural number. -/
def ofNat (n : Nat) : List Char := Nat.toDigits 10 n

/-- The numeral of an integer. -/
def ofInt (n : Int) : List Char :=
  if n < 0 then '-' :: ofNat n.natAbs else ofNat n.natAbs

/-- The number that a run of decimal digits stands for. -/
def toNat (digits : List Char) : Nat := Nat.ofDigitChars 10 digits 0

@[simp] theorem toNat_ofNat (n : Nat) : toNat (ofNat n) = n := Nat.ofDigitChars_ten_toDigits

theorem isDigit_of_mem_ofNat {n : Nat} {c : Char} (h : c ∈ ofNat n) : c.isDigit = true :=
  Nat.isDigit_of_mem_toDigits (b := 10) (by decide) (by decide) h

theorem ofNat_ne_nil (n : Nat) : ofNat n ≠ [] := Nat.toDigits_ne_nil

end Numeral

namespace Outcome

def chars (a : Outcome) : List Char := Numeral.ofInt a.val

def text (a : Outcome) : String := String.ofList a.chars

end Outcome

/-! ### Parentheses

A text with a `+` outside every bracket must be wrapped before something is attached to it. The depth of brackets is
read off the text alone and never falls below zero, so it is defined for unbalanced texts too. -/

namespace Wrap

/-- A bracket of either kind opens. -/
def opens (c : Char) : Bool := c == '(' || c == '['

def closes (c : Char) : Bool := c == ')' || c == ']'

/-- The depth after a character; a bracket that closes nothing leaves it at zero. -/
def step (depth : Nat) (c : Char) : Nat :=
  if opens c then depth + 1 else if closes c then depth - 1 else depth

/-- Whether a `+` stands at depth zero when reading starts at the given depth. -/
def plusAt : Nat → List Char → Bool
  | _, [] => false
  | depth, c :: rest => (c == '+' && depth == 0) || plusAt (step depth c) rest

/-- Whether a text holds a `+` outside all of its brackets. -/
def hasPlus (text : List Char) : Bool := plusAt 0 text

/-- The text in parentheses if it holds a `+` outside all of its brackets, and the text alone if not. -/
def wrap (text : List Char) : List Char :=
  if hasPlus text then '(' :: text ++ [')'] else text

theorem wrap_of_hasPlus {text : List Char} (h : hasPlus text = true) : wrap text = '(' :: text ++ [')'] := by
  simp [wrap, h]

theorem wrap_of_not_hasPlus {text : List Char} (h : hasPlus text = false) : wrap text = text := by
  simp [wrap, h]

/-- The depth after a text. -/
def depthAfter (depth : Nat) (text : List Char) : Nat := text.foldl step depth

theorem plusAt_append (depth : Nat) (a b : List Char) :
    plusAt depth (a ++ b) = (plusAt depth a || plusAt (depthAfter depth a) b) := by
  induction a generalizing depth with
  | nil => simp [plusAt, depthAfter]
  | cons c a ih => simp [plusAt, depthAfter, ih, Bool.or_assoc]

end Wrap

end DiceNotation
