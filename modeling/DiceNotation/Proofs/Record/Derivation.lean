import DiceNotation.Record

/-! The text of a derivation can be read back. A term ends at its closing parenthesis, which no numeral holds, so
    a sum of terms in parentheses is the text of one list of integers only. -/

namespace DiceNotation

namespace Numeral

theorem ofNat_injective {m n : Nat} (h : ofNat m = ofNat n) : m = n := by
  rw [← toNat_ofNat m, h, toNat_ofNat]

theorem ofInt_cases (n : Int) :
    (n < 0 ∧ ofInt n = '-' :: ofNat n.natAbs) ∨ (0 ≤ n ∧ ofInt n = ofNat n.natAbs) := by
  unfold ofInt
  split
  · next h => exact Or.inl ⟨h, rfl⟩
  · next h => exact Or.inr ⟨Int.not_lt.mp h, rfl⟩

theorem isDigit_or_minus {n : Int} {c : Char} (h : c ∈ ofInt n) : c.isDigit = true ∨ c = '-' := by
  rcases ofInt_cases n with ⟨-, heq⟩ | ⟨-, heq⟩
  · rw [heq] at h
    exact (List.mem_cons.mp h).symm.imp_left isDigit_of_mem_ofNat
  · rw [heq] at h
    exact Or.inl (isDigit_of_mem_ofNat h)

theorem minus_not_mem_ofNat (n : Nat) : '-' ∉ ofNat n := fun h => by
  have hdigit := isDigit_of_mem_ofNat h
  cases hdigit

theorem ofInt_injective {m n : Int} (h : ofInt m = ofInt n) : m = n := by
  rcases ofInt_cases m with ⟨hm, hm'⟩ | ⟨hm, hm'⟩ <;> rcases ofInt_cases n with ⟨hn, hn'⟩ | ⟨hn, hn'⟩ <;>
    rw [hm', hn'] at h
  · have := ofNat_injective (List.cons.inj h).2
    omega
  · exact absurd (h ▸ List.mem_cons_self) (minus_not_mem_ofNat _)
  · exact absurd (h ▸ List.mem_cons_self) (minus_not_mem_ofNat _)
  · have := ofNat_injective h
    omega

end Numeral

/-! ### Additions -/

/-- The text of integers in parentheses with plus signs between them. -/
def addition (ns : List Int) : List Char :=
  [' ', '+', ' '].intercalate (ns.map fun n => '(' :: Numeral.ofInt n ++ [')'])

/-- The text of the integers after the first one. -/
def furtherAddends (ns : List Int) : List Char :=
  ns.flatMap fun n => [' ', '+', ' ', '('] ++ (Numeral.ofInt n ++ [')'])

theorem addition_cons (n : Int) (ns : List Int) :
    addition (n :: ns) = '(' :: (Numeral.ofInt n ++ ')' :: furtherAddends ns) := by
  induction ns generalizing n with
  | nil => simp [addition, furtherAddends]
  | cons m ns ih =>
    have later := ih m
    simp only [addition, List.map_cons, List.intercalate_cons_cons] at later ⊢
    rw [List.append_assoc, later]
    simp [furtherAddends]

theorem takeWhile_numeral (n : Int) (rest : List Char) :
    (Numeral.ofInt n ++ ')' :: rest).takeWhile (· != ')') = Numeral.ofInt n := by
  have inside : ∀ c ∈ Numeral.ofInt n, (c != ')') = true := by
    intro c hc
    rw [bne_iff_ne]
    rintro rfl
    rcases Numeral.isDigit_or_minus hc with h | h <;> cases h
  rw [List.takeWhile_append_of_pos inside, List.takeWhile_cons_of_neg (by decide), List.append_nil]

/-- Up to the first closing parenthesis there is one numeral. -/
theorem numeral_inj {m n : Int} {rest rest' : List Char}
    (h : Numeral.ofInt m ++ ')' :: rest = Numeral.ofInt n ++ ')' :: rest') : m = n ∧ rest = rest' := by
  have hmn : m = n := by
    apply Numeral.ofInt_injective
    rw [← takeWhile_numeral m rest, h, takeWhile_numeral]
  subst hmn
  exact ⟨rfl, (List.cons.inj (List.append_cancel_left h)).2⟩

theorem furtherAddends_injective {ms ns : List Int} (h : furtherAddends ms = furtherAddends ns) : ms = ns := by
  induction ms generalizing ns with
  | nil =>
    cases ns with
    | nil => rfl
    | cons => cases h
  | cons m ms ih =>
    cases ns with
    | nil => cases h
    | cons n ns =>
      simp only [furtherAddends, List.flatMap_cons, List.append_assoc, List.append_cancel_left_eq,
        List.singleton_append] at h
      obtain ⟨rfl, hrest⟩ := numeral_inj h
      rw [ih hrest]

/-- An addition is the text of one list of integers only. -/
theorem addition_injective {ms ns : List Int} (h : addition ms = addition ns) : ms = ns := by
  cases ms with
  | nil =>
    cases ns with
    | nil => rfl
    | cons n ns =>
      rw [addition_cons] at h
      cases h
  | cons m ms =>
    cases ns with
    | nil =>
      rw [addition_cons] at h
      cases h
    | cons n ns =>
      rw [addition_cons, addition_cons] at h
      obtain ⟨rfl, hrest⟩ := numeral_inj (List.cons.inj h).2
      rw [furtherAddends_injective hrest]

/-- The text is the addition of these outcomes, and of no other integers. -/
def Adds (text : String) (terms : List Outcome) : Prop :=
  ∀ ns : List Int, text.toList = addition ns ↔ ns = terms.map Outcome.val

theorem adds_sum (terms : List Outcome) : Adds (Derivation.sum terms).text terms := by
  have hchars : (Derivation.sum terms).text.toList = addition (terms.map Outcome.val) := by
    rw [Derivation.text, String.toList_ofList, Derivation.chars, addition, List.map_map]
    rfl
  intro ns
  rw [hchars]
  exact ⟨fun h => (addition_injective h).symm, fun h => by rw [h]⟩

end DiceNotation
