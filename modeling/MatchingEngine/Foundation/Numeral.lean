import Mathlib.Data.Int.Notation
import Mathlib.Data.List.TakeWhile

/-!
# Numerals

An integer is read from the start of a text: white space, perhaps a sign, and as many digits as
follow. What comes after the digits is not looked at, and a text without a digit there has no
integer to read.
-/

namespace MatchingEngine

/-- White space. -/
def isSpace (c : Char) : Bool := c.toNat == 32 || (9 ≤ c.toNat && c.toNat ≤ 13)

/-- A text starts with a numeral: there is a digit after white space and perhaps a sign. -/
def StartsWithNumeral (text : List Char) : Prop :=
  ∃ (spaces sign : List Char) (digit : Char) (rest : List Char), (∀ c ∈ spaces, isSpace c = true) ∧
    (sign = [] ∨ sign = ['+'] ∨ sign = ['-']) ∧ digit.isDigit = true ∧ text = spaces ++ (sign ++ digit :: rest)

/-- The text after a sign, if there is one. -/
def dropSign (text : List Char) : List Char :=
  if text.head? = some '+' ∨ text.head? = some '-' then text.tail else text

/-- The digits at the start of a text. -/
def leadingDigits (text : List Char) : List Char := (dropSign (text.dropWhile isSpace)).takeWhile Char.isDigit

/-- The integer at the start of a text. -/
def leadingInt (text : List Char) : Option ℤ :=
  if leadingDigits text = [] then none
  else if (text.dropWhile isSpace).head? = some '-' then some (-(Nat.ofDigitChars 10 (leadingDigits text) 0 : ℤ))
  else some (Nat.ofDigitChars 10 (leadingDigits text) 0)

/-- The decimal numeral of an integer. -/
def numeral : ℤ → List Char
  | .ofNat n => Nat.toDigits 10 n
  | .negSucc n => '-' :: Nat.toDigits 10 (n + 1)

variable {text spaces : List Char} {digit : Char}

/-- Digits are no white space. -/
theorem isSpace_of_isDigit (hdigit : digit.isDigit = true) : isSpace digit = false := by
  have hrange := Char.isDigit_iff_toNat.mp hdigit
  simp only [isSpace, Bool.or_eq_false_iff, beq_eq_false_iff_ne, Bool.and_eq_false_iff, decide_eq_false_iff_not]
  change 48 ≤ digit.toNat ∧ digit.toNat ≤ 57 at hrange
  omega

/-- A digit is no sign. -/
theorem dropSign_of_isDigit (hdigit : digit.isDigit = true) (rest : List Char) :
    dropSign (digit :: rest) = digit :: rest := by
  refine if_neg fun hsign => ?_
  simp only [List.head?_cons, Option.some.injEq] at hsign
  obtain rfl | rfl := hsign <;> cases hdigit

/-- White space in front is skipped. -/
theorem dropWhile_isSpace (hspaces : ∀ c ∈ spaces, isSpace c = true) {sign : List Char}
    (hsign : sign = [] ∨ sign = ['+'] ∨ sign = ['-']) (hdigit : digit.isDigit = true) (rest : List Char) :
    (spaces ++ (sign ++ digit :: rest)).dropWhile isSpace = sign ++ digit :: rest := by
  rw [List.dropWhile_append_of_pos hspaces]
  obtain rfl | rfl | rfl := hsign
  · exact List.dropWhile_cons_of_neg (by simp [isSpace_of_isDigit hdigit])
  · exact List.dropWhile_cons_of_neg (by decide)
  · exact List.dropWhile_cons_of_neg (by decide)

/-- The digits of a numeral are found after white space and a sign. -/
theorem leadingDigits_eq (hspaces : ∀ c ∈ spaces, isSpace c = true) {sign : List Char}
    (hsign : sign = [] ∨ sign = ['+'] ∨ sign = ['-']) (hdigit : digit.isDigit = true) (rest : List Char) :
    leadingDigits (spaces ++ (sign ++ digit :: rest)) = (digit :: rest).takeWhile Char.isDigit := by
  rw [leadingDigits, dropWhile_isSpace hspaces hsign hdigit]
  obtain rfl | rfl | rfl := hsign
  · rw [List.nil_append, dropSign_of_isDigit hdigit]
  · rfl
  · rfl

/-- What is dropped is a sign or nothing. -/
theorem exists_sign (text : List Char) :
    ∃ sign : List Char, (sign = [] ∨ sign = ['+'] ∨ sign = ['-']) ∧ text = sign ++ dropSign text := by
  unfold dropSign
  split
  · rename_i hsign
    cases text with
    | nil => simp at hsign
    | cons c rest => exact ⟨[c], by simpa using hsign, rfl⟩
  · exact ⟨[], Or.inl rfl, rfl⟩

/-- A text without digits at its start does not start with a numeral. -/
theorem leadingDigits_eq_nil : leadingDigits text = [] ↔ ¬StartsWithNumeral text := by
  constructor
  · rintro hdigits ⟨spaces, sign, digit, rest, hspaces, hsign, hdigit, rfl⟩
    rw [leadingDigits_eq hspaces hsign hdigit, List.takeWhile_cons_of_pos hdigit] at hdigits
    cases hdigits
  · intro hnumeral
    obtain ⟨sign, hsign, htext⟩ := exists_sign (text.dropWhile isSpace)
    rw [leadingDigits]
    cases hrest : dropSign (text.dropWhile isSpace) with
    | nil => rfl
    | cons digit rest =>
      refine List.takeWhile_cons_of_neg fun hdigit => hnumeral ?_
      refine ⟨text.takeWhile isSpace, sign, digit, rest, fun c hc => List.mem_takeWhile_imp hc, hsign, hdigit, ?_⟩
      rw [← hrest, ← htext, List.takeWhile_append_dropWhile]

/-- A text has no integer to read if and only if it does not start with a numeral. -/
theorem leadingInt_eq_none : leadingInt text = none ↔ ¬StartsWithNumeral text := by
  rw [← leadingDigits_eq_nil, leadingInt]
  split
  · rename_i hdigits
    exact ⟨fun _ => hdigits, fun _ => rfl⟩
  · rename_i hdigits
    refine ⟨fun hnone => ?_, fun hnil => absurd hnil hdigits⟩
    split at hnone <;> cases hnone

/-- The digits of a natural number are found after a sign. -/
theorem leadingDigits_toDigits {sign : List Char} (hsign : sign = [] ∨ sign = ['+'] ∨ sign = ['-']) (n : ℕ) :
    leadingDigits (sign ++ Nat.toDigits 10 n) = Nat.toDigits 10 n := by
  have hdigits : ∀ c ∈ Nat.toDigits 10 n, c.isDigit = true := fun c hc =>
    Nat.isDigit_of_mem_toDigits (by decide) (by decide) hc
  cases htext : Nat.toDigits 10 n with
  | nil => exact absurd htext Nat.toDigits_ne_nil
  | cons digit rest =>
    rw [htext] at hdigits
    have hspaces : ∀ c ∈ ([] : List Char), isSpace c = true := fun c hc => absurd hc List.not_mem_nil
    have hleading := leadingDigits_eq hspaces hsign (hdigits digit (List.mem_cons_self ..)) rest
    rw [List.nil_append] at hleading
    rw [hleading, List.takeWhile_eq_self_iff.mpr hdigits]

/-- The numeral of an integer is read as this integer. -/
theorem leadingInt_numeral (i : ℤ) : leadingInt (numeral i) = some i := by
  cases i with
  | ofNat n =>
    have hdigits := leadingDigits_toDigits (Or.inl rfl) n
    rw [List.nil_append] at hdigits
    have hplain : ((Nat.toDigits 10 n).dropWhile isSpace).head? ≠ some '-' := by
      intro hminus
      have hmem := (List.dropWhile_sublist isSpace).subset (List.mem_of_head? hminus)
      exact absurd (Nat.isDigit_of_mem_toDigits (by decide) (by decide) hmem) (by decide)
    rw [numeral, leadingInt, hdigits, if_neg Nat.toDigits_ne_nil, if_neg hplain, Nat.ofDigitChars_ten_toDigits]
    rfl
  | negSucc n =>
    have hdigits := leadingDigits_toDigits (Or.inr (Or.inr rfl)) (n + 1)
    rw [List.singleton_append] at hdigits
    rw [numeral, leadingInt, hdigits, if_neg Nat.toDigits_ne_nil, if_pos (by rfl), Nat.ofDigitChars_ten_toDigits]
    rfl

end MatchingEngine
