import Nodepilot.Lib.Text

/-!
# Decimal numerals

Reading the plain numerals programs write for rational numbers: digits, perhaps a point
and more digits.  What a numeral with a point stands for is the number all its digits make,
over a power of ten for those behind the point; zeros at its end count for nothing.
-/

namespace Decimal

/-- The number of a list of digits. -/
def digits (text : List Char) : Option ℕ :=
  if text ≠ [] ∧ text.all Char.isDigit then some (Nat.ofDigitChars 10 text 0) else none

/-- The number a plain numeral stands for: there is no sign and no exponent. -/
def magnitude (text : List Char) : Option ℚ :=
  if '.' ∈ text then do
    let n ← digits (text.takeWhile (· != '.'))
    let m ← digits ((text.dropWhile (· != '.')).drop 1)
    some (n + m / 10 ^ ((text.dropWhile (· != '.')).drop 1).length)
  else (digits text).map Nat.cast

section Reading

variable {whole fraction : List Char}

theorem digits_of_isDigit (hne : whole ≠ []) (h : ∀ c ∈ whole, c.isDigit = true) :
    digits whole = some (Nat.ofDigitChars 10 whole 0) := by
  rw [digits, if_pos ⟨hne, List.all_eq_true.mpr h⟩]

theorem digits_eq_none {c : Char} (hc : c ∈ whole) (hdigit : c.isDigit = false) :
    digits whole = none := by
  rw [digits, if_neg]
  rintro ⟨-, hall⟩
  rw [List.all_eq_true.mp hall c hc] at hdigit
  cases hdigit

/-- A text is cut at the first character of its kind. -/
theorem cut_at {p : Char} (h : p ∉ whole) (rest : List Char) :
    (whole ++ p :: rest).takeWhile (· != p) = whole ∧
      (whole ++ p :: rest).dropWhile (· != p) = p :: rest := by
  have hkeep : ∀ c ∈ whole, (c != p) = true := fun c hc => by
    simpa using fun heq : c = p => h (heq ▸ hc)
  rw [List.takeWhile_append_of_pos hkeep, List.dropWhile_append_of_pos hkeep]
  simp

theorem not_mem_of_isDigit {p : Char} (hp : p.isDigit = false) (h : ∀ c ∈ whole, c.isDigit = true) :
    p ∉ whole :=
  fun hmem => Text.ne_of_isDigit (h p hmem) hp rfl

theorem magnitude_whole (hne : whole ≠ []) (h : ∀ c ∈ whole, c.isDigit = true) :
    magnitude whole = some (Nat.ofDigitChars 10 whole 0 : ℚ) := by
  rw [magnitude, if_neg (not_mem_of_isDigit (by decide) h), digits_of_isDigit hne h]
  rfl

theorem magnitude_point (hne : whole ≠ []) (h : ∀ c ∈ whole, c.isDigit = true)
    (hne' : fraction ≠ []) (h' : ∀ c ∈ fraction, c.isDigit = true) :
    magnitude (whole ++ '.' :: fraction) =
      some ((Nat.ofDigitChars 10 (whole ++ fraction) 0 : ℚ) / 10 ^ fraction.length) := by
  obtain ⟨htake, hdrop⟩ := cut_at (not_mem_of_isDigit (p := '.') (by decide) h) fraction
  have hpoint : '.' ∈ whole ++ '.' :: fraction :=
    List.mem_append_right _ (List.mem_cons_self ..)
  have hall : Nat.ofDigitChars 10 (whole ++ fraction) 0 =
      10 ^ fraction.length * Nat.ofDigitChars 10 whole 0 + Nat.ofDigitChars 10 fraction 0 := by
    rw [Nat.ofDigitChars_append, Nat.ofDigitChars_eq_ofDigitChars_zero]
  rw [magnitude, if_pos hpoint, htake, hdrop, List.drop_one, List.tail_cons, digits_of_isDigit hne h,
    digits_of_isDigit hne' h', Option.bind_eq_bind, Option.bind_some, Option.bind_some, hall]
  push_cast
  rw [add_div, mul_div_cancel_left₀ _ (pow_ne_zero _ (by norm_num))]

/-- Zeros at the end of a fraction count for nothing. -/
theorem ofDigitChars_zeros (text : List Char) (k l : ℕ) :
    (Nat.ofDigitChars 10 (text ++ List.replicate k '0') 0 : ℚ) / 10 ^ (l + k) =
      Nat.ofDigitChars 10 text 0 / 10 ^ l := by
  rw [Nat.ofDigitChars_append, Nat.ofDigitChars_replicate_zero]
  push_cast
  rw [pow_add, mul_comm ((10 : ℚ) ^ l), mul_div_mul_left _ _ (pow_ne_zero _ (by norm_num))]

/-- A plain numeral is nothing but digits and a point. -/
theorem magnitude_eq_none {text : List Char} {c : Char} (hc : c ∈ text) (hdigit : c.isDigit = false)
    (hpoint : c ≠ '.') : magnitude text = none := by
  rw [magnitude]
  split
  · have hsplit := List.takeWhile_append_dropWhile (p := (· != '.')) (l := text)
    rw [← hsplit] at hc
    rcases List.mem_append.mp hc with hwhole | hrest
    · rw [digits_eq_none hwhole hdigit]
      rfl
    · have hfraction : c ∈ (text.dropWhile (· != '.')).drop 1 := by
        cases hdrop : text.dropWhile (· != '.') with
        | nil =>
            rw [hdrop] at hrest
            exact absurd hrest List.not_mem_nil
        | cons d rest =>
            have hd : (d != '.') = false := by
              have hhead := List.head_dropWhile_not (· != '.') (l := text) (by rw [hdrop]; simp)
              simpa only [hdrop, List.head_cons] using hhead
            have hne : c ≠ d := by
              rintro rfl
              simp [hpoint] at hd
            rw [hdrop] at hrest
            simpa [hne] using hrest
      rw [digits_eq_none hfraction hdigit]
      cases digits (text.takeWhile (· != '.')) <;> rfl
  · rw [digits_eq_none hc hdigit]
    rfl

end Reading

end Decimal
