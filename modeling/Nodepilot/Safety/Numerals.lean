import Nodepilot.Lib.Decimal
import Nodepilot.Model.Python

/-!
# Six significant digits

`f"{x:g}"` prints a number to six significant digits.  What is printed reads back as
exactly the number so rounded, in every one of the four shapes the text can have; the
rounding is off by at most five millionths of the number, and not at all where six
digits are enough.
-/

namespace Nodepilot

/-! ## Rounding -/

theorem abs_roundHalfEven_sub_le (x : ℚ) : |(roundHalfEven x : ℚ) - x| ≤ 1 / 2 := by
  have hfloor := Int.floor_le x
  have hceil := Int.lt_floor_add_one x
  simp only [roundHalfEven]
  split_ifs
  all_goals
    push_cast
    rw [abs_le]
    constructor <;> linarith

/-- A number between two integers stays between them. -/
theorem le_roundHalfEven {n : ℤ} {x : ℚ} (h : (n : ℚ) ≤ x) : n ≤ roundHalfEven x := by
  have hnear := (abs_le.mp (abs_roundHalfEven_sub_le x)).1
  have hlt : (n : ℚ) < roundHalfEven x + 1 := by linarith
  have hcast : n < roundHalfEven x + 1 := by exact_mod_cast hlt
  omega

theorem roundHalfEven_le {n : ℤ} {x : ℚ} (h : x ≤ n) : roundHalfEven x ≤ n := by
  have hnear := (abs_le.mp (abs_roundHalfEven_sub_le x)).2
  have hlt : (roundHalfEven x : ℚ) < n + 1 := by linarith
  have hcast : roundHalfEven x < n + 1 := by exact_mod_cast hlt
  omega

theorem roundHalfEven_intCast (n : ℤ) : roundHalfEven n = n :=
  le_antisymm (roundHalfEven_le le_rfl) (le_roundHalfEven le_rfl)

/-- A number rounded to six significant digits. -/
def significant (x : ℚ) : ℚ :=
  (if x < 0 then -1 else 1) *
    (roundHalfEven (|x| * 10 ^ (5 - Int.log 10 |x|)) * 10 ^ (Int.log 10 |x| - 5))

section Significant

variable {x : ℚ}

/-- The leading digit of a number is before the point once it is scaled. -/
theorem scaled_bounds (hx : x ≠ 0) :
    10 ^ 5 ≤ |x| * 10 ^ (5 - Int.log 10 |x|) ∧ |x| * 10 ^ (5 - Int.log 10 |x|) < 10 ^ 6 := by
  have hpos : 0 < |x| := abs_pos.mpr hx
  have hlow : (10 : ℚ) ^ Int.log 10 |x| ≤ |x| := by
    exact_mod_cast Int.zpow_log_le_self (b := 10) (by norm_num) hpos
  have hhigh : |x| < (10 : ℚ) ^ (Int.log 10 |x| + 1) := by
    exact_mod_cast Int.lt_zpow_succ_log_self (b := 10) (by norm_num) |x|
  have hten : (0 : ℚ) < 10 ^ (5 - Int.log 10 |x|) := by positivity
  have hjoin : ∀ k : ℤ, (10 : ℚ) ^ k * 10 ^ (5 - Int.log 10 |x|) = 10 ^ (k + (5 - Int.log 10 |x|)) :=
    fun k => (zpow_add₀ (by norm_num) _ _).symm
  constructor
  · calc (10 : ℚ) ^ 5 = 10 ^ Int.log 10 |x| * 10 ^ (5 - Int.log 10 |x|) := by
          rw [hjoin, add_sub_cancel]
          norm_num
      _ ≤ |x| * 10 ^ (5 - Int.log 10 |x|) := by gcongr
  · calc |x| * 10 ^ (5 - Int.log 10 |x|)
        < 10 ^ (Int.log 10 |x| + 1) * 10 ^ (5 - Int.log 10 |x|) := by gcongr
      _ = 10 ^ 6 := by
          rw [hjoin, show Int.log 10 |x| + 1 + (5 - Int.log 10 |x|) = 6 by ring]
          norm_num

theorem significant_zero : significant 0 = 0 := by
  have hround : roundHalfEven 0 = 0 := roundHalfEven_intCast 0
  simp [significant, hround]

/-- The rounding is off by half of the sixth digit at most. -/
theorem abs_significant_sub_le_unit (x : ℚ) :
    |significant x - x| ≤ 1 / 2 * 10 ^ (Int.log 10 |x| - 5) := by
  have hten : (0 : ℚ) < 10 ^ (Int.log 10 |x| - 5) := by positivity
  have hsign : x = (if x < 0 then -1 else 1) * |x| := by
    split_ifs with hneg
    · rw [abs_of_neg hneg]
      ring
    · rw [abs_of_nonneg (not_lt.mp hneg)]
      ring
  have hunit : |(if x < 0 then -1 else 1 : ℚ)| = 1 := by
    split_ifs <;> norm_num
  have hscale : |x| = |x| * 10 ^ (5 - Int.log 10 |x|) * 10 ^ (Int.log 10 |x| - 5) := by
    rw [mul_assoc, ← zpow_add₀ (by norm_num), show 5 - Int.log 10 |x| + (Int.log 10 |x| - 5) = 0 by ring,
      zpow_zero, mul_one]
  set m := |x| * 10 ^ (5 - Int.log 10 |x|) with hm
  set u := (10 : ℚ) ^ (Int.log 10 |x| - 5) with hu
  calc |significant x - x|
      = |(if x < 0 then -1 else 1 : ℚ) * ((roundHalfEven m - m) * u)| := by
        rw [significant, ← hm, ← hu]
        congr 1
        nth_rewrite 3 [hsign]
        rw [hscale]
        ring
    _ = |(roundHalfEven m : ℚ) - m| * u := by rw [abs_mul, hunit, one_mul, abs_mul, abs_of_pos hten]
    _ ≤ 1 / 2 * u := by
        gcongr
        exact abs_roundHalfEven_sub_le m

/-- The rounding is off by five millionths at most. -/
theorem abs_significant_sub_le (x : ℚ) : |significant x - x| ≤ 5 / 10 ^ 6 * |x| := by
  by_cases hx : x = 0
  · subst hx
    rw [significant_zero]
    norm_num
  have hleading : (10 : ℚ) ^ Int.log 10 |x| ≤ |x| := by
    exact_mod_cast Int.zpow_log_le_self (b := 10) (by norm_num) (abs_pos.mpr hx)
  calc |significant x - x| ≤ 1 / 2 * 10 ^ (Int.log 10 |x| - 5) := abs_significant_sub_le_unit x
    _ = 5 / 10 ^ 6 * 10 ^ Int.log 10 |x| := by
        rw [zpow_sub₀ (by norm_num)]
        ring
    _ ≤ 5 / 10 ^ 6 * |x| := by gcongr

/-- Below a million it is off by half at most. -/
theorem abs_significant_sub_le_half (hx : 0 < x) (hlt : x < 10 ^ 6) : |significant x - x| ≤ 1 / 2 := by
  have hlog : Int.log 10 x < 6 :=
    (Int.lt_zpow_iff_log_lt (b := 10) (by norm_num) hx).mp (by exact_mod_cast hlt)
  calc |significant x - x| ≤ 1 / 2 * 10 ^ (Int.log 10 |x| - 5) := abs_significant_sub_le_unit x
    _ ≤ 1 / 2 * 10 ^ (0 : ℤ) := by
        rw [abs_of_pos hx]
        gcongr
        · norm_num
        · omega
    _ = 1 / 2 := by norm_num

/-- A rounded number keeps the place of its first digit, or carries into the next. -/
theorem significant_bounds (hx : 0 < x) :
    10 ^ Int.log 10 x ≤ significant x ∧ significant x ≤ 10 ^ (Int.log 10 x + 1) := by
  obtain ⟨hlow, hhigh⟩ := scaled_bounds hx.ne'
  rw [abs_of_pos hx] at hlow hhigh
  have hfrom : (10 ^ 5 : ℤ) ≤ roundHalfEven (x * 10 ^ (5 - Int.log 10 x)) :=
    le_roundHalfEven (by exact_mod_cast hlow)
  have hto : roundHalfEven (x * 10 ^ (5 - Int.log 10 x)) ≤ (10 ^ 6 : ℤ) :=
    roundHalfEven_le (by exact_mod_cast hhigh.le)
  have hfrom' : (10 : ℚ) ^ (5 : ℤ) ≤ roundHalfEven (x * 10 ^ (5 - Int.log 10 x)) := by exact_mod_cast hfrom
  have hto' : (roundHalfEven (x * 10 ^ (5 - Int.log 10 x)) : ℚ) ≤ 10 ^ (6 : ℤ) := by exact_mod_cast hto
  have hten : (0 : ℚ) < 10 ^ (Int.log 10 x - 5) := by positivity
  rw [significant, if_neg (not_lt.mpr hx.le), abs_of_pos hx, one_mul]
  constructor
  · calc (10 : ℚ) ^ Int.log 10 x = 10 ^ (5 : ℤ) * 10 ^ (Int.log 10 x - 5) := by
          rw [← zpow_add₀ (by norm_num), add_sub_cancel]
      _ ≤ _ := by gcongr
  · calc _ ≤ (10 : ℚ) ^ (6 : ℤ) * 10 ^ (Int.log 10 x - 5) := by gcongr
      _ = 10 ^ (Int.log 10 x + 1) := by
          rw [← zpow_add₀ (by norm_num), show 6 + (Int.log 10 x - 5) = Int.log 10 x + 1 by ring]

theorem roundHalfEven_mono {a b : ℚ} (h : a ≤ b) : roundHalfEven a ≤ roundHalfEven b := by
  rcases h.eq_or_lt with rfl | hlt
  · exact le_rfl
  · by_contra hmore
    have hgap : (roundHalfEven b : ℚ) + 1 ≤ roundHalfEven a := by exact_mod_cast not_le.mp hmore
    have ha := (abs_le.mp (abs_roundHalfEven_sub_le a)).2
    have hb := (abs_le.mp (abs_roundHalfEven_sub_le b)).1
    linarith

/-- Rounding keeps the order. -/
theorem significant_mono {y : ℚ} (hx : 0 < x) (hxy : x ≤ y) : significant x ≤ significant y := by
  have hy : 0 < y := hx.trans_le hxy
  rcases (Int.log_mono_right (b := 10) hx hxy).eq_or_lt with heq | hlt
  · have hround : (roundHalfEven (x * 10 ^ (5 - Int.log 10 y)) : ℚ) ≤
        roundHalfEven (y * 10 ^ (5 - Int.log 10 y)) := by
      exact_mod_cast roundHalfEven_mono (by gcongr)
    rw [significant, significant, if_neg (not_lt.mpr hx.le), if_neg (not_lt.mpr hy.le), abs_of_pos hx,
      abs_of_pos hy, heq]
    gcongr
  · calc significant x ≤ 10 ^ (Int.log 10 x + 1) := (significant_bounds hx).2
      _ ≤ 10 ^ Int.log 10 y := zpow_le_zpow_right₀ (by norm_num) (by omega)
      _ ≤ significant y := (significant_bounds hy).1

/-- Six digits are enough for a number that is whole once scaled. -/
theorem significant_eq_self {n : ℤ} (h : |x| * 10 ^ (5 - Int.log 10 |x|) = n) : significant x = x := by
  have hscale : |x| * 10 ^ (5 - Int.log 10 |x|) * 10 ^ (Int.log 10 |x| - 5) = |x| := by
    rw [mul_assoc, ← zpow_add₀ (by norm_num), show 5 - Int.log 10 |x| + (Int.log 10 |x| - 5) = 0 by ring,
      zpow_zero, mul_one]
  rw [significant, h, roundHalfEven_intCast, ← h, hscale]
  split_ifs with hneg
  · rw [abs_of_neg hneg]
    ring
  · rw [abs_of_nonneg (not_lt.mp hneg)]
    ring

/-- A number of six significant digits is not changed. -/
theorem significant_of_digits {n : ℕ} {k : ℤ} (hn : n < 10 ^ 6) : significant (n * 10 ^ k) = n * 10 ^ k := by
  by_cases hzero : n = 0
  · subst hzero
    rw [Nat.cast_zero, zero_mul, significant_zero]
  have hpos : (0 : ℚ) < n * 10 ^ k := by
    have hcast : (0 : ℚ) < n := by exact_mod_cast Nat.pos_of_ne_zero hzero
    positivity
  have hlt : (n : ℚ) * 10 ^ k < 10 ^ (6 + k) := by
    have hcast : (n : ℚ) < 10 ^ (6 : ℤ) := by exact_mod_cast hn
    rw [zpow_add₀ (by norm_num)]
    gcongr
  have hlog : Int.log 10 ((n : ℚ) * 10 ^ k) < 6 + k :=
    (Int.lt_zpow_iff_log_lt (b := 10) (by norm_num) hpos).mp (by exact_mod_cast hlt)
  obtain ⟨j, hj⟩ : ∃ j : ℕ, k + (5 - Int.log 10 ((n : ℚ) * 10 ^ k)) = j :=
    ⟨(k + (5 - Int.log 10 ((n : ℚ) * 10 ^ k))).toNat, by omega⟩
  refine significant_eq_self (n := n * 10 ^ j) ?_
  rw [abs_of_pos hpos, mul_assoc, ← zpow_add₀ (by norm_num), hj]
  push_cast
  rw [zpow_natCast]

/-- Below a million numbers more than one apart stay apart. -/
theorem significant_lt {y : ℚ} (hx : 0 < x) (hxy : x + 1 < y) (hy : y < 10 ^ 6) :
    significant x < significant y := by
  have hbelow := (abs_le.mp (abs_significant_sub_le_half hx (by linarith))).2
  have habove := (abs_le.mp (abs_significant_sub_le_half (by linarith) hy)).1
  linarith

end Significant

/-! ## The text -/

/-- The text for `n / 10 ^ 5 * 10 ^ e`, the number `n` having six digits. -/
def numeral (n : ℕ) (e : ℤ) : String :=
  let digits := Nat.toDigits 10 n
  if 0 ≤ e ∧ e < 6 then
    String.ofList (digits.take (e.toNat + 1)) ++ fractionText (digits.drop (e.toNat + 1))
  else if -4 ≤ e ∧ e < 0 then
    "0" ++ fractionText (List.replicate (-e - 1).toNat '0' ++ digits)
  else
    let exponent := Nat.toDigits 10 e.natAbs
    String.ofList (digits.take 1) ++ fractionText (digits.drop 1) ++ (if e < 0 then "e-" else "e+") ++
      String.ofList (List.replicate (2 - exponent.length) '0' ++ exponent)

/-- What is printed is a sign and the six digits of the rounded number. -/
theorem formatGeneral_eq {x : ℚ} (hx : x ≠ 0) : ∃ (n : ℕ) (e : ℤ), 10 ^ 5 ≤ n ∧ n < 10 ^ 6 ∧
    (n : ℚ) * 10 ^ (e - 5) = significant |x| ∧ formatGeneral x = signText x ++ numeral n e := by
  obtain ⟨hlow, hhigh⟩ := scaled_bounds hx
  have hfrom : 10 ^ 5 ≤ roundHalfEven (|x| * 10 ^ (5 - Int.log 10 |x|)) :=
    le_roundHalfEven (by exact_mod_cast hlow)
  have hto : roundHalfEven (|x| * 10 ^ (5 - Int.log 10 |x|)) ≤ 10 ^ 6 :=
    roundHalfEven_le (by exact_mod_cast hhigh.le)
  have hvalue : significant |x| =
      roundHalfEven (|x| * 10 ^ (5 - Int.log 10 |x|)) * 10 ^ (Int.log 10 |x| - 5) := by
    rw [significant, if_neg (not_lt.mpr (abs_nonneg x)), abs_abs, one_mul]
  rw [formatGeneral, if_neg hx]
  by_cases hcarry : roundHalfEven (|x| * 10 ^ (5 - Int.log 10 |x|)) = 10 ^ 6
  · -- the digits carry into a seventh one, which shifts the point
    refine ⟨10 ^ 5, Int.log 10 |x| + 1, le_rfl, by norm_num, ?_, ?_⟩
    · rw [hvalue, hcarry, show Int.log 10 |x| + 1 - 5 = 1 + (Int.log 10 |x| - 5) by ring,
        zpow_add₀ (by norm_num)]
      push_cast
      ring
    · simp only [hcarry, if_true, numeral]
      split_ifs <;> simp only [String.append_assoc]
  · have hlt : roundHalfEven (|x| * 10 ^ (5 - Int.log 10 |x|)) < 10 ^ 6 := lt_of_le_of_ne hto hcarry
    refine ⟨(roundHalfEven (|x| * 10 ^ (5 - Int.log 10 |x|))).toNat, Int.log 10 |x|, by omega, by omega,
      ?_, ?_⟩
    · rw [hvalue]
      congr 1
      have hcast : ((roundHalfEven (|x| * 10 ^ (5 - Int.log 10 |x|))).toNat : ℤ) =
          roundHalfEven (|x| * 10 ^ (5 - Int.log 10 |x|)) := Int.toNat_of_nonneg (by omega)
      exact_mod_cast hcast
    · simp only [if_neg hcarry, numeral]
      split_ifs <;> simp only [String.append_assoc]

section Reading

open Decimal

variable {whole fraction : List Char} {n : ℕ} {e : ℤ}

/-- Digits and a fraction without its last zeros stand for the number of all the digits. -/
theorem magnitude_fractionText (hne : whole ≠ []) (h : ∀ c ∈ whole, c.isDigit = true)
    (h' : ∀ c ∈ fraction, c.isDigit = true) :
    magnitude (whole ++ (fractionText fraction).toList) =
      some ((Nat.ofDigitChars 10 (whole ++ fraction) 0 : ℚ) / 10 ^ fraction.length) := by
  set kept := fraction.rdropWhile (· == '0') with hkept
  obtain ⟨k, hzeros⟩ : ∃ k, fraction = kept ++ List.replicate k '0' := by
    refine ⟨(fraction.rtakeWhile (· == '0')).length, ?_⟩
    have hsplit := List.rdropWhile_append_rtakeWhile (p := (· == '0')) (l := fraction)
    nth_rewrite 1 [← hsplit]
    congr 1
    refine List.eq_replicate_iff.mpr ⟨rfl, fun c hc => ?_⟩
    simpa using List.mem_rtakeWhile_imp hc
  have hdigits : ∀ c ∈ kept, c.isDigit = true := fun c hc => by
    rw [hzeros] at h'
    exact h' c (List.mem_append_left _ hc)
  have hvalue : (Nat.ofDigitChars 10 (whole ++ fraction) 0 : ℚ) / 10 ^ fraction.length =
      Nat.ofDigitChars 10 (whole ++ kept) 0 / 10 ^ kept.length := by
    rw [hzeros, ← List.append_assoc, List.length_append, List.length_replicate]
    exact ofDigitChars_zeros _ _ _
  rw [hvalue, fractionText, ← hkept]
  by_cases hnil : kept = []
  · simp [hnil, magnitude_whole hne h]
  · have hfull : ¬ kept.isEmpty = true := by simpa using hnil
    simp only [if_neg hfull, String.toList_append, String.toList_ofList]
    exact magnitude_point hne h hnil hdigits

theorem length_six (hlow : 10 ^ 5 ≤ n) (hhigh : n < 10 ^ 6) : (Nat.toDigits 10 n).length = 6 := by
  have hle := (Nat.length_toDigits_le_iff (b := 10) (k := 6) (by norm_num) (by norm_num)).mpr hhigh
  have hnot := mt (Nat.length_toDigits_le_iff (b := 10) (k := 5) (n := n) (by norm_num) (by norm_num)).mp
    (not_lt.mpr hlow)
  omega

/-- Without an exponent the text is a plain numeral. -/
theorem magnitude_numeral (hlow : 10 ^ 5 ≤ n) (hhigh : n < 10 ^ 6) (he : -4 ≤ e) (he' : e < 6) :
    magnitude (numeral n e).toList = some ((n : ℚ) * 10 ^ (e - 5)) := by
  have hlength := length_six hlow hhigh
  have hdigits : ∀ c ∈ Nat.toDigits 10 n, c.isDigit = true := fun c hc => Text.isDigit_of_mem_toDigits hc
  have hall : Nat.ofDigitChars 10 (Nat.toDigits 10 n) 0 = n := Nat.ofDigitChars_ten_toDigits
  have hshift : ∀ l : ℕ, (l : ℤ) = 5 - e → (n : ℚ) / 10 ^ l = n * 10 ^ (e - 5) := by
    intro l hl
    rw [show e - 5 = -(l : ℤ) by omega, zpow_neg, zpow_natCast]
    rfl
  rw [numeral]
  by_cases hnonneg : 0 ≤ e
  · have hfirst : (Nat.toDigits 10 n).take (e.toNat + 1) ≠ [] := by
      rw [← List.length_pos_iff, List.length_take]
      omega
    have hvalue := magnitude_fractionText hfirst (fun c hc => hdigits c (List.mem_of_mem_take hc))
      fun c hc => hdigits c (List.mem_of_mem_drop (i := e.toNat + 1) hc)
    rw [List.take_append_drop, hall, hshift _ (by rw [List.length_drop, hlength]; omega)] at hvalue
    rw [if_pos ⟨hnonneg, he'⟩, String.toList_append, String.toList_ofList]
    exact hvalue
  · have hfraction : ∀ c ∈ List.replicate (-e - 1).toNat '0' ++ Nat.toDigits 10 n, c.isDigit = true := by
      intro c hc
      rcases List.mem_append.mp hc with hc | hc
      · rw [List.eq_of_mem_replicate hc]
        rfl
      · exact hdigits c hc
    have hzeros : Nat.ofDigitChars 10 (['0'] ++ (List.replicate (-e - 1).toNat '0' ++
        Nat.toDigits 10 n)) 0 = n := by
      have hfirst : Nat.ofDigitChars 10 ['0'] 0 = 0 := by decide
      rw [Nat.ofDigitChars_append, Nat.ofDigitChars_append, hfirst, Nat.ofDigitChars_replicate_zero,
        mul_zero, hall]
    have hzero : ∀ c ∈ ['0'], c.isDigit = true := fun c hc => by
      rw [List.mem_singleton.mp hc]
      rfl
    have hvalue := magnitude_fractionText (List.cons_ne_nil '0' []) hzero hfraction
    rw [hzeros, hshift _ (by rw [List.length_append, List.length_replicate, hlength]; omega)] at hvalue
    rw [if_neg (by omega), if_pos ⟨he, by omega⟩, String.toList_append]
    exact hvalue

/-- With one it is none. -/
theorem mem_numeral (he : ¬ (-4 ≤ e ∧ e < 6)) : 'e' ∈ (numeral n e).toList := by
  rw [numeral, if_neg (by omega), if_neg (by omega)]
  split_ifs <;> simp

/-- The exponent is the place of the first digit. -/
theorem numeral_bounds (hlow : 10 ^ 5 ≤ n) (hhigh : n < 10 ^ 6) :
    (10 : ℚ) ^ e ≤ n * 10 ^ (e - 5) ∧ (n : ℚ) * 10 ^ (e - 5) < 10 ^ (e + 1) := by
  have hten : (0 : ℚ) < 10 ^ (e - 5) := by positivity
  have hlow' : (10 : ℚ) ^ (5 : ℤ) ≤ n := by exact_mod_cast hlow
  have hhigh' : (n : ℚ) < 10 ^ (6 : ℤ) := by exact_mod_cast hhigh
  constructor
  · calc (10 : ℚ) ^ e = 10 ^ (5 : ℤ) * 10 ^ (e - 5) := by rw [← zpow_add₀ (by norm_num), add_sub_cancel]
      _ ≤ n * 10 ^ (e - 5) := by gcongr
  · calc (n : ℚ) * 10 ^ (e - 5) < 10 ^ (6 : ℤ) * 10 ^ (e - 5) := by gcongr
      _ = 10 ^ (e + 1) := by rw [← zpow_add₀ (by norm_num), show 6 + (e - 5) = e + 1 by ring]

theorem numeral_ordinary (hlow : 10 ^ 5 ≤ n) (hhigh : n < 10 ^ 6) :
    ((10 : ℚ) ^ (-4 : ℤ) ≤ n * 10 ^ (e - 5) ∧ (n : ℚ) * 10 ^ (e - 5) < 10 ^ (6 : ℤ)) ↔ -4 ≤ e ∧ e < 6 := by
  obtain ⟨hfrom, hto⟩ := numeral_bounds (e := e) hlow hhigh
  constructor
  · rintro ⟨hbig, hsmall⟩
    have h₁ := (zpow_lt_zpow_iff_right₀ (by norm_num : (1 : ℚ) < 10)).mp (hbig.trans_lt hto)
    have h₂ := (zpow_lt_zpow_iff_right₀ (by norm_num : (1 : ℚ) < 10)).mp (hfrom.trans_lt hsmall)
    omega
  · rintro ⟨hbig, hsmall⟩
    exact ⟨(zpow_le_zpow_right₀ (by norm_num) hbig).trans hfrom,
      hto.trans_le (zpow_le_zpow_right₀ (by norm_num) (by omega))⟩

/-- The numbers whose text has no exponent. -/
def Ordinary (x : ℚ) : Prop :=
  x = 0 ∨ (10 ^ (-4 : ℤ) ≤ significant |x| ∧ significant |x| < 10 ^ (6 : ℤ))

instance (x : ℚ) : Decidable (Ordinary x) := by
  unfold Ordinary
  infer_instance

/-- Without sign and exponent it can be read only if it has none. -/
theorem magnitude_formatGeneral (x : ℚ) : magnitude (formatGeneral x).toList =
    if 0 ≤ x ∧ Ordinary x then some (significant x) else none := by
  by_cases hx : x = 0
  · subst hx
    rw [significant_zero, if_pos ⟨le_rfl, Or.inl rfl⟩]
    decide +kernel
  obtain ⟨n, e, hlow, hhigh, hvalue, htext⟩ := formatGeneral_eq hx
  have hordinary : Ordinary x ↔ -4 ≤ e ∧ e < 6 := by
    rw [Ordinary, or_iff_right hx, ← hvalue, numeral_ordinary hlow hhigh]
  rw [htext, String.toList_append]
  by_cases hneg : x < 0
  · have hminus : '-' ∈ (signText x).toList ++ (numeral n e).toList := by
      rw [signText, if_pos hneg]
      exact List.mem_cons_self ..
    rw [magnitude_eq_none hminus (by decide) (by decide), if_neg fun h => absurd h.1 (not_le.mpr hneg)]
  · have hnonneg : 0 ≤ x := not_lt.mp hneg
    rw [signText, if_neg hneg]
    by_cases he : -4 ≤ e ∧ e < 6
    · rw [if_pos ⟨hnonneg, hordinary.mpr he⟩, ← abs_of_nonneg hnonneg, ← hvalue]
      exact magnitude_numeral hlow hhigh he.1 he.2
    · have hmem : 'e' ∈ "".toList ++ (numeral n e).toList := mem_numeral he
      rw [if_neg fun h => he (hordinary.mp h.2)]
      exact magnitude_eq_none hmem (by decide) (by decide)

end Reading

end Nodepilot
