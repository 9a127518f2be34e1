import Mathlib

/-!
# Blanks, words and decimal numerals

The text operations a Python program leans on when it reads small files and
command lines: `str.isspace`, `str.strip`, `str.split` and `int`.  Text is a
list of characters, a Python string being a sequence of code points.

`int` accepts more than the digits it prints: blanks around the numeral, one
sign, single underscores between digits, and the decimal digits of every
script.  `parseInt` accepts the same texts; what the developments built on it
use is `parseInt_toDigits`, that a printed natural number reads back.
-/

namespace Text

/-! ## Blanks -/

/-- The code points `str.isspace` accepts. -/
def blankPoints : List ℕ :=
  [0x9, 0xa, 0xb, 0xc, 0xd, 0x1c, 0x1d, 0x1e, 0x1f, 0x20, 0x85, 0xa0, 0x1680,
   0x2000, 0x2001, 0x2002, 0x2003, 0x2004, 0x2005, 0x2006, 0x2007, 0x2008, 0x2009, 0x200a,
   0x2028, 0x2029, 0x202f, 0x205f, 0x3000]

/-- `str.isspace` of one character. -/
def blank (c : Char) : Bool :=
  blankPoints.contains c.toNat

/-- The blanks `int` skips: the four ASCII separators are not among them. -/
def intBlank (c : Char) : Bool :=
  blank c && !(0x1c ≤ c.toNat && c.toNat ≤ 0x1f)

/-- Drop the characters satisfying `p` at both ends. -/
def trim (p : Char → Bool) (text : List Char) : List Char :=
  (text.dropWhile p).rdropWhile p

/-- `str.strip()`. -/
def strip (text : List Char) : List Char :=
  trim blank text

/-- `str.split()`: the maximal blank-free pieces. -/
def words (text : List Char) : List (List Char) :=
  (text.splitOnP blank).filter fun piece => !piece.isEmpty

/-- `str.lower()`, as far as a text of ASCII characters found in the result can tell: the
Kelvin sign is the one character outside ASCII whose lower case is a letter of it. -/
def lower (text : List Char) : List Char :=
  text.map fun c => if c.toNat = 0x212a then 'k' else c.toLower

/-- `pattern in text`. -/
def occursIn (pattern text : List Char) : Bool :=
  text.tails.any fun rest => pattern.isPrefixOf rest

theorem trim_eq_self {p : Char → Bool} {text : List Char} (h : ∀ c ∈ text, p c = false) :
    trim p text = text := by
  have hleft : text.dropWhile p = text := by
    cases text with
    | nil => rfl
    | cons c rest => simp [h c (List.mem_cons_self ..)]
  rw [trim, hleft, List.rdropWhile_eq_self_iff]
  intro hne
  simp [h _ (List.getLast_mem hne)]

/-- A blank at the end is stripped. -/
theorem strip_concat_blank {c : Char} (hc : blank c = true) {text : List Char}
    (h : ∀ d ∈ text, blank d = false) : strip (text ++ [c]) = text := by
  cases text with
  | nil => simp [strip, trim, hc]
  | cons first rest =>
      have hfirst : ¬ blank first = true := by simp [h first (List.mem_cons_self ..)]
      have hkeep : (first :: rest ++ [c]).dropWhile blank = first :: rest ++ [c] :=
        List.dropWhile_cons_of_neg hfirst
      rw [strip, trim, hkeep, List.rdropWhile_concat_pos _ _ _ hc]
      exact List.rdropWhile_eq_self_iff.mpr fun hne =>
        by simp [h _ (List.getLast_mem hne)]

/-- A text with a character that is not blank does not strip to nothing. -/
theorem strip_ne_nil {text : List Char} {c : Char} (hc : c ∈ text) (hblank : blank c = false) :
    strip text ≠ [] := by
  intro hnil
  rw [strip, trim, List.rdropWhile_eq_nil_iff] at hnil
  rw [← List.takeWhile_append_dropWhile (p := blank) (l := text), List.mem_append] at hc
  rcases hc with hc | hc
  · exact absurd (List.mem_takeWhile_imp hc) (by simp [hblank])
  · exact absurd (hnil c hc) (by simp [hblank])

/-! ## Decimal numerals -/

/-- The zeros of the Unicode decimal digits; the nine digits after each follow it. -/
def digitZeros : List ℕ :=
  [0x30, 0x660, 0x6f0, 0x7c0, 0x966, 0x9e6, 0xa66, 0xae6, 0xb66, 0xbe6, 0xc66, 0xce6, 0xd66,
   0xde6, 0xe50, 0xed0, 0xf20, 0x1040, 0x1090, 0x17e0, 0x1810, 0x1946, 0x19d0, 0x1a80, 0x1a90,
   0x1b50, 0x1bb0, 0x1c40, 0x1c50, 0xa620, 0xa8d0, 0xa900, 0xa9d0, 0xa9f0, 0xaa50, 0xabf0,
   0xff10, 0x104a0, 0x10d30, 0x11066, 0x110f0, 0x11136, 0x111d0, 0x112f0, 0x11450, 0x114d0,
   0x11650, 0x116c0, 0x11730, 0x118e0, 0x11950, 0x11c50, 0x11d50, 0x11da0, 0x16a60, 0x16ac0,
   0x16b50, 0x1d7ce, 0x1d7d8, 0x1d7e2, 0x1d7ec, 0x1d7f6, 0x1e140, 0x1e2f0, 0x1e950, 0x1fbf0]

/-- The value of a decimal digit of any script. -/
def digitValue (c : Char) : Option ℕ :=
  (digitZeros.find? fun z => z ≤ c.toNat && c.toNat < z + 10).map (c.toNat - ·)

/-- The digits after the first one, each possibly after one underscore. -/
def scanDigits (acc : ℕ) : List Char → Option ℕ
  | [] => some acc
  | '_' :: c :: rest => (digitValue c).bind fun d => scanDigits (10 * acc + d) rest
  | c :: rest => (digitValue c).bind fun d => scanDigits (10 * acc + d) rest

/-- An unsigned numeral. -/
def scanNat : List Char → Option ℕ
  | [] => none
  | c :: rest => (digitValue c).bind fun d => scanDigits d rest

/-- `int(text)`, with `none` for its `ValueError`. -/
def parseInt (text : List Char) : Option ℤ :=
  match trim intBlank text with
  | '-' :: rest => (scanNat rest).map fun n : ℕ => -(n : ℤ)
  | '+' :: rest => (scanNat rest).map fun n : ℕ => (n : ℤ)
  | rest => (scanNat rest).map fun n : ℕ => (n : ℤ)

theorem isDigit_bounds {c : Char} (h : c.isDigit = true) : 48 ≤ c.toNat ∧ c.toNat ≤ 57 := by
  simp only [Char.isDigit, Bool.and_eq_true, decide_eq_true_eq, UInt32.le_iff_toNat_le,
    ge_iff_le] at h
  exact h

theorem digitValue_of_isDigit {c : Char} (h : c.isDigit = true) :
    digitValue c = some (c.toNat - 48) := by
  obtain ⟨hlow, hhigh⟩ := isDigit_bounds h
  have hfind : digitZeros.find? (fun z => z ≤ c.toNat && c.toNat < z + 10) = some 48 := by
    rw [digitZeros, List.find?_cons_of_pos]
    simp only [Bool.and_eq_true, decide_eq_true_eq]
    omega
  rw [digitValue, hfind]
  rfl

/-- A digit is none of the characters that mean something else in the texts read here. -/
theorem ne_of_isDigit {c d : Char} (h : c.isDigit = true) (hd : d.isDigit = false) : c ≠ d := by
  rintro rfl
  simp [h] at hd

theorem blank_of_isDigit {c : Char} (h : c.isDigit = true) : blank c = false := by
  obtain ⟨hlow, hhigh⟩ := isDigit_bounds h
  have hne : ∀ point ∈ blankPoints, c.toNat ≠ point := by
    simp only [blankPoints, List.forall_mem_cons, List.not_mem_nil, false_implies, implies_true,
      and_true]
    omega
  simpa [blank] using fun hmem => hne _ hmem rfl

theorem intBlank_of_isDigit {c : Char} (h : c.isDigit = true) : intBlank c = false := by
  simp [intBlank, blank_of_isDigit h]

theorem scanDigits_of_isDigit {text : List Char} (h : ∀ c ∈ text, c.isDigit = true) (acc : ℕ) :
    scanDigits acc text = some (Nat.ofDigitChars 10 text acc) := by
  induction text generalizing acc with
  | nil => simp [scanDigits]
  | cons c rest ih =>
      have hc : c.isDigit = true := h c (List.mem_cons_self ..)
      have hscan : scanDigits acc (c :: rest) =
          (digitValue c).bind fun d => scanDigits (10 * acc + d) rest := by
        rw [scanDigits]
        rintro d tail rfl
        exact absurd hc (by decide)
      rw [hscan, digitValue_of_isDigit hc, Option.bind_some,
        ih fun d hd => h d (List.mem_cons_of_mem _ hd), Nat.ofDigitChars_cons]
      rfl

/-- A blank is no digit. -/
theorem digitValue_of_blank {c : Char} (h : blank c = true) : digitValue c = none := by
  have hapart : ∀ point ∈ blankPoints, ∀ z ∈ digitZeros, ¬ (z ≤ point ∧ point < z + 10) := by
    decide
  have hmem : c.toNat ∈ blankPoints := by simpa [blank] using h
  rw [digitValue, Option.map_eq_none_iff, List.find?_eq_none]
  intro z hz
  simpa using hapart c.toNat hmem z hz

/-- A text without digits is no numeral. -/
theorem parseInt_eq_none {text : List Char} (h : ∀ c ∈ text, digitValue c = none) :
    parseInt text = none := by
  have htrim : ∀ c ∈ trim intBlank text, digitValue c = none := fun c hc =>
    h c ((List.dropWhile_sublist _).mem ((List.rdropWhile_prefix _ _).sublist.mem hc))
  have hscan : ∀ rest : List Char, (∀ c ∈ rest, digitValue c = none) → scanNat rest = none := by
    intro rest hrest
    cases rest with
    | nil => rfl
    | cons c rest => rw [scanNat, hrest c (List.mem_cons_self ..), Option.bind_none]
  unfold parseInt
  split
  · rename_i rest heq
    rw [hscan rest fun c hc => htrim c (heq ▸ List.mem_cons_of_mem _ hc), Option.map_none]
  · rename_i rest heq
    rw [hscan rest fun c hc => htrim c (heq ▸ List.mem_cons_of_mem _ hc), Option.map_none]
  · rw [hscan _ htrim, Option.map_none]

theorem isDigit_of_mem_toDigits {n : ℕ} {c : Char} (h : c ∈ Nat.toDigits 10 n) :
    c.isDigit = true :=
  Nat.isDigit_of_mem_toDigits (by decide) (by decide) h

theorem scanNat_toDigits (n : ℕ) : scanNat (Nat.toDigits 10 n) = some n := by
  have hvalue : Nat.ofDigitChars 10 (Nat.toDigits 10 n) 0 = n := Nat.ofDigitChars_ten_toDigits
  have hdigits : ∀ c ∈ Nat.toDigits 10 n, c.isDigit = true := fun c hc => isDigit_of_mem_toDigits hc
  cases htext : Nat.toDigits 10 n with
  | nil => exact absurd htext Nat.toDigits_ne_nil
  | cons c rest =>
      rw [htext] at hdigits hvalue
      rw [scanNat, digitValue_of_isDigit (hdigits c (List.mem_cons_self ..)), Option.bind_some,
        scanDigits_of_isDigit fun d hd => hdigits d (List.mem_cons_of_mem _ hd)]
      rw [Nat.ofDigitChars_cons] at hvalue
      simpa using hvalue

/-- A printed natural number reads back. -/
theorem parseInt_toDigits (n : ℕ) : parseInt (Nat.toDigits 10 n) = some (n : ℤ) := by
  rw [parseInt, trim_eq_self fun c hc => intBlank_of_isDigit (isDigit_of_mem_toDigits hc)]
  have hscan := scanNat_toDigits n
  cases htext : Nat.toDigits 10 n with
  | nil => exact absurd htext Nat.toDigits_ne_nil
  | cons c rest =>
      rw [htext] at hscan
      have hc : c.isDigit = true := isDigit_of_mem_toDigits (htext ▸ List.mem_cons_self ..)
      split
      · exact absurd hc (by simp_all)
      · exact absurd hc (by simp_all)
      · simp [hscan]

/-- So does a negative one. -/
theorem parseInt_minus_toDigits (n : ℕ) :
    parseInt ('-' :: Nat.toDigits 10 n) = some (-(n : ℤ)) := by
  have hblank : ∀ c ∈ '-' :: Nat.toDigits 10 n, intBlank c = false := by
    intro c hc
    rcases List.mem_cons.mp hc with rfl | hc
    · decide
    · exact intBlank_of_isDigit (isDigit_of_mem_toDigits hc)
  rw [parseInt, trim_eq_self hblank]
  simp [scanNat_toDigits]

/-! ## Words -/

/-- A text is split at a blank. -/
theorem words_append_blank {c : Char} (h : blank c = true) (before after : List Char) :
    words (before ++ c :: after) = words before ++ words after := by
  rw [words, List.splitOnP_append_cons before after h, List.filter_append]
  rfl

/-- A text without blanks is one word. -/
theorem words_of_solid {text : List Char} (hne : text ≠ []) (h : ∀ c ∈ text, blank c = false) :
    words text = [text] := by
  rw [words, List.splitOnP_eq_singleton h]
  simp [hne]

/-- A text that begins with a character that is not blank has a word. -/
theorem words_cons_ne_nil {c : Char} (h : blank c = false) (rest : List Char) :
    words (c :: rest) ≠ [] := by
  obtain ⟨piece, later, hsplit⟩ :=
    List.exists_cons_of_ne_nil (List.splitOnP_ne_nil blank rest)
  rw [words, List.splitOnP_cons_eq_if_modifyHead, if_neg (by simp [h]), hsplit]
  simp

end Text
