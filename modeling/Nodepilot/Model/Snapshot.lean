import Nodepilot.Model.Queue

/-!
# State files

`save_state` and `load_state` of `state.py`, from the records to the document and
back.  `json.dumps` turns a key that is a number, a boolean or `None` into its
text and raises for any other that is not a string, and for dates and bytes
wherever they stand; of two branches of one name `json.loads` keeps the later.
The text of a document, which the two agree on, is left out, but for one thing: a
character beyond `U+FFFF` is written as the escapes of its two surrogates, and two
such escapes are read as the character whatever they were written for.
-/

namespace Nodepilot

open Trees

/-! ## Strings -/

namespace CodePoint

/-- What `json.loads` makes of escapes, one for each code point. -/
def merge : List ℕ → List ℕ
  | high :: low :: rest =>
      if isHigh high && isLow low then combine high low :: merge rest
      else high :: merge (low :: rest)
  | points => points

theorem le_combine (high low : ℕ) : 0x10000 ≤ combine high low := by
  unfold combine
  omega

theorem head_merge_isLow {p : ℕ} {rest : List ℕ} (h : (merge (p :: rest)).head?.any isLow = true) :
    isLow p = true := by
  cases rest with
  | nil => exact h
  | cons low rest =>
      rw [merge] at h
      split_ifs at h with hpair
      · have hlarge : 0x10000 ≤ combine p low := le_combine p low
        simp only [List.head?_cons, Option.any_some, isLow, Bool.and_eq_true, decide_eq_true_eq] at h
        omega
      · exact h

/-- Nothing is left to be read as one character. -/
theorem paired_merge (points : List ℕ) : paired (merge points) = false := by
  induction points using merge.induct with
  | case1 high low rest hpair ih =>
      rw [merge, if_pos hpair, paired, ih, Bool.or_false]
      have hlarge : 0x10000 ≤ combine high low := le_combine high low
      have hhigh : isHigh (combine high low) = false := by
        simp only [isHigh, Bool.and_eq_false_iff, decide_eq_false_iff_not]
        omega
      rw [hhigh, Bool.false_and]
  | case2 high low rest hpair ih =>
      rw [merge, if_neg hpair, paired, ih, Bool.or_false]
      by_contra hfound
      rw [Bool.not_eq_false, Bool.and_eq_true] at hfound
      exact hpair (Bool.and_eq_true_iff.mpr ⟨hfound.1, head_merge_isLow hfound.2⟩)
  | case3 points hshort =>
      cases points with
      | nil => rfl
      | cons p rest =>
          cases rest with
          | nil => simp [merge, paired]
          | cons low rest => exact absurd rfl (hshort p low rest)

/-- What has no two surrogates to be read as one character is read as it is. -/
theorem merge_of_unpaired {points : List ℕ} (h : paired points = false) : merge points = points := by
  induction points with
  | nil => rfl
  | cons p rest ih =>
      rw [paired, Bool.or_eq_false_iff] at h
      cases rest with
      | nil => rfl
      | cons low rest =>
          have hpair : ¬ (isHigh p && isLow low) = true := by
            rw [Bool.not_eq_true]
            exact h.1
          rw [merge, if_neg hpair, ih h.2]

end CodePoint

theorem PyStr.ofPoints_points (s : Surrogates) : ofPoints s.points = .surrogates s :=
  dif_pos ⟨s.valid, s.found⟩

theorem PyStr.paired_ofPoints {points : List ℕ} (h : CodePoint.paired points = false) :
    (ofPoints points).paired = false := by
  unfold ofPoints
  split
  · exact h
  · rfl

/-- A string of a document, by what it is read as. -/
structure JsonText where
  str : PyStr
  unpaired : str.paired = false
  deriving DecidableEq

instance : Coe String JsonText := ⟨fun s => ⟨.text s, rfl⟩⟩

/-- A `str` as `json.dumps` writes it. -/
def dumpText : PyStr → JsonText
  | .text s => s
  | .surrogates s =>
      ⟨.ofPoints (CodePoint.merge s.points), PyStr.paired_ofPoints (CodePoint.paired_merge s.points)⟩

/-- What is written for a string as it is read is that string. -/
theorem dumpText_str (t : JsonText) : dumpText t.str = t := by
  obtain ⟨str, hunpaired⟩ := t
  cases str with
  | text s => rfl
  | surrogates s =>
      have hmerge : CodePoint.merge s.points = s.points := CodePoint.merge_of_unpaired hunpaired
      simp only [dumpText, hmerge, PyStr.ofPoints_points]

/-! ## Documents -/

/-- What is neither an array nor an object. -/
inductive JsonScalar
  | null
  | bool (b : Bool)
  | int (n : ℤ)
  | float (x : ℚ)
  /-- `Infinity` or `-Infinity`. -/
  | infinity (negative : Bool)
  /-- `NaN`. -/
  | nan
  | str (s : JsonText)
  deriving DecidableEq

/-- A document. -/
abbrev Json := Tree JsonText JsonScalar

section

variable (py : Interpreter)

/-- The text `json.dumps` writes for a float. -/
def floatText : PyFloat → String
  | .finite x => py.floatRepr x
  | .infinity negative => if negative then "-Infinity" else "Infinity"
  | .nan _ => "NaN"

/-- A key as `json.dumps` writes it. -/
def dumpKey : Scalar → Except Exc JsonText
  | .str s => pure (dumpText s)
  | .surrogates s => pure (dumpText (.surrogates s))
  | .float x => pure (floatText py x)
  | .bool b => pure (if b then "true" else "false")
  | .none => pure "null"
  | .int n => pure (toString n)
  | a => throw ⟨.typeError,
      "keys must be str, int, float, bool or None, not " ++ a.typeName⟩

/-- A scalar as `json.dumps` writes it. -/
def dumpScalar : Scalar → Except Exc JsonScalar
  | .none => pure .null
  | .bool b => pure (.bool b)
  | .int n => pure (.int n)
  | .float (.finite x) => pure (.float x)
  | .float (.infinity negative) => pure (.infinity negative)
  | .float (.nan _) => pure .nan
  | .str s => pure (.str (dumpText s))
  | .surrogates s => pure (.str (dumpText (.surrogates s)))
  | a => throw ⟨.typeError, "Object of type " ++ a.typeName ++ " is not JSON serializable"⟩

/-- A scalar as `json.loads` reads it. -/
def loadScalar : JsonScalar → Scalar
  | .null => .none
  | .bool b => .bool b
  | .int n => .int n
  | .float x => .float (.finite x)
  | .infinity negative => .float (.infinity negative)
  | .nan => .float (.nan .decoder)
  | .str s => s.str.scalar

theorem dumpKey_scalar (s : PyStr) : dumpKey py s.scalar = .ok (dumpText s) := by
  cases s <;> rfl

/-- `json.dumps` and `json.loads`. -/
def json : Coding Scalar Scalar JsonText JsonScalar Exc where
  key := dumpKey py
  leaf := dumpScalar
  keyBack s := s.str.scalar
  leafBack := loadScalar
  key_keyBack s := by rw [dumpKey_scalar, dumpText_str]

/-- `job_to_dict`. -/
def jobToDict (job : JobRecord) : Value :=
  .dict (JobField.all.map fun field => (.str field.name, job.get field))

/-- What `save_state` writes. -/
def payload (now : ℚ) (jobs : List JobRecord) : Value :=
  .dict [(.str "saved_at", .leaf (.float (.finite now))), (.str "jobs", .list (jobs.map jobToDict))]

/-- `save_state`, up to the file. -/
def saveStateFile (now : ℚ) (jobs : List JobRecord) : Except Exc Json :=
  (json py).encode (payload now jobs)

/-- `load_state`, from the file on. -/
def loadStateFile (path : String) (file : Json) : Except Exc (List JobRecord) := do
  let data := (json py).decode file
  let raw ←
    match data with
    | .dict items => pure ((getKey "jobs" items).getD (.list []))
    | .list items => pure (.list items)
    | _ => throw (valueError ("unexpected state format in " ++ path))
  (← raw.iterate).mapM (jobFromDict py)

end

end Nodepilot
