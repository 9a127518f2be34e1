import Nodepilot.Lib.Runs
import Nodepilot.Model.Python

/-!
# CPU-list text

`parse_cpu_list` and `format_cpu_list` of `numa.py`.  A set of CPU ids is a
`Finset ℤ`, as the source has a `set[int]`; that parsed ids are never negative
is a theorem (`nonneg_of_parseCpuList`).  `parse_format` is the round trip the
scheduler rests on: the block a placement writes into `cpu_list` is the block
`_occupied_cores` reads back.
-/

namespace Nodepilot

open Runs

/-- `sorted(s)` of a set of integers. -/
def sorted (s : Finset ℤ) : List ℤ :=
  Quot.liftOn s.1 (fun cores => cores.insertionSort (· ≤ ·)) fun a b hperm =>
    ((List.perm_insertionSort (· ≤ ·) a).trans (hperm.trans
      (List.perm_insertionSort (· ≤ ·) b).symm)).eq_of_pairwise'
      (List.pairwise_insertionSort _ _) (List.pairwise_insertionSort _ _)

/-! ## Parsing -/

/-- `int(text)`, raising on a malformed numeral. -/
def pyInt (text : List Char) : Except Exc ℤ :=
  match Text.parseInt text with
  | some n => .ok n
  | none => .error (valueError
      ("invalid literal for int() with base 10: '" ++ String.ofList text ++ "'"))

/-- One comma-separated part, already stripped. -/
def parsePart (part : List Char) : Except Exc (Finset ℤ) :=
  if part = [] then .ok ∅
  else if '-' ∈ part then do
    let lo ← pyInt (part.takeWhile (· != '-'))
    let hi ← pyInt ((part.dropWhile (· != '-')).drop 1)
    if hi < lo then .error (valueError ("inverted CPU range: '" ++ String.ofList part ++ "'"))
    else .ok (span lo hi).toFinset
  else do
    let c ← pyInt part
    .ok {c}

/-- The loop of `parse_cpu_list` over the parts. -/
def parseParts (out : Finset ℤ) : List (List Char) → Except Exc (Finset ℤ)
  | [] => .ok out
  | part :: rest => do
      let cores ← parsePart (Text.strip part)
      parseParts (out ∪ cores) rest

/-- `parse_cpu_list`. -/
def parseCpuList (spec : String) : Except Exc (Finset ℤ) :=
  if Text.strip spec.toList = [] then .ok ∅
  else parseParts ∅ (spec.toList.splitOn ',')

/-! ## Formatting -/

/-- `str(n)` of a CPU id. -/
def intText (n : ℤ) : List Char :=
  if n < 0 then '-' :: Nat.toDigits 10 n.natAbs else Nat.toDigits 10 n.natAbs

/-- `_run`. -/
def runText (lo hi : ℤ) : List Char :=
  if lo = hi then intText lo else intText lo ++ '-' :: intText hi

/-- The loop of `format_cpu_list`, with the parts so far and the run being read. -/
def formatLoop (parts : List (List Char)) (runStart prev : ℤ) : List ℤ → List (List Char)
  | [] => parts ++ [runText runStart prev]
  | c :: rest =>
      if c = prev + 1 then formatLoop parts runStart c rest
      else formatLoop (parts ++ [runText runStart prev]) c c rest

/-- `format_cpu_list`. -/
def formatCpuList (cores : Finset ℤ) : String :=
  match sorted cores with
  | [] => ""
  | first :: rest => String.ofList ([','].intercalate (formatLoop [] first first rest))

/-! ## The sorted list of a set -/

theorem mem_sorted {s : Finset ℤ} {c : ℤ} : c ∈ sorted s ↔ c ∈ s := by
  obtain ⟨cores, hnodup⟩ := s
  induction cores using Quot.inductionOn with
  | h cores => exact List.mem_insertionSort (· ≤ ·)

theorem nodup_sorted (s : Finset ℤ) : (sorted s).Nodup := by
  obtain ⟨cores, hnodup⟩ := s
  induction cores using Quot.inductionOn with
  | h cores => exact (List.perm_insertionSort (· ≤ ·) cores).nodup_iff.mpr hnodup

theorem pairwise_sorted (s : Finset ℤ) : (sorted s).Pairwise (· ≤ ·) := by
  obtain ⟨cores, hnodup⟩ := s
  induction cores using Quot.inductionOn with
  | h cores => exact List.pairwise_insertionSort (· ≤ ·) cores

theorem toFinset_sorted (s : Finset ℤ) : (sorted s).toFinset = s := by
  ext c
  rw [List.mem_toFinset, mem_sorted]

theorem length_sorted (s : Finset ℤ) : (sorted s).length = s.card := by
  rw [← List.toFinset_card_of_nodup (nodup_sorted s), toFinset_sorted]

/-! ## What the formatter writes -/

theorem formatLoop_eq (parts : List (List Char)) (runStart prev : ℤ) (rest : List ℤ) :
    formatLoop parts runStart prev rest =
      parts ++ (runsFrom runStart prev rest).map fun bounds => runText bounds.1 bounds.2 := by
  induction rest generalizing parts runStart prev with
  | nil => simp [formatLoop, runsFrom]
  | cons c rest ih =>
      by_cases hc : c = prev + 1
      · rw [formatLoop, runsFrom, if_pos hc, if_pos hc, ih]
      · rw [formatLoop, runsFrom, if_neg hc, if_neg hc, ih, List.map_cons, List.append_assoc]
        rfl

/-- The parts of a formatted list are the texts of its maximal runs. -/
theorem formatCpuList_eq (cores : Finset ℤ) :
    formatCpuList cores =
      String.ofList ([','].intercalate
        ((runs (sorted cores)).map fun bounds => runText bounds.1 bounds.2)) := by
  unfold formatCpuList
  cases sorted cores with
  | nil => rfl
  | cons first rest =>
      show String.ofList ([','].intercalate (formatLoop [] first first rest)) = _
      rw [formatLoop_eq, List.nil_append]
      rfl

/-- The characters of a run: ASCII digits and at most one hyphen. -/
theorem intText_of_nonneg {n : ℤ} (h : 0 ≤ n) : intText n = Nat.toDigits 10 n.natAbs := by
  rw [intText, if_neg (by omega)]

theorem isDigit_of_mem_intText {n : ℤ} (h : 0 ≤ n) {c : Char} (hc : c ∈ intText n) :
    c.isDigit = true := by
  rw [intText_of_nonneg h] at hc
  exact Nat.isDigit_of_mem_toDigits (by decide) (by decide) hc

theorem mem_runText {lo hi : ℤ} (hlo : 0 ≤ lo) (hhi : 0 ≤ hi) {c : Char}
    (hc : c ∈ runText lo hi) : c.isDigit = true ∨ c = '-' := by
  unfold runText at hc
  split at hc
  · exact Or.inl (isDigit_of_mem_intText hlo hc)
  · rcases List.mem_append.mp hc with hc | hc
    · exact Or.inl (isDigit_of_mem_intText hlo hc)
    · rcases List.mem_cons.mp hc with rfl | hc
      · exact Or.inr rfl
      · exact Or.inl (isDigit_of_mem_intText hhi hc)

theorem runText_ne_nil (lo hi : ℤ) : runText lo hi ≠ [] := by
  have hint : ∀ n : ℤ, intText n ≠ [] := by
    intro n
    unfold intText
    split
    · exact List.cons_ne_nil _ _
    · exact Nat.toDigits_ne_nil
  unfold runText
  split
  · exact hint lo
  · exact List.append_ne_nil_of_left_ne_nil (hint lo) _

theorem strip_runText {lo hi : ℤ} (hlo : 0 ≤ lo) (hhi : 0 ≤ hi) :
    Text.strip (runText lo hi) = runText lo hi := by
  apply Text.trim_eq_self
  intro c hc
  rcases mem_runText hlo hhi hc with hdigit | rfl
  · exact Text.blank_of_isDigit hdigit
  · decide

/-! ## What the parser reads back -/

theorem pyInt_intText {n : ℤ} (h : 0 ≤ n) : pyInt (intText n) = .ok n := by
  rw [pyInt, intText_of_nonneg h, Text.parseInt_toDigits]
  exact congrArg Except.ok (by omega)

theorem span_self (c : ℤ) : (span c c).toFinset = {c} := by
  ext d
  rw [List.mem_toFinset, mem_span, Finset.mem_singleton]
  omega

theorem parsePart_runText {lo hi : ℤ} (hlo : 0 ≤ lo) (hle : lo ≤ hi) :
    parsePart (runText lo hi) = .ok (span lo hi).toFinset := by
  have hdigits : ∀ n : ℤ, 0 ≤ n → ∀ c ∈ intText n, c ≠ '-' := fun n hn c hc =>
    Text.ne_of_isDigit (isDigit_of_mem_intText hn hc) (by decide)
  rw [parsePart, if_neg (runText_ne_nil lo hi)]
  by_cases heq : lo = hi
  · subst heq
    have hhyphen : '-' ∉ intText lo := fun hmem => hdigits lo hlo _ hmem rfl
    rw [runText, if_pos rfl, if_neg hhyphen, pyInt_intText hlo, span_self]
    rfl
  · have hsplit : runText lo hi = intText lo ++ '-' :: intText hi := by
      rw [runText, if_neg heq]
    have hkeep : ∀ c ∈ intText lo, (c != '-') = true := fun c hc => by
      simpa using hdigits lo hlo c hc
    have htake : (runText lo hi).takeWhile (· != '-') = intText lo := by
      rw [hsplit, List.takeWhile_append_of_pos hkeep]
      simp
    have hdrop : ((runText lo hi).dropWhile (· != '-')).drop 1 = intText hi := by
      rw [hsplit, List.dropWhile_append_of_pos hkeep]
      simp
    have hhyphen : '-' ∈ runText lo hi := by simp [hsplit]
    rw [if_pos hhyphen, htake, hdrop, pyInt_intText hlo, pyInt_intText (hlo.trans hle)]
    simp only [bind, Except.bind, if_neg (not_lt.mpr hle)]

theorem parseParts_runText {bounds : List (ℤ × ℤ)}
    (h : ∀ b ∈ bounds, 0 ≤ b.1 ∧ b.1 ≤ b.2) (out : Finset ℤ) :
    parseParts out (bounds.map fun b => runText b.1 b.2) = .ok (out ∪ cover bounds) := by
  induction bounds generalizing out with
  | nil => simp [parseParts, cover]
  | cons b rest ih =>
      obtain ⟨hlo, hle⟩ := h b (List.mem_cons_self ..)
      have hpart : parsePart (Text.strip (runText b.1 b.2)) = .ok (span b.1 b.2).toFinset := by
        rw [strip_runText hlo (hlo.trans hle), parsePart_runText hlo hle]
      rw [List.map_cons, parseParts, hpart, cover, ← Finset.union_assoc]
      exact ih (fun d hd => h d (List.mem_cons_of_mem _ hd)) _

/-- The first character of the first part survives in the joined list. -/
theorem head_mem_intercalate {c : Char} {part : List Char} {rest : List (List Char)}
    (hc : c ∈ part) : c ∈ [','].intercalate (part :: rest) := by
  cases rest with
  | nil => simpa using hc
  | cons next more => simp [hc]

/-- Formatting a set of CPU ids and parsing the text gives the set back. -/
theorem parse_format {cores : Finset ℤ} (h : ∀ c ∈ cores, 0 ≤ c) :
    parseCpuList (formatCpuList cores) = .ok cores := by
  set bounds := runs (sorted cores) with hbounds
  have hvalid : ∀ b ∈ bounds, 0 ≤ b.1 ∧ b.1 ≤ b.2 := by
    intro b hb
    obtain ⟨hle, hmem⟩ := mem_of_mem_runs hb
    exact ⟨h _ (mem_sorted.mp hmem), hle⟩
  have hcover : cover bounds = cores := by
    rw [hbounds, cover_runs, toFinset_sorted]
  rw [formatCpuList_eq, ← hbounds, parseCpuList, String.toList_ofList]
  by_cases hnil : bounds = []
  · rw [hnil] at hcover ⊢
    rw [← hcover]
    rfl
  · set parts := bounds.map fun b => runText b.1 b.2 with hparts
    have hne : parts ≠ [] := by simpa [hparts] using hnil
    have hstrip : Text.strip ([','].intercalate parts) ≠ [] := by
      obtain ⟨b, rest, hfirst⟩ := List.exists_cons_of_ne_nil hnil
      obtain ⟨hlo, hle⟩ := hvalid b (by simp [hfirst])
      obtain ⟨c, hc⟩ := List.exists_mem_of_ne_nil _ (runText_ne_nil b.1 b.2)
      have hmem : c ∈ [','].intercalate parts := by
        rw [hparts, hfirst, List.map_cons]
        exact head_mem_intercalate hc
      rcases mem_runText hlo (hlo.trans hle) hc with hdigit | rfl
      · exact Text.strip_ne_nil hmem (Text.blank_of_isDigit hdigit)
      · exact Text.strip_ne_nil hmem (by decide)
    have hcommas : ∀ part ∈ parts, ',' ∉ part := by
      intro part hpart hmem
      obtain ⟨b, hb, rfl⟩ := List.mem_map.mp hpart
      obtain ⟨hlo, hle⟩ := hvalid b hb
      rcases mem_runText hlo (hlo.trans hle) hmem with hdigit | heq
      · exact absurd hdigit (by decide)
      · exact absurd heq (by decide)
    rw [if_neg hstrip, List.splitOn_intercalate ',' hcommas hne,
      hparts, parseParts_runText hvalid, Finset.empty_union, hcover]

/-! ## Parsed ids are not negative -/

theorem nonneg_of_pyInt {text : List Char} (h : '-' ∉ text) {n : ℤ}
    (hn : pyInt text = .ok n) : 0 ≤ n := by
  have hhead : ∀ rest, Text.trim Text.intBlank text ≠ '-' :: rest := by
    intro rest heq
    have hmem : '-' ∈ Text.trim Text.intBlank text := by rw [heq]; exact List.mem_cons_self ..
    exact h ((List.dropWhile_sublist _).mem ((List.rdropWhile_prefix _ _).sublist.mem hmem))
  unfold pyInt Text.parseInt at hn
  split at hn
  · rename_i value hvalue
    cases hn
    split at hvalue
    · rename_i rest heq
      exact absurd heq (hhead rest)
    all_goals
      obtain ⟨k, -, rfl⟩ := Option.map_eq_some_iff.mp hvalue
      exact Int.natCast_nonneg k
  · cases hn

theorem nonneg_of_parsePart {part : List Char} {cores : Finset ℤ}
    (h : parsePart part = .ok cores) {c : ℤ} (hc : c ∈ cores) : 0 ≤ c := by
  unfold parsePart at h
  split at h
  · cases h
    exact absurd hc (Finset.notMem_empty c)
  split at h
  · -- a range: its lower bound has no hyphen, so no sign either
    have hlower : '-' ∉ part.takeWhile (· != '-') := fun hmem => by
      simpa using List.mem_takeWhile_imp hmem
    obtain ⟨lo, hlo, h⟩ := except_bind_eq_ok.mp h
    obtain ⟨hi, -, h⟩ := except_bind_eq_ok.mp h
    split at h
    · cases h
    · cases h
      exact (nonneg_of_pyInt hlower hlo).trans (mem_span.mp (List.mem_toFinset.mp hc)).1
  · rename_i hhyphen
    obtain ⟨value, hvalue, h⟩ := except_bind_eq_ok.mp h
    cases h
    rw [Finset.mem_singleton.mp hc]
    exact nonneg_of_pyInt hhyphen hvalue

theorem nonneg_of_parseParts {parts : List (List Char)} {out cores : Finset ℤ}
    (hout : ∀ c ∈ out, 0 ≤ c) (h : parseParts out parts = .ok cores) : ∀ c ∈ cores, 0 ≤ c := by
  induction parts generalizing out with
  | nil =>
      cases h
      exact hout
  | cons part rest ih =>
      obtain ⟨first, hfirst, h⟩ := except_bind_eq_ok.mp h
      refine ih (fun c hc => ?_) h
      rcases Finset.mem_union.mp hc with hc | hc
      · exact hout c hc
      · exact nonneg_of_parsePart hfirst hc

/-- `parse_cpu_list` never returns a negative id. -/
theorem nonneg_of_parseCpuList {spec : String} {cores : Finset ℤ}
    (h : parseCpuList spec = .ok cores) : ∀ c ∈ cores, 0 ≤ c := by
  unfold parseCpuList at h
  split at h
  · cases h
    simp
  · exact nonneg_of_parseParts (by simp) h

/-- A non-empty set never formats to the empty text, which stands for "not placed". -/
theorem formatCpuList_ne_empty {cores : Finset ℤ} (h : cores.Nonempty) :
    formatCpuList cores ≠ "" := by
  rw [formatCpuList_eq]
  obtain ⟨c, hc⟩ := h
  have hne : runs (sorted cores) ≠ [] :=
    runs_ne_nil (List.ne_nil_of_mem (mem_sorted.mpr hc))
  obtain ⟨b, rest, hruns⟩ := List.exists_cons_of_ne_nil hne
  intro hempty
  have hlist : [','].intercalate
      ((runs (sorted cores)).map fun bounds => runText bounds.1 bounds.2) = [] := by
    simpa using congrArg String.toList hempty
  obtain ⟨d, hd⟩ := List.exists_mem_of_ne_nil _ (runText_ne_nil b.1 b.2)
  have hmem : d ∈ [','].intercalate
      ((runs (sorted cores)).map fun bounds => runText bounds.1 bounds.2) := by
    rw [hruns, List.map_cons]
    exact head_mem_intercalate hd
  rw [hlist] at hmem
  exact List.not_mem_nil hmem

example : formatCpuList {0, 1, 2, 3, 8} = "0-3,8" := by decide

example : (parseCpuList "0-3, 8 ,12-13").toOption = some {0, 1, 2, 3, 8, 12, 13} := by decide

end Nodepilot
