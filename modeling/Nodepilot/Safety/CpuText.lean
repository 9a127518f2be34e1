import Nodepilot.Model.CpuList

/-!
# CPU-list text and CPU sets

`format_cpu_list` writes the maximal runs of a set in increasing order, and no other
text is written for the set; `parse_cpu_list` reads that text back.  What it reads
depends on the parts of a text alone, neither on their order nor on how often they
stand there, and one part that is no number and no range makes the whole call raise
`ValueError`.
-/

namespace Nodepilot

open Runs

/-! ## The texts that are written -/

/-- The text of a list of runs. -/
def listText (bounds : List (ℤ × ℤ)) : String :=
  String.ofList ([','].intercalate (bounds.map fun b => runText b.1 b.2))

/-- The text is made of separated runs in increasing order. -/
def Canonical (spec : String) : Prop :=
  ∃ bounds, Separated bounds ∧ (∀ b ∈ bounds, 0 ≤ b.1) ∧ spec = listText bounds

theorem strictly_sorted (s : Finset ℤ) : (sorted s).Pairwise (· < ·) := by
  have hne : (sorted s).Pairwise (· ≠ ·) := nodup_sorted s
  exact ((pairwise_sorted s).and hne).imp fun h => lt_of_le_of_ne h.1 h.2

theorem separated_sorted (s : Finset ℤ) : Separated (runs (sorted s)) :=
  separated_runs (strictly_sorted s)

theorem cover_sorted (s : Finset ℤ) : cover (runs (sorted s)) = s := by
  rw [cover_runs, toFinset_sorted]

theorem formatCpuList_eq_listText (cores : Finset ℤ) :
    formatCpuList cores = listText (runs (sorted cores)) :=
  formatCpuList_eq cores

/-- A text of separated runs is what its set is formatted to. -/
theorem Canonical.eq_format {spec : String} (h : Canonical spec) :
    ∃ cores : Finset ℤ, (∀ c ∈ cores, 0 ≤ c) ∧ spec = formatCpuList cores := by
  obtain ⟨bounds, hseparated, hnonneg, hspec⟩ := h
  refine ⟨cover bounds, fun c hc => ?_, ?_⟩
  · obtain ⟨b, hb, hlow, -⟩ := mem_cover.mp hc
    exact (hnonneg b hb).trans hlow
  · have hruns : runs (sorted (cover bounds)) = bounds :=
      (separated_sorted _).ext hseparated (cover_sorted _)
    rw [hspec, formatCpuList_eq_listText, hruns]

/-! ## The parts of a text -/

/-- What stands between the commas. -/
def parts (spec : String) : List (List Char) :=
  spec.toList.splitOn ','

theorem blank_of_strip {text : List Char} (h : Text.strip text = []) {c : Char} (hc : c ∈ text) :
    Text.blank c = true := by
  by_contra hblank
  exact Text.strip_ne_nil hc (by simpa using hblank) h

/-- The check for a blank text is a shortcut: the loop would find nothing in it. -/
theorem parseCpuList_eq (spec : String) : parseCpuList spec = parseParts ∅ (parts spec) := by
  unfold parseCpuList
  split
  · rename_i hblank
    have hcomma : ',' ∉ spec.toList := fun hmem => by
      have := blank_of_strip hblank hmem
      revert this
      decide
    have hsplit : parts spec = [spec.toList] := List.splitOn_eq_singleton hcomma
    rw [hsplit, parseParts, hblank]
    rfl
  · rfl

theorem pyInt_error {text : List Char} {e : Exc} (h : pyInt text = .error e) :
    e.cls = .valueError ∧ Text.parseInt text = none := by
  unfold pyInt at h
  split at h
  · cases h
  · rename_i hnone
    cases h
    exact ⟨rfl, hnone⟩

theorem pyInt_eq_ok {text : List Char} {n : ℤ} :
    pyInt text = .ok n ↔ Text.parseInt text = some n := by
  unfold pyInt
  split
  · rename_i value hvalue
    rw [hvalue, Except.ok.injEq, Option.some.injEq]
  · rename_i hnone
    simp [hnone]

theorem parsePart_error {part : List Char} {e : Exc} (h : parsePart part = .error e) :
    e.cls = .valueError := by
  unfold parsePart at h
  split at h
  · cases h
  · split at h
    · rcases except_bind_eq_error.mp h with h | ⟨lo, -, h⟩
      · exact (pyInt_error h).1
      · rcases except_bind_eq_error.mp h with h | ⟨hi, -, h⟩
        · exact (pyInt_error h).1
        · split at h
          · cases h
            rfl
          · cases h
    · rcases except_bind_eq_error.mp h with h | ⟨c, -, h⟩
      · exact (pyInt_error h).1
      · cases h

theorem parseParts_error {specs : List (List Char)} {out : Finset ℤ} {e : Exc}
    (h : parseParts out specs = .error e) : e.cls = .valueError := by
  induction specs generalizing out with
  | nil => cases h
  | cons part rest ih =>
      rw [parseParts] at h
      rcases except_bind_eq_error.mp h with h | ⟨cores, -, h⟩
      · exact parsePart_error h
      · exact ih h

/-- The text is read where every part is, as the union of what they say. -/
theorem parseParts_eq_ok {specs : List (List Char)} {out cores : Finset ℤ} :
    parseParts out specs = .ok cores ↔
      (∀ part ∈ specs, ∃ read, parsePart (Text.strip part) = .ok read) ∧
      ∀ c, c ∈ cores ↔ c ∈ out ∨
        ∃ part ∈ specs, ∃ read, parsePart (Text.strip part) = .ok read ∧ c ∈ read := by
  induction specs generalizing out with
  | nil =>
      simp only [parseParts, Except.ok.injEq, List.not_mem_nil, false_implies, implies_true,
        true_and, false_and, exists_false, or_false]
      exact ⟨fun h c => h ▸ Iff.rfl, fun h => Finset.ext fun c => (h c).symm⟩
  | cons part rest ih =>
      rw [parseParts, except_bind_eq_ok]
      constructor
      · rintro ⟨read, hread, hrest⟩
        obtain ⟨hall, hmem⟩ := ih.mp hrest
        refine ⟨List.forall_mem_cons.mpr ⟨⟨read, hread⟩, hall⟩, fun c => ?_⟩
        rw [hmem c, Finset.mem_union, List.exists_mem_cons_iff, or_assoc]
        simp [hread]
      · rintro ⟨hall, hmem⟩
        obtain ⟨⟨read, hread⟩, hall⟩ := List.forall_mem_cons.mp hall
        refine ⟨read, hread, ih.mpr ⟨hall, fun c => ?_⟩⟩
        rw [hmem c, Finset.mem_union, List.exists_mem_cons_iff, or_assoc]
        simp [hread]

/-- Two texts with the same parts are read alike, whatever the order of the parts and however
often they stand there. -/
theorem parseParts_congr {specs specs' : List (List Char)} {cores : Finset ℤ}
    (hsame : ∀ part, part ∈ specs' ↔ part ∈ specs) (h : parseParts ∅ specs = .ok cores) :
    parseParts ∅ specs' = .ok cores := by
  rw [parseParts_eq_ok] at h ⊢
  refine ⟨fun part hpart => h.1 part ((hsame part).mp hpart), fun c => ?_⟩
  rw [h.2 c]
  simp only [hsame]

theorem parseParts_fails {specs : List (List Char)} {part : List Char} {e : Exc}
    (hpart : part ∈ specs) (h : parsePart (Text.strip part) = .error e) :
    ∃ e', parseParts ∅ specs = .error e' ∧ e'.cls = .valueError := by
  cases hrun : parseParts ∅ specs with
  | error e' => exact ⟨e', rfl, parseParts_error hrun⟩
  | ok cores =>
      obtain ⟨read, hread⟩ := (parseParts_eq_ok.mp hrun).1 part hpart
      rw [h] at hread
      cases hread

/-! ## Ranges that are none -/

/-- The characters of a CPU list. -/
def ListChar (c : Char) : Prop :=
  c.isDigit = true ∨ c = '-' ∨ c = ',' ∨ Text.blank c = true

instance (c : Char) : Decidable (ListChar c) := by
  unfold ListChar
  infer_instance

/-- A side of the first hyphen has no digit. -/
def IncompleteRange (part : List Char) : Prop :=
  ∃ before after, part = before ++ '-' :: after ∧ '-' ∉ before ∧
    ((∀ c ∈ before, c.isDigit = false) ∨ ∀ c ∈ after, c.isDigit = false)

/-- The number after the first hyphen is less than the one before it. -/
def InvertedRange (part : List Char) : Prop :=
  ∃ before after lo hi, part = before ++ '-' :: after ∧ '-' ∉ before ∧
    Text.parseInt before = some lo ∧ Text.parseInt after = some hi ∧ hi < lo

/-- A part with a hyphen is read as the two sides of the first one. -/
theorem parsePart_hyphen {before after : List Char} (h : '-' ∉ before) :
    parsePart (before ++ '-' :: after) = (do
      let lo ← pyInt before
      let hi ← pyInt after
      if hi < lo then
        .error (valueError ("inverted CPU range: '" ++ String.ofList (before ++ '-' :: after) ++ "'"))
      else .ok (span lo hi).toFinset) := by
  have hkeep : ∀ c ∈ before, (c != '-') = true := by
    intro c hc
    simpa using fun heq : c = '-' => h (heq ▸ hc)
  have htake : (before ++ '-' :: after).takeWhile (· != '-') = before := by
    rw [List.takeWhile_append_of_pos hkeep]
    simp
  have hdrop : ((before ++ '-' :: after).dropWhile (· != '-')).drop 1 = after := by
    rw [List.dropWhile_append_of_pos hkeep]
    simp
  have hmem : '-' ∈ before ++ '-' :: after := by simp
  rw [parsePart, if_neg (List.ne_nil_of_mem hmem), if_pos hmem, htake, hdrop]

theorem digitValue_of_listChar {c : Char} (h : ListChar c) (hdigit : c.isDigit = false) :
    Text.digitValue c = none := by
  rcases h with h | rfl | rfl | h
  · rw [h] at hdigit
    cases hdigit
  · decide
  · decide
  · exact Text.digitValue_of_blank h

theorem parsePart_incomplete {part : List Char} (hchars : ∀ c ∈ part, ListChar c)
    (h : IncompleteRange part) : ∃ e, parsePart part = .error e := by
  have hnone : ∀ side : List Char, (∀ c ∈ side, ListChar c) → (∀ c ∈ side, c.isDigit = false) →
      ∃ e, pyInt side = .error e := by
    intro side hside hdigits
    have hparse : Text.parseInt side = none :=
      Text.parseInt_eq_none fun c hc => digitValue_of_listChar (hside c hc) (hdigits c hc)
    exact ⟨_, by rw [pyInt, hparse]⟩
  obtain ⟨before, after, rfl, hhyphen, hsides⟩ := h
  rw [parsePart_hyphen hhyphen]
  have hbefore : ∀ c ∈ before, ListChar c := fun c hc => hchars c (List.mem_append_left _ hc)
  have hafter : ∀ c ∈ after, ListChar c := fun c hc =>
    hchars c (List.mem_append_right _ (List.mem_cons_of_mem _ hc))
  rcases hsides with hdigits | hdigits
  · obtain ⟨e, he⟩ := hnone before hbefore hdigits
    exact ⟨e, by rw [he]; rfl⟩
  · obtain ⟨e, he⟩ := hnone after hafter hdigits
    cases hlo : pyInt before with
    | error e' => exact ⟨e', rfl⟩
    | ok lo => exact ⟨e, by rw [he]; rfl⟩

theorem parsePart_inverted {part : List Char} (h : InvertedRange part) :
    ∃ e, parsePart part = .error e := by
  obtain ⟨before, after, lo, hi, rfl, hhyphen, hlo, hhi, hlt⟩ := h
  rw [parsePart_hyphen hhyphen, pyInt_eq_ok.mpr hlo, pyInt_eq_ok.mpr hhi]
  exact ⟨_, if_pos hlt⟩

theorem mem_of_mem_strip {text : List Char} {c : Char} (hc : c ∈ Text.strip text) : c ∈ text :=
  (List.dropWhile_sublist _).mem ((List.rdropWhile_prefix _ _).sublist.mem hc)

theorem mem_intercalate {specs : List (List Char)} {part : List Char} (hpart : part ∈ specs)
    {c : Char} (hc : c ∈ part) : c ∈ [','].intercalate specs := by
  induction specs with
  | nil => cases hpart
  | cons first rest ih =>
      rcases List.mem_cons.mp hpart with rfl | hpart
      · exact head_mem_intercalate hc
      · cases rest with
        | nil => cases hpart
        | cons next more => simp [ih hpart]

/-- The characters of the parts are those of the text. -/
theorem mem_of_mem_parts {spec : String} {part : List Char} (h : part ∈ parts spec) {c : Char}
    (hc : c ∈ part) : c ∈ spec.toList := by
  have hjoin : [','].intercalate (parts spec) = spec.toList := List.intercalate_splitOn ','
  rw [← hjoin]
  exact mem_intercalate h hc

/-! ## The correspondence -/

/-- Sets of CPUs and their texts correspond: the text of a set lists its maximal runs and reads
back; a text that is read gives no negative id, the same for all orders and repetitions of its
parts, and is the text of what it says if it is canonical; and a range that is incomplete or
inverted makes the whole call raise `ValueError`. -/
theorem cpu_list_text :
    (∀ cores : Finset ℤ, (∀ c ∈ cores, 0 ≤ c) →
      parseCpuList (formatCpuList cores) = .ok cores ∧
      ∃ bounds, formatCpuList cores = listText bounds ∧ bounds.Pairwise (fun a b => a.2 < b.1) ∧
        ∀ b, b ∈ bounds ↔ MaximalRun cores b) ∧
    ∀ spec : String, (∀ c ∈ spec.toList, ListChar c) →
      (∀ cores, parseCpuList spec = .ok cores →
        (∀ c ∈ cores, 0 ≤ c) ∧
        (∀ other, (∀ part, part ∈ parts other ↔ part ∈ parts spec) →
          parseCpuList other = .ok cores) ∧
        (Canonical spec → formatCpuList cores = spec)) ∧
      ∀ part ∈ parts spec,
        IncompleteRange (Text.strip part) ∨ InvertedRange (Text.strip part) →
        ∃ e, parseCpuList spec = .error e ∧ e.cls = .valueError := by
  refine ⟨fun cores hnonneg => ⟨parse_format hnonneg, runs (sorted cores), ?_, ?_, fun b => ?_⟩,
    fun spec hchars => ⟨fun cores hparse => ⟨nonneg_of_parseCpuList hparse, ?_, ?_⟩, ?_⟩⟩
  · exact formatCpuList_eq_listText cores
  · exact (separated_sorted cores).gaps.imp fun h => by omega
  · rw [(separated_sorted cores).mem_iff, cover_sorted]
  · intro other hsame
    rw [parseCpuList_eq] at hparse ⊢
    exact parseParts_congr hsame hparse
  · intro hcanonical
    obtain ⟨written, hwritten, rfl⟩ := hcanonical.eq_format
    rw [parse_format hwritten, Except.ok.injEq] at hparse
    rw [hparse]
  · intro part hpart hbad
    rw [parseCpuList_eq]
    have hpartChars : ∀ c ∈ Text.strip part, ListChar c := fun c hc =>
      hchars c (mem_of_mem_parts hpart (mem_of_mem_strip hc))
    rcases hbad with hincomplete | hinverted
    · obtain ⟨e, he⟩ := parsePart_incomplete hpartChars hincomplete
      exact parseParts_fails hpart he
    · obtain ⟨e, he⟩ := parsePart_inverted hinverted
      exact parseParts_fails hpart he

/-- A set of two runs, and a text with an inverted range after a good part. -/
theorem cpu_list_text_small :
    parseCpuList (formatCpuList {0, 1, 2, 3, 8}) = .ok {0, 1, 2, 3, 8} ∧
      ∃ e, parseCpuList "8, 3-1" = .error e ∧ e.cls = .valueError := by
  have hinverted : InvertedRange (Text.strip [' ', '3', '-', '1']) :=
    ⟨['3'], ['1'], 3, 1, by decide, by decide, by decide, by decide, by decide⟩
  have hall : "8, 3-1".toList.all (fun c => decide (ListChar c)) = true := by decide
  have hchars : ∀ c ∈ "8, 3-1".toList, ListChar c := fun c hc =>
    of_decide_eq_true (List.all_eq_true.mp hall c hc)
  have hpart : [' ', '3', '-', '1'] ∈ parts "8, 3-1" := by decide
  exact ⟨(cpu_list_text.1 {0, 1, 2, 3, 8} (by decide)).1,
    (cpu_list_text.2 "8, 3-1" hchars).2 _ hpart (.inr hinverted)⟩

end Nodepilot
