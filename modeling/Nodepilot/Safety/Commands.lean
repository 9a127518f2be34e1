import Nodepilot.Lib.Shlex
import Nodepilot.Safety.Numerals
import Nodepilot.Machine.Trial

/-!
# Command lines

`build_command` puts the prefix of a placement in front of the command of a job, and a
scope around the two where a slice is configured and `systemd-run` can be used; what it
was given stands at the end of the line unchanged.  A session gets all of it as one line of
text, from which `shlex.split` reads back the same arguments.

The limits of a scope are printed to six digits.  `MemoryHigh` is printed below
`MemoryMax` as soon as the latter is above one GiB.
-/

namespace Nodepilot

open Obeys

/-! ## Sizes -/

/-- The amounts of memory that are printed without a sign and an exponent. -/
def Readable (ramGb : ℚ) : Prop :=
  0 ≤ ramGb ∧ Ordinary ramGb

instance (ramGb : ℚ) : Decidable (Readable ramGb) := by
  unfold Readable
  infer_instance

theorem significant_one : significant 1 = 1 := by
  simpa using significant_of_digits (n := 1) (k := 0) (by norm_num)

/-- A limit below a readable one is readable if it is not too small. -/
theorem Readable.of_le {x y : ℚ} (h : Readable y) (hone : 1 ≤ x) (hle : x ≤ y) : Readable x := by
  have hx : 0 < x := one_pos.trans_le hone
  have hy : 0 < y := hx.trans_le hle
  have hlow : 1 ≤ significant x := by
    calc (1 : ℚ) = significant 1 := significant_one.symm
      _ ≤ significant x := significant_mono one_pos hone
  refine ⟨hx.le, Or.inr ?_⟩
  rw [abs_of_pos hx]
  refine ⟨le_trans (by norm_num) hlow, (significant_mono hx hle).trans_lt ?_⟩
  rcases h.2 with hzero | hbounds
  · exact absurd hzero hy.ne'
  · rw [abs_of_pos hy] at hbounds
    exact hbounds.2

/-- The throttle of a readable limit is readable. -/
theorem Readable.high {ramGb highHeadroomGb : ℚ} (h : Readable ramGb) (hroom : 0 ≤ highHeadroomGb) :
    Readable (max 1 (ramGb - highHeadroomGb)) := by
  by_cases hone : 1 ≤ ramGb
  · exact h.of_le (le_max_left ..) (max_le hone (by linarith))
  · rw [max_eq_left (by linarith)]
    refine ⟨zero_le_one, Or.inr ?_⟩
    rw [abs_one, significant_one]
    norm_num

/-- A readable amount is below a million. -/
theorem Readable.lt {x : ℚ} (h : Readable x) : x < 10 ^ 6 := by
  by_contra hmillion
  have hle : (10 : ℚ) ^ 6 ≤ x := not_lt.mp hmillion
  have hx : 0 < x := by linarith
  have hsame : significant (10 ^ 6) = 10 ^ 6 := by
    simpa using significant_of_digits (n := 1) (k := 6) (by norm_num)
  have hbelow : significant x < 10 ^ 6 := by
    rcases h.2 with hzero | hbounds
    · exact absurd hzero hx.ne'
    · rw [abs_of_pos hx] at hbounds
      exact_mod_cast hbounds.2
  have hover : (10 : ℚ) ^ 6 ≤ significant x := by
    calc (10 : ℚ) ^ 6 = significant (10 ^ 6) := hsame.symm
      _ ≤ significant x := significant_mono (by norm_num) hle
  linarith

theorem magnitude_of_readable {x : ℚ} (h : Readable x) :
    Decimal.magnitude (formatGeneral x).toList = some (significant x) := by
  rw [magnitude_formatGeneral, if_pos (show 0 ≤ x ∧ Ordinary x from h)]

/-! ## Scopes -/

/-- The throttle is below the limit, as they are printed, if the limit is above one. -/
theorem significant_high_lt_iff {ramGb highHeadroomGb : ℚ} (h : Readable ramGb)
    (hroom : 1 < highHeadroomGb) :
    significant (max 1 (ramGb - highHeadroomGb)) < significant ramGb ↔ 1 < significant ramGb := by
  constructor
  · intro hlt
    calc (1 : ℚ) = significant 1 := significant_one.symm
      _ ≤ significant (max 1 (ramGb - highHeadroomGb)) := significant_mono one_pos (le_max_left ..)
      _ < significant ramGb := hlt
  · intro hlimit
    by_cases hfloor : ramGb - highHeadroomGb ≤ 1
    · rw [max_eq_left hfloor, significant_one]
      exact hlimit
    · rw [max_eq_right (not_le.mp hfloor).le]
      exact significant_lt (by linarith) (by linarith) h.lt

/-- The scope keeps the command it is wrapped around.  If the memory of the job is printed
as a plain number, so are its two limits: `MemoryMax` is that memory to six digits, and
`MemoryHigh` the memory less the headroom, but one GiB at least; it is below `MemoryMax`
exactly if that is above one GiB. -/
theorem scope_limits (site : Site) (argv : List String) (jobId : String) (ramGb : ℚ)
    (sliceName : String) (swapMax : ℤ) (highHeadroomGb : ℚ) (hroom : 1 < highHeadroomGb) :
    ∃ (options : List String) (limitText highText : String),
      wrapScopeCommand site argv jobId ramGb sliceName swapMax highHeadroomGb =
        options ++ ["-p", "MemoryMax=" ++ limitText ++ "G",
          "-p", "MemorySwapMax=" ++ String.ofList (intText swapMax),
          "-p", "MemoryHigh=" ++ highText ++ "G"] ++ argv ∧
      "--slice=" ++ sliceName ∈ options ∧ "--unit=" ++ scopeUnitName site jobId ∈ options ∧
      (Readable ramGb → ∃ limit high, Decimal.magnitude limitText.toList = some limit ∧
        Decimal.magnitude highText.toList = some high ∧
        |limit - ramGb| ≤ 5 / 10 ^ 6 * ramGb ∧
        (∀ (n : ℕ) (k : ℤ), n < 10 ^ 6 → ramGb = n * 10 ^ k → limit = ramGb) ∧
        |high - max 1 (ramGb - highHeadroomGb)| ≤ 5 / 10 ^ 6 * max 1 (ramGb - highHeadroomGb) ∧
        1 ≤ high ∧ (high < limit ↔ 1 < limit)) ∧
      (¬ Readable ramGb → Decimal.magnitude limitText.toList = none) := by
  refine ⟨["systemd-run", "--user", "--scope", "--quiet", "--collect", "--no-block",
    "--slice=" ++ sliceName, "--unit=" ++ scopeUnitName site jobId], formatGeneral ramGb,
    formatGeneral (max 1 (ramGb - highHeadroomGb)), rfl, by simp, by simp, fun hram => ?_,
    fun hram => ?_⟩
  · have hhigh : Readable (max 1 (ramGb - highHeadroomGb)) := hram.high (by linarith)
    refine ⟨significant ramGb, significant (max 1 (ramGb - highHeadroomGb)),
      magnitude_of_readable hram, magnitude_of_readable hhigh, ?_, ?_, ?_, ?_,
      significant_high_lt_iff hram hroom⟩
    · simpa [abs_of_nonneg hram.1] using abs_significant_sub_le ramGb
    · rintro n k hn rfl
      exact significant_of_digits hn
    · have hnear := abs_significant_sub_le (max 1 (ramGb - highHeadroomGb))
      rwa [abs_of_nonneg hhigh.1] at hnear
    · calc (1 : ℚ) = significant 1 := significant_one.symm
        _ ≤ significant (max 1 (ramGb - highHeadroomGb)) := significant_mono one_pos (le_max_left ..)
  · rw [magnitude_formatGeneral, if_neg fun h : 0 ≤ ramGb ∧ Ordinary ramGb => hram h]

/-- Sixteen and a half gibibytes. -/
theorem scope_limits_plain : ∃ (options : List String) (limitText highText : String) (high : ℚ),
    wrapScopeCommand (smallSite []) ["bash", "-lc", "true"] "a" (33 / 2) "n.slice" =
      options ++ ["-p", "MemoryMax=" ++ limitText ++ "G", "-p", "MemorySwapMax=0",
        "-p", "MemoryHigh=" ++ highText ++ "G"] ++ ["bash", "-lc", "true"] ∧
    Decimal.magnitude limitText.toList = some (33 / 2) ∧
    Decimal.magnitude highText.toList = some high ∧ high < 33 / 2 := by
  obtain ⟨options, limitText, highText, hline, -, -, hread, -⟩ :=
    scope_limits (smallSite []) ["bash", "-lc", "true"] "a" (33 / 2) "n.slice" 0 4 (by norm_num)
  obtain ⟨limit, high, hlimit, hhigh, -, hexact, -, -, hlt⟩ := hread (by decide +kernel)
  have hsame : limit = 33 / 2 := hexact 165 (-1) (by norm_num) (by norm_num)
  refine ⟨options, limitText, highText, high, hline, hsame ▸ hlimit, hhigh, ?_⟩
  rw [← hsame]
  exact hlt.mpr (by rw [hsame]; norm_num)

/-! ## Commands -/

/-- The host has a program wherever it is looked for. -/
def Finds (W : Type) [Host W] (program : String) : Prop :=
  ∀ (w w' : W) (b : Bool), Host.answer (.which program) w = .ok b w' → b = true

/-- The host has a user bus wherever one is looked for. -/
def HasBus (W : Type) [Host W] : Prop :=
  ∀ (w w' : W) (runtime : Option String), Host.answer .runtimeDir w = .ok runtime w' →
    ∃ dir, runtime = some dir ∧ dir ≠ ""

/-- What may stand in front of a command that is placed on CPUs. -/
inductive Prefixed (W : Type) [Host W] (cpuList policy : String) : List String → Prop
  | bare (h : cpuList = "" ∨ ¬ Finds W "numactl" ∧ ¬ Finds W "taskset") :
      Prefixed W cpuList policy []
  | numactl (h : cpuList ≠ "") :
      Prefixed W cpuList policy ["numactl", "--physcpubind=" ++ cpuList, policy]
  | taskset (h : cpuList ≠ "") (hnot : ¬ Finds W "numactl") :
      Prefixed W cpuList policy ["taskset", "-c", cpuList]

/-- What may stand around the command line of a job. -/
inductive Wrapped (W : Type) [Host W] (site : Site) (job : Job) (placed : List String) :
    List String → Prop
  | bare (h : site.config.memorySlice = "" ∨ ¬ (Finds W "systemd-run" ∧ HasBus W)) :
      Wrapped W site job placed placed
  | scope (h : site.config.memorySlice ≠ "") :
      Wrapped W site job placed
        (wrapScopeCommand site placed job.id job.ramGb site.config.memorySlice)

/-- The memory option of a placement. -/
def policyText (interleave : Bool) (node : ℤ) : String :=
  if interleave then "--interleave=all" else "--membind=" ++ String.ofList (intText node)

section Building

variable {W : Type} [Host W] {placement : Placement} {s s' : Sys W}

/-- The prefix of a placement. -/
theorem placementPrefix_eq_ok {words : List String} (h : placementPrefix placement s = .ok words s') :
    Prefixed W placement.cpuList (policyText placement.interleave placement.node) words := by
  rw [placementPrefix] at h
  split at h
  · rename_i hempty
    cases h
    exact .bare (Or.inl hempty)
  · rename_i hplaced
    obtain ⟨numactl, s₁, hcall, h⟩ := bind_eq_ok.mp h
    obtain ⟨w₁, hnumactl, rfl⟩ := call_eq_ok.mp hcall
    cases numactl with
    | true =>
        cases h
        exact .numactl hplaced
    | false =>
        have hnot : ¬ Finds W "numactl" := fun hfinds => by
          cases hfinds _ _ _ hnumactl
        obtain ⟨taskset, s₂, hcall, h⟩ := bind_eq_ok.mp h
        obtain ⟨w₂, htaskset, rfl⟩ := call_eq_ok.mp hcall
        cases taskset with
        | true =>
            cases h
            exact .taskset hplaced hnot
        | false =>
            cases h
            exact .bare (Or.inr ⟨hnot, fun hfinds => by cases hfinds _ _ _ htaskset⟩)

theorem systemdRunAvailable_eq_ok {available : Bool} (h : systemdRunAvailable s = .ok available s')
    (hfinds : Finds W "systemd-run") (hbus : HasBus W) : available = true := by
  obtain ⟨found, s₁, hcall, h⟩ := bind_eq_ok.mp h
  obtain ⟨w₁, hfound, rfl⟩ := call_eq_ok.mp hcall
  rw [hfinds _ _ _ hfound] at h
  obtain ⟨runtime, s₂, hcall, h⟩ := bind_eq_ok.mp h
  obtain ⟨w₂, hruntime, rfl⟩ := call_eq_ok.mp hcall
  obtain ⟨dir, rfl, hne⟩ := hbus _ _ _ hruntime
  simp only [if_pos hne] at h
  cases h
  rfl

/-- What `build_command` makes of the command of a job. -/
theorem buildCommand_eq_ok {site : Site} {job : Job} {argv : List String}
    (h : buildCommand site job placement s = .ok argv s') :
    ∃ words, Prefixed W placement.cpuList (policyText placement.interleave placement.node) words ∧
      Wrapped W site job (words ++ ["bash", "-lc", job.command]) argv := by
  obtain ⟨words, s₁, hprefix, h⟩ := bind_eq_ok.mp h
  refine ⟨words, placementPrefix_eq_ok hprefix, ?_⟩
  split at h
  · rename_i hslice
    cases h
    exact .bare (Or.inl hslice)
  · rename_i hslice
    obtain ⟨available, s₂, havailable, h⟩ := bind_eq_ok.mp h
    cases available with
    | false =>
        cases h
        refine .bare (Or.inr fun hall => ?_)
        cases systemdRunAvailable_eq_ok havailable hall.1 hall.2
    | true =>
        cases h
        exact .scope hslice

end Building

/-! ## Lines of a session -/

/-- `shlex.quote` spells its text. -/
theorem spells_shellQuote (text : String) : Shlex.Spells (shellQuote text).toList text.toList := by
  rw [shellQuote]
  split
  · rename_i hempty
    subst hempty
    exact Shlex.spells_quoted []
  · rename_i hne
    split
    · rename_i hsafe
      refine Shlex.spells_of_all_plain ?_ fun c hc => ?_
      · intro hnil
        exact hne (String.toList_eq_nil_iff.mp hnil)
      · -- no character of a meaning of its own is one that needs no quotes
        have hchar := List.all_eq_true.mp hsafe c hc
        by_contra hplain
        have hcases : Shlex.blank c = true ∨ c = '\'' ∨ c = '"' ∨ c = '\\' := by
          simp only [Shlex.plain, Bool.not_eq_true', Bool.not_eq_false, Bool.or_eq_true, beq_iff_eq,
            or_assoc] at hplain
          exact hplain
        rcases hcases with hblank | rfl | rfl | rfl
        · simp only [Shlex.blank, Bool.or_eq_true, beq_iff_eq, or_assoc] at hblank
          rcases hblank with rfl | rfl | rfl | rfl <;> exact absurd hchar (by decide +kernel)
        · exact absurd hchar (by decide +kernel)
        · exact absurd hchar (by decide +kernel)
        · exact absurd hchar (by decide +kernel)
    · have hquoted : ("'" ++ String.ofList (text.toList.flatMap fun c =>
          if c = '\'' then "'\"'\"'".toList else [c]) ++ "'").toList = Shlex.quoted text.toList := by
        simp [Shlex.quoted]
      rw [hquoted]
      exact Shlex.spells_quoted text.toList

/-- The line a session is given is read as the change of directory and the command. -/
theorem split_sessionLine (directory : String) (argv : List String) :
    Shlex.split ("cd " ++ shellQuote directory ++ " && exec " ++
      " ".intercalate (argv.map shellQuote)).toList =
    some (("cd" :: directory :: "&&" :: "exec" :: argv).map String.toList) := by
  have hplain : ∀ {text : List Char}, text ≠ [] → text.all Shlex.plain = true →
      Shlex.Spells text text :=
    fun hne hall => Shlex.spells_of_all_plain hne (List.all_eq_true.mp hall)
  have hcd : Shlex.Spells "cd".toList "cd".toList := hplain (by decide) (by decide)
  have hand : Shlex.Spells "&&".toList "&&".toList := hplain (by decide) (by decide)
  have hexec : Shlex.Spells "exec".toList "exec".toList := hplain (by decide) (by decide)
  have hwords : Shlex.split (" ".intercalate (argv.map shellQuote)).toList =
      some (argv.map String.toList) := by
    have hspell : ∀ text : List Char, Shlex.Spells (shellQuote (String.ofList text)).toList text :=
      fun text => by simpa using spells_shellQuote (String.ofList text)
    have hsplit := Shlex.split_words hspell (argv.map String.toList)
    rw [← hsplit, String.toList_intercalate, List.map_map, List.map_map]
    congr 2
    refine List.map_congr_left fun arg _ => ?_
    simp
  have hline : ("cd " ++ shellQuote directory ++ " && exec " ++
      " ".intercalate (argv.map shellQuote)).toList =
      "cd".toList ++ ' ' :: ((shellQuote directory).toList ++ ' ' :: ("&&".toList ++
        ' ' :: ("exec".toList ++ ' ' :: (" ".intercalate (argv.map shellQuote)).toList))) := by
    simp
  rw [hline, Shlex.split_word_blank hcd, Shlex.split_word_blank (spells_shellQuote directory),
    Shlex.split_word_blank hand, Shlex.split_word_blank hexec, hwords]
  rfl

end Nodepilot
