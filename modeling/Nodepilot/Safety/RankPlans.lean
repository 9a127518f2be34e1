import Nodepilot.Model.Mpi
import Nodepilot.Safety.CpuText

/-!
# Rank plans

`rank_binding_plan` deals the sorted block out in slices of one stride, so that the
questions about a plan are those about `Layout.share`: whether two ranks get one
CPU, and whether a CPU is left over, depends on the width alone.  The rankfile keeps
the plan: a slot text reads back as the CPUs of its rank.
-/

namespace Nodepilot

open Layout

/-- The CPUs a rank is given but for the last one, as far as there are so many. -/
def effectiveWidth (count p : ℤ) (threadsPerRank : Option ℤ) : ℤ :=
  max 1 (threadsPerRank.getD (count / p))

/-- What a plan for `p` ranks on a block has to be. -/
structure Plans (block : Finset ℤ) (p : ℤ) (threadsPerRank : Option ℤ) (plan : List RankBinding) :
    Prop where
  length : (plan.length : ℤ) = p
  inOrder : ∀ (i : ℕ) (b : RankBinding), plan[i]? = some b → b.rank = i
  served : ∀ b ∈ plan, b.cores ≠ [] ∧ b.cores.Pairwise (· < ·) ∧ ∀ c ∈ b.cores, c ∈ block
  whole : threadsPerRank = none → (plan.map RankBinding.cores).flatten = sorted block
  even : threadsPerRank = none → ∀ (i : ℕ) (b : RankBinding), plan[i]? = some b →
    (i : ℤ) + 1 < p → (b.cores.length : ℤ) = block.card / p
  disjoint : 2 ≤ p → (plan.Pairwise (fun a b => a.cores.Disjoint b.cores) ↔
    effectiveWidth block.card p threadsPerRank ≤ block.card / p)
  covers : 2 ≤ p → ((∀ c ∈ block, ∃ b ∈ plan, c ∈ b.cores) ↔
    block.card / p ≤ effectiveWidth block.card p threadsPerRank)
  rankfile : ∃ lines : List (List Char),
    (openmpiRankfile plan).toList.splitOn '\n' = lines ++ [[]] ∧ (lines.length : ℤ) = p ∧
      ∀ (i : ℕ) (b : RankBinding), plan[i]? = some b → ∃ slot : String,
        lines[i]? = some ("rank " ++ String.ofList (intText i) ++ "=localhost slot=" ++ slot).toList ∧
          parseCpuList slot = .ok b.cores.toFinset

/-! ## The slices -/

section Slices

variable {cores : List ℤ} {n stride width : ℕ}

theorem rankBindings_eq : rankBindings cores n stride width =
    (List.range n).map fun i => ⟨i, share cores n stride width i⟩ :=
  rfl

theorem getElem?_rankBindings {i : ℕ} {b : RankBinding}
    (h : (rankBindings cores n stride width)[i]? = some b) :
    i < n ∧ b = ⟨i, share cores n stride width i⟩ := by
  rw [rankBindings_eq, List.getElem?_map] at h
  obtain ⟨k, hk, rfl⟩ := Option.map_eq_some_iff.mp h
  obtain ⟨hlt, rfl⟩ := List.getElem?_eq_some_iff.mp hk
  rw [List.getElem_range]
  exact ⟨by simpa using hlt, rfl⟩

theorem mem_rankBindings {b : RankBinding} : b ∈ rankBindings cores n stride width ↔
    ∃ i < n, b = ⟨i, share cores n stride width i⟩ := by
  rw [rankBindings_eq, List.mem_map]
  constructor
  · rintro ⟨i, hi, rfl⟩
    exact ⟨i, List.mem_range.mp hi, rfl⟩
  · rintro ⟨i, hi, rfl⟩
    exact ⟨i, List.mem_range.mpr hi, rfl⟩

theorem pairwise_rankBindings :
    (rankBindings cores n stride width).Pairwise (fun a b => a.cores.Disjoint b.cores) ↔
      ∀ i j, i < j → j < n →
        (share cores n stride width i).Disjoint (share cores n stride width j) := by
  rw [rankBindings_eq, List.pairwise_map, List.pairwise_iff_getElem]
  simp only [List.length_range, List.getElem_range]
  constructor
  · intro h i j hij hj
    exact h i j (by omega) hj hij
  · intro h i j _ hj hij
    exact h i j hij hj

theorem map_cores_rankBindings : (rankBindings cores n stride width).map RankBinding.cores =
    (List.range n).map (share cores n stride width) := by
  rw [rankBindings_eq, List.map_map]
  rfl

end Slices

/-! ## The rankfile -/

/-- A slot text has only digits, hyphens and commas. -/
theorem mem_formatCpuList {cores : Finset ℤ} (hnonneg : ∀ c ∈ cores, 0 ≤ c) {c : Char}
    (hc : c ∈ (formatCpuList cores).toList) : c.isDigit = true ∨ c = '-' ∨ c = ',' := by
  rw [formatCpuList_eq, String.toList_ofList] at hc
  have hparts : ∀ part ∈ (Runs.runs (sorted cores)).map (fun b => runText b.1 b.2), ∀ c ∈ part,
      c.isDigit = true ∨ c = '-' := by
    intro part hpart c hc
    obtain ⟨b, hb, rfl⟩ := List.mem_map.mp hpart
    obtain ⟨hle, hmem⟩ := Runs.mem_of_mem_runs hb
    have hlow : 0 ≤ b.1 := hnonneg _ (mem_sorted.mp hmem)
    exact mem_runText hlow (hlow.trans hle) hc
  generalize (Runs.runs (sorted cores)).map (fun b => runText b.1 b.2) = texts at hc hparts
  induction texts with
  | nil => simp at hc
  | cons first rest ih =>
      have hfirst := hparts first (List.mem_cons_self ..)
      have hrest : ∀ part ∈ rest, ∀ c ∈ part, c.isDigit = true ∨ c = '-' :=
        fun part hpart => hparts part (List.mem_cons_of_mem _ hpart)
      cases rest with
      | nil => exact (hfirst c (by simpa using hc)).imp_right .inl
      | cons next more =>
          rw [List.intercalate_cons_cons, List.mem_append, List.mem_append] at hc
          rcases hc with (hc | hc) | hc
          · exact (hfirst c hc).imp_right .inl
          · exact .inr (.inr (by simpa using hc))
          · exact ih hc hrest

theorem newline_notMem_rankLine {b : RankBinding} (hrank : 0 ≤ b.rank)
    (hnonneg : ∀ c ∈ b.cores, 0 ≤ c) : '\n' ∉ (rankLine b).toList := by
  have hdigits : '\n' ∉ intText b.rank := fun hmem =>
    absurd (isDigit_of_mem_intText hrank hmem) (by decide)
  have hslot : '\n' ∉ b.cpuList.toList := by
    intro hmem
    have hnonneg' : ∀ c ∈ b.cores.toFinset, 0 ≤ c := fun c hc => hnonneg c (List.mem_toFinset.mp hc)
    rcases mem_formatCpuList hnonneg' hmem with h | h | h
    · exact absurd h (by decide)
    · exact absurd h (by decide)
    · exact absurd h (by decide)
  simp only [rankLine, String.toList_append, String.toList_ofList, List.mem_append]
  rintro (((h | h) | h) | h)
  · exact absurd h (by decide)
  · exact hdigits h
  · exact absurd h (by decide)
  · exact hslot h

/-- The lines of a rankfile, each ended by a newline. -/
theorem splitOn_openmpiRankfile {plan : List RankBinding} (hne : plan ≠ [])
    (hserved : ∀ b ∈ plan, b.cores ≠ []) (hrank : ∀ b ∈ plan, 0 ≤ b.rank)
    (hnonneg : ∀ b ∈ plan, ∀ c ∈ b.cores, 0 ≤ c) :
    (openmpiRankfile plan).toList.splitOn '\n' =
      plan.map (fun b => (rankLine b).toList) ++ [[]] := by
  have hall : plan.filter (fun b => !b.cores.isEmpty) = plan := by
    refine List.filter_eq_self.mpr fun b hb => ?_
    simpa using hserved b hb
  have hlines : plan.map rankLine ≠ [] := by simpa using hne
  have htext : (openmpiRankfile plan).toList =
      ['\n'].intercalate (plan.map fun b => (rankLine b).toList) ++ '\n' :: [] := by
    simp only [openmpiRankfile, hall, List.isEmpty_eq_false_iff.mpr hlines, Bool.false_eq_true,
      if_false, String.toList_append, String.toList_intercalate, List.map_map]
    rfl
  rw [htext, List.splitOn_append_cons_self, List.splitOn_nil, List.splitOn_intercalate]
  · intro line hline
    obtain ⟨b, hb, rfl⟩ := List.mem_map.mp hline
    exact newline_notMem_rankLine (hrank b hb) (hnonneg b hb)
  · simpa using hne

/-! ## The plan -/

theorem effectiveWidth_pos (count p : ℤ) (threadsPerRank : Option ℤ) :
    1 ≤ effectiveWidth count p threadsPerRank :=
  le_max_left ..

/-- The plan of a block with enough CPUs. -/
theorem plans_rankBindings {block : Finset ℤ} (hnonneg : ∀ c ∈ block, 0 ≤ c) {p : ℤ}
    (hp : 1 ≤ p) (hfits : p ≤ block.card) (threadsPerRank : Option ℤ) :
    Plans block p threadsPerRank
      (rankBindings (sorted block) p.toNat ((block.card : ℤ) / p).toNat
        (effectiveWidth block.card p threadsPerRank).toNat) := by
  obtain ⟨n, rfl⟩ : ∃ n : ℕ, p = n := ⟨p.toNat, by omega⟩
  have hdiv : ((block.card : ℤ) / n) = ((block.card / n : ℕ) : ℤ) := by push_cast; rfl
  set stride := block.card / n with hstride
  set width := (effectiveWidth block.card n threadsPerRank).toNat with hwidth
  have hwide : effectiveWidth block.card n threadsPerRank = width := by
    have := effectiveWidth_pos block.card n threadsPerRank
    omega
  have hpos : 0 < width := by
    have := effectiveWidth_pos block.card n threadsPerRank
    omega
  have hn : 0 < n := by omega
  have hlength : (sorted block).length = block.card := length_sorted block
  have hstridePos : 0 < stride := Nat.div_pos (by omega) hn
  have hroom : n * stride ≤ (sorted block).length := by
    rw [hlength]
    exact Nat.mul_div_le block.card n
  have hnodup : (sorted block).Nodup := nodup_sorted block
  rw [hdiv, Int.toNat_natCast, Int.toNat_natCast]
  have hserved : ∀ b ∈ rankBindings (sorted block) n stride width,
      b.cores ≠ [] ∧ b.cores.Pairwise (· < ·) ∧ ∀ c ∈ b.cores, c ∈ block := by
    intro b hb
    obtain ⟨i, hi, rfl⟩ := mem_rankBindings.mp hb
    have hsub := share_sublist (sorted block) n stride width i
    refine ⟨share_ne_nil hi hstridePos hpos hroom, (strictly_sorted block).sublist hsub, ?_⟩
    exact fun c hc => mem_sorted.mp (hsub.mem hc)
  refine ⟨?_, ?_, hserved, ?_, ?_, ?_, ?_, ?_⟩
  · rw [rankBindings_eq, List.length_map, List.length_range]
  · intro i b hb
    rw [(getElem?_rankBindings hb).2]
  · intro hnone
    have heven : width = stride := by
      rw [hnone, effectiveWidth, Option.getD_none, hdiv] at hwide
      omega
    rw [map_cores_rankBindings, heven, flatten_shares _ _ _ hn]
  · intro hnone i b hb hlast
    have heven : width = stride := by
      rw [hnone, effectiveWidth, Option.getD_none, hdiv] at hwide
      omega
    obtain ⟨hi, rfl⟩ := getElem?_rankBindings hb
    have hnext : i * stride + stride ≤ n * stride := by
      calc i * stride + stride = (i + 1) * stride := by ring
        _ ≤ n * stride := Nat.mul_le_mul_right _ hi
    have hcount : (share (sorted block) n stride width i).length = stride := by
      rw [share, if_neg (by omega), length_slice, heven]
      omega
    rw [hdiv, hcount]
  · intro htwo
    rw [pairwise_rankBindings, disjoint_iff hnodup (by omega) hstridePos hroom, hwide, hdiv]
    exact Nat.cast_le.symm
  · intro htwo
    have hcovers : (∀ c ∈ block, ∃ b ∈ rankBindings (sorted block) n stride width, c ∈ b.cores) ↔
        ∀ c ∈ sorted block, ∃ i < n, c ∈ share (sorted block) n stride width i := by
      simp only [mem_sorted, mem_rankBindings]
      refine forall₂_congr fun c _ => ⟨?_, ?_⟩
      · rintro ⟨b, ⟨i, hi, rfl⟩, hc⟩
        exact ⟨i, hi, hc⟩
      · rintro ⟨i, hi, hc⟩
        exact ⟨_, ⟨i, hi, rfl⟩, hc⟩
    rw [hcovers, covers_iff hnodup (by omega) hroom, hwide, hdiv]
    exact Nat.cast_le.symm
  · have hne : rankBindings (sorted block) n stride width ≠ [] := by
      refine List.ne_nil_of_length_pos ?_
      rw [rankBindings_eq, List.length_map, List.length_range]
      exact hn
    have hranks : ∀ b ∈ rankBindings (sorted block) n stride width, 0 ≤ b.rank := by
      intro b hb
      obtain ⟨i, hi, rfl⟩ := mem_rankBindings.mp hb
      exact Int.natCast_nonneg i
    have hids : ∀ b ∈ rankBindings (sorted block) n stride width, ∀ c ∈ b.cores, 0 ≤ c :=
      fun b hb c hc => hnonneg c ((hserved b hb).2.2 c hc)
    refine ⟨_, splitOn_openmpiRankfile hne (fun b hb => (hserved b hb).1) hranks hids, ?_, ?_⟩
    · rw [List.length_map, rankBindings_eq, List.length_map, List.length_range]
    · intro i b hb
      refine ⟨b.cpuList, ?_, ?_⟩
      · rw [List.getElem?_map, hb, Option.map_some, rankLine, (getElem?_rankBindings hb).2]
      · refine parse_format fun c hc => ?_
        exact hids b (List.mem_of_getElem? hb) c (List.mem_toFinset.mp hc)

/-- A plan partitions the block it is made for, up to the rankfile, and a block with fewer CPUs
than ranks, or no rank at all, is refused. -/
theorem rank_plan (cpuList : String) (block : Finset ℤ) (hparse : parseCpuList cpuList = .ok block)
    (p : ℤ) (threadsPerRank : Option ℤ) :
    (1 ≤ p → p ≤ block.card → ∃ plan, rankBindingPlan cpuList p threadsPerRank = .ok plan ∧
      Plans block p threadsPerRank plan) ∧
    (p < 1 ∨ block.card < p → ∃ e, rankBindingPlan cpuList p threadsPerRank = .error e ∧
      e.cls = .valueError) := by
  constructor
  · intro hp hfits
    refine ⟨_, ?_, plans_rankBindings (nonneg_of_parseCpuList hparse) hp hfits threadsPerRank⟩
    rw [rankBindingPlan, if_neg (by omega), hparse]
    simp only [bind, Except.bind, length_sorted]
    rw [if_neg (by omega)]
    rfl
  · intro hbad
    rw [rankBindingPlan]
    by_cases hp : p < 1
    · rw [if_pos hp]
      exact ⟨_, rfl, rfl⟩
    · rw [if_neg hp, hparse]
      simp only [bind, Except.bind, length_sorted]
      rw [if_pos (by omega)]
      exact ⟨_, rfl, rfl⟩

/-- Three ranks of two threads on seven CPUs: disjoint, and nothing is left over. -/
theorem rank_plan_seven : ∃ plan, rankBindingPlan "0-6" 3 (some 2) = .ok plan ∧
    plan.Pairwise (fun a b => a.cores.Disjoint b.cores) ∧
    ∀ c ∈ ({0, 1, 2, 3, 4, 5, 6} : Finset ℤ), ∃ b ∈ plan, c ∈ b.cores := by
  have hparse : parseCpuList "0-6" = .ok {0, 1, 2, 3, 4, 5, 6} := by decide +kernel
  obtain ⟨plan, hplan, hplans⟩ := (rank_plan "0-6" _ hparse 3 (some 2)).1 (by decide) (by decide)
  have hcard : ((({0, 1, 2, 3, 4, 5, 6} : Finset ℤ).card : ℤ) / 3) = 2 := by decide
  refine ⟨plan, hplan, (hplans.disjoint (by decide)).mpr ?_, (hplans.covers (by decide)).mpr ?_⟩
  · rw [effectiveWidth, hcard]
    decide
  · rw [effectiveWidth, hcard]
    decide

end Nodepilot
