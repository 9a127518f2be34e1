import Nodepilot.Model.CpuList

/-!
# Block allocation

`allocate` of `numa.py`: for every NUMA node the free cores, primaries before
SMT siblings, a contiguous window if there is one; among the nodes that can
serve the request the least by `(not contiguous, -free, used, node)`.

`allocate_spec` is what the scheduler relies on: the text of a placement reads
back as exactly the requested number of CPUs of the chosen node, none of them
occupied.
-/

namespace Nodepilot

open Runs

/-- `Placement`. -/
structure Placement where
  cpuList : String
  node : ℤ
  interleave : Bool := false
  contiguous : Bool := true
  smtOversubscribed : Bool := false
  deriving DecidableEq, Repr

/-- The two loops of `_largest_contiguous_run`: the run read so far starts at `start`,
ends at `prev` and has `count` cores. -/
def contiguousRunFrom (n start prev count : ℤ) : List ℤ → Option ℤ
  | [] => if n ≤ count then some start else none
  | c :: rest =>
      if c = prev + 1 then contiguousRunFrom n start c (count + 1) rest
      else if n ≤ count then some start
      else contiguousRunFrom n c c 1 rest

/-- `_largest_contiguous_run`: the start of the first run of at least `n` cores. -/
def largestContiguousRun (freeSorted : List ℤ) (n : ℤ) : Option ℤ :=
  match freeSorted with
  | [] => none
  | c :: rest => contiguousRunFrom n c c 1 rest

/-- A node that can serve the request, as `allocate` collects it. -/
structure Candidate where
  notContiguous : Bool
  negFree : ℤ
  usedGb : ℚ
  node : ℤ
  chosen : List ℤ
  oversub : Bool
  deriving Repr

/-- The sort key `(t[0], t[1], t[2], t[3])`. -/
def Candidate.key (t : Candidate) : Bool ×ₗ ℤ ×ₗ ℚ ×ₗ ℤ :=
  toLex (t.notContiguous, toLex (t.negFree, toLex (t.usedGb, t.node)))

/-- The keyword arguments of `allocate`, with the per-node memory reading of
`node_memory_gb`. -/
structure AllocateOptions where
  ramGb : ℚ := 0
  interleaveThresholdGb : ℚ := 0
  nodeRamCapGb : ℚ := 0
  nodeRamSafetyGb : ℚ := 0
  smtSecondary : Finset ℤ := ∅
  anonGb : ℤ → Option ℚ := fun _ => none

namespace AllocateOptions

variable (options : AllocateOptions)

def willInterleave : Bool :=
  decide (0 < options.interleaveThresholdGb) &&
    decide (options.interleaveThresholdGb ≤ options.ramGb)

def gateRam : Bool :=
  decide (0 < options.nodeRamCapGb) && !options.willInterleave

def safeCap : ℚ :=
  options.nodeRamCapGb - options.nodeRamSafetyGb

/-- `used_gb` of a node, or `none` where the gate skips it. -/
def gatedUse (node : ℤ) : Option ℚ :=
  if options.gateRam then
    match options.anonGb node with
    | some anon => if options.safeCap < anon + options.ramGb then none else some anon
    | none => some 0
  else some 0

end AllocateOptions

/-- The cores chosen on a node with enough free ones: contiguous window, first
primaries, or all primaries filled up with siblings. -/
def chooseCores (nCores : ℤ) (primaries siblings : List ℤ) : List ℤ × Bool × Bool :=
  if nCores ≤ primaries.length then
    match largestContiguousRun primaries nCores with
    | some start => (span start (start + nCores - 1), true, false)
    | none => (primaries.take nCores.toNat, false, false)
  else
    (primaries ++ siblings.take (nCores - primaries.length).toNat, false, true)

/-- `free`: the node's cores not taken, in order. -/
def freeCores (occupied nodeCores : Finset ℤ) : List ℤ :=
  (sorted nodeCores).filter (· ∉ occupied)

def primaries (secondary : Finset ℤ) (free : List ℤ) : List ℤ :=
  free.filter (· ∉ secondary)

def siblings (secondary : Finset ℤ) (free : List ℤ) : List ℤ :=
  free.filter (· ∈ secondary)

/-- The body of the loop over the nodes. -/
def nodeCandidate (nCores : ℤ) (occupied : Finset ℤ) (options : AllocateOptions) (node : ℤ)
    (nodeCores : Finset ℤ) : Option Candidate :=
  if ((freeCores occupied nodeCores).length : ℤ) < nCores then none
  else
    (options.gatedUse node).map fun usedGb =>
      match chooseCores nCores (primaries options.smtSecondary (freeCores occupied nodeCores))
          (siblings options.smtSecondary (freeCores occupied nodeCores)) with
      | (chosen, contiguous, oversub) =>
          { notContiguous := !contiguous
            negFree := -(freeCores occupied nodeCores).length
            usedGb := usedGb
            node := node
            chosen := chosen
            oversub := oversub }

/-- The loop over the nodes. -/
def candidates (nCores : ℤ) (occupied : Finset ℤ) (options : AllocateOptions) :
    List (ℤ × String) → Except Exc (List Candidate)
  | [] => .ok []
  | (node, spec) :: rest => do
      let nodeCores ← parseCpuList spec
      let later ← candidates nCores occupied options rest
      .ok ((nodeCandidate nCores occupied options node nodeCores).toList ++ later)

/-- `allocate`. -/
def allocate (nCores : ℤ) (occupied : Finset ℤ) (numaNodes : List (ℤ × String))
    (options : AllocateOptions) : Except Exc (Option Placement) :=
  if nCores ≤ 0 then
    .ok (some { cpuList := "", node := (numaNodes.head?.map Prod.fst).getD 0 })
  else do
    let found ← candidates nCores occupied options numaNodes
    match found.insertionSort (fun a b => a.key ≤ b.key) with
    | [] => .ok none
    | best :: _ =>
        .ok (some
          { cpuList := formatCpuList best.chosen.toFinset
            node := best.node
            interleave := options.willInterleave
            contiguous := !best.notContiguous
            smtOversubscribed := best.oversub })

/-! ## The contiguous window -/

/-- The window found is made of listed cores. -/
theorem span_subset_of_contiguousRunFrom {cores : List ℤ} {n start prev count found : ℤ}
    {rest : List ℤ} (hcount : count = prev - start + 1)
    (hread : ∀ c, start ≤ c → c ≤ prev → c ∈ cores) (hrest : ∀ c ∈ rest, c ∈ cores)
    (h : contiguousRunFrom n start prev count rest = some found) :
    ∀ c, found ≤ c → c ≤ found + n - 1 → c ∈ cores := by
  induction rest generalizing start prev count with
  | nil =>
      rw [contiguousRunFrom] at h
      split at h
      · cases h
        intro c hlow hhigh
        exact hread c hlow (by omega)
      · cases h
  | cons d rest ih =>
      have hd : d ∈ cores := hrest d (List.mem_cons_self ..)
      have hlater : ∀ c ∈ rest, c ∈ cores := fun c hc => hrest c (List.mem_cons_of_mem _ hc)
      rw [contiguousRunFrom] at h
      split at h
      · rename_i hnext
        refine ih (by omega) (fun c hlow hhigh => ?_) hlater h
        rcases eq_or_ne c d with rfl | hne
        · exact hd
        · exact hread c hlow (by omega)
      · split at h
        · cases h
          intro c hlow hhigh
          exact hread c hlow (by omega)
        · refine ih (by omega) (fun c hlow hhigh => ?_) hlater h
          rw [le_antisymm hhigh hlow]
          exact hd

theorem span_subset_of_largestContiguousRun {cores : List ℤ} {n found : ℤ}
    (h : largestContiguousRun cores n = some found) :
    ∀ c ∈ span found (found + n - 1), c ∈ cores := by
  intro c hc
  obtain ⟨hlow, hhigh⟩ := mem_span.mp hc
  cases cores with
  | nil => cases h
  | cons d rest =>
      refine span_subset_of_contiguousRunFrom (by omega) (fun e he he' => ?_)
        (fun e he => List.mem_cons_of_mem _ he) h c hlow hhigh
      rw [le_antisymm he' he]
      exact List.mem_cons_self ..

/-! ## The chosen cores -/

/-- Whatever way the cores of a node are chosen, they are distinct free cores, as many
as requested. -/
theorem chooseCores_spec {nCores : ℤ} {primaries siblings : List ℤ} (hpos : 0 < nCores)
    (hnodup : (primaries ++ siblings).Nodup)
    (henough : nCores ≤ (primaries ++ siblings).length) :
    let choice := chooseCores nCores primaries siblings
    choice.1.Nodup ∧ (choice.1.length : ℤ) = nCores ∧ ∀ c ∈ choice.1, c ∈ primaries ++ siblings := by
  have hprimaries : primaries.Nodup := hnodup.of_append_left
  simp only [List.length_append] at henough
  unfold chooseCores
  split
  · rename_i hfits
    cases hrun : largestContiguousRun primaries nCores with
    | some start =>
        refine ⟨nodup_span _ _, ?_, fun c hc => ?_⟩
        · rw [length_span]; omega
        · exact List.mem_append_left _ (span_subset_of_largestContiguousRun hrun c hc)
    | none =>
        refine ⟨hprimaries.sublist (List.take_sublist _ _), ?_, fun c hc => ?_⟩
        · simp only [List.length_take]; omega
        · exact List.mem_append_left _ (List.mem_of_mem_take hc)
  · rename_i hshort
    refine ⟨hnodup.sublist ((List.Sublist.refl _).append (List.take_sublist _ _)), ?_, ?_⟩
    · simp only [List.length_append, List.length_take]; omega
    · intro c hc
      rcases List.mem_append.mp hc with hc | hc
      · exact List.mem_append_left _ hc
      · exact List.mem_append_right _ (List.mem_of_mem_take hc)

theorem mem_freeCores {occupied nodeCores : Finset ℤ} {c : ℤ} :
    c ∈ freeCores occupied nodeCores ↔ c ∈ nodeCores ∧ c ∉ occupied := by
  simp [freeCores, mem_sorted]

/-- Primaries and siblings split the free cores. -/
theorem primaries_append_siblings_perm (secondary : Finset ℤ) (free : List ℤ) :
    (primaries secondary free ++ siblings secondary free).Perm free := by
  have hsplit := List.filter_append_perm (· ∉ secondary) free
  simpa [primaries, siblings] using hsplit

/-- What a candidate stands for on its node. -/
theorem nodeCandidate_spec {nCores : ℤ} {occupied nodeCores : Finset ℤ}
    {options : AllocateOptions} {node : ℤ} {t : Candidate} (hpos : 0 < nCores)
    (h : nodeCandidate nCores occupied options node nodeCores = some t) :
    t.node = node ∧ t.chosen.Nodup ∧ (t.chosen.length : ℤ) = nCores ∧
      ∀ c ∈ t.chosen, c ∈ nodeCores ∧ c ∉ occupied := by
  have hperm := primaries_append_siblings_perm options.smtSecondary (freeCores occupied nodeCores)
  have hnodup := hperm.nodup_iff.mpr ((nodup_sorted nodeCores).filter _)
  unfold nodeCandidate at h
  split at h
  · cases h
  · rename_i henough
    obtain ⟨usedGb, -, rfl⟩ := Option.map_eq_some_iff.mp h
    have hlength := hperm.length_eq.symm ▸ not_lt.mp henough
    obtain ⟨hdistinct, hcount, hmem⟩ := chooseCores_spec hpos hnodup hlength
    refine ⟨rfl, hdistinct, hcount, fun c hc => ?_⟩
    exact mem_freeCores.mp (hperm.mem_iff.mp (hmem c hc))

/-! ## The allocation -/

theorem mem_candidates {nCores : ℤ} {occupied : Finset ℤ} {options : AllocateOptions}
    {numaNodes : List (ℤ × String)} {found : List Candidate}
    (h : candidates nCores occupied options numaNodes = .ok found) {t : Candidate} (ht : t ∈ found) :
    ∃ node spec nodeCores, (node, spec) ∈ numaNodes ∧ parseCpuList spec = .ok nodeCores ∧
      nodeCandidate nCores occupied options node nodeCores = some t := by
  induction numaNodes generalizing found with
  | nil =>
      cases h
      exact absurd ht List.not_mem_nil
  | cons entry rest ih =>
      obtain ⟨node, spec⟩ := entry
      obtain ⟨nodeCores, hparse, h⟩ := except_bind_eq_ok.mp h
      obtain ⟨later, hrest, h⟩ := except_bind_eq_ok.mp h
      cases h
      rcases List.mem_append.mp ht with ht | ht
      · exact ⟨node, spec, nodeCores, List.mem_cons_self .., hparse, by simpa using ht⟩
      · obtain ⟨node', spec', nodeCores', hmem, hfound⟩ := ih hrest ht
        exact ⟨node', spec', nodeCores', List.mem_cons_of_mem _ hmem, hfound⟩

/-- A request for no cores is placed without a block. -/
theorem allocate_of_nonpos {nCores : ℤ} {occupied : Finset ℤ} {options : AllocateOptions}
    {numaNodes : List (ℤ × String)} {pl : Placement} (hpos : nCores ≤ 0)
    (h : allocate nCores occupied numaNodes options = .ok (some pl)) : pl.cpuList = "" := by
  rw [allocate, if_pos hpos] at h
  cases h
  rfl

/-- The text of a placement reads back as exactly the requested number of CPUs of the
chosen node, none of them occupied. -/
theorem allocate_spec {nCores : ℤ} {occupied : Finset ℤ} {options : AllocateOptions}
    {numaNodes : List (ℤ × String)} {pl : Placement} (hpos : 0 < nCores)
    (h : allocate nCores occupied numaNodes options = .ok (some pl)) :
    ∃ spec nodeCores block, (pl.node, spec) ∈ numaNodes ∧ parseCpuList spec = .ok nodeCores ∧
      parseCpuList pl.cpuList = .ok block ∧ (block.card : ℤ) = nCores ∧ block ⊆ nodeCores ∧
      Disjoint block occupied := by
  rw [allocate, if_neg (not_le.mpr hpos)] at h
  obtain ⟨found, hfound, h⟩ := except_bind_eq_ok.mp h
  cases hsort : found.insertionSort (fun a b => a.key ≤ b.key) with
  | nil => simp [hsort] at h
  | cons best others =>
      simp only [hsort] at h
      cases h
      have hbest : best ∈ found := by
        have hmem : best ∈ found.insertionSort (fun a b => a.key ≤ b.key) := by
          rw [hsort]; exact List.mem_cons_self ..
        exact (List.mem_insertionSort _).mp hmem
      obtain ⟨node, spec, nodeCores, hnode, hparse, hcandidate⟩ := mem_candidates hfound hbest
      obtain ⟨rfl, hnodup, hlength, hchosen⟩ := nodeCandidate_spec hpos hcandidate
      have hfree : ∀ c ∈ best.chosen.toFinset, c ∈ nodeCores ∧ c ∉ occupied := fun c hc =>
        hchosen c (List.mem_toFinset.mp hc)
      refine ⟨spec, nodeCores, best.chosen.toFinset, hnode, hparse, ?_, ?_, ?_, ?_⟩
      · exact parse_format fun c hc => nonneg_of_parseCpuList hparse c (hfree c hc).1
      · rw [List.toFinset_card_of_nodup hnodup, hlength]
      · exact fun c hc => (hfree c hc).1
      · exact Finset.disjoint_left.mpr fun c hc => (hfree c hc).2

example : allocate 2 {0, 1} [(0, "0-3"), (1, "4-7")] {} =
    .ok (some { cpuList := "4-5", node := 1 }) := by decide +kernel

end Nodepilot
