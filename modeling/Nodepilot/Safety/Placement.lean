import Nodepilot.Model.Allocate

/-!
# Where a job is placed

`allocate` read against what it is for.  A node can take the request if it has
enough free CPUs and passes the memory gate (`Eligible`); between such nodes the
choice goes by `rank`, and on the chosen one by the primaries: a window of
consecutive ones if there is any, else the first of them, siblings only where
they run out (`Best`).

`allocate_optimal` is the whole of it.  `physical_cores_first` is about the
siblings: the order between the nodes counts free CPUs of both kinds, so a node
with enough primaries may lose to one that has to take siblings, and the theorem
says when it does.
-/

namespace Nodepilot

open Runs

/-! ## Windows -/

/-- `n` consecutive CPUs of a set, from `start` on. -/
def Window (n : ℤ) (cores : Finset ℤ) (start : ℤ) : Prop :=
  ∀ c, start ≤ c → c < start + n → c ∈ cores

instance (n : ℤ) (cores : Finset ℤ) (start : ℤ) : Decidable (Window n cores start) := by
  unfold Window
  infer_instance

/-- Whether a set has a window. -/
def hasWindow (n : ℤ) (cores : Finset ℤ) : Bool :=
  decide (∃ start ∈ cores, Window n cores start)

theorem hasWindow_iff {n : ℤ} {cores : Finset ℤ} (hpos : 0 < n) :
    hasWindow n cores = true ↔ ∃ start, Window n cores start := by
  rw [hasWindow, decide_eq_true_iff]
  constructor
  · rintro ⟨start, -, hwindow⟩
    exact ⟨start, hwindow⟩
  · rintro ⟨start, hwindow⟩
    exact ⟨start, hwindow start le_rfl (by omega), hwindow⟩

/-- The run search finds a window wherever there is one, and none that starts later. -/
theorem contiguousRunFrom_le {n start prev count s : ℤ} {rest : List ℤ}
    (hpos : 0 < n) (hle : start ≤ prev) (hcount : count = prev - start + 1)
    (hsorted : (prev :: rest).Pairwise (· < ·))
    (hwindow : ∀ c, s ≤ c → c < s + n → (start ≤ c ∧ c ≤ prev) ∨ c ∈ rest) :
    ∃ found, contiguousRunFrom n start prev count rest = some found ∧ found ≤ s := by
  induction rest generalizing start prev count with
  | nil =>
      have hread : ∀ c, s ≤ c → c < s + n → start ≤ c ∧ c ≤ prev := fun c hlow hhigh =>
        (hwindow c hlow hhigh).resolve_right List.not_mem_nil
      have hfirst := hread s le_rfl (by omega)
      have hlast := hread (s + n - 1) (by omega) (by omega)
      exact ⟨start, by rw [contiguousRunFrom, if_pos (by omega)], hfirst.1⟩
  | cons d rest ih =>
      have hlater : ∀ c ∈ d :: rest, prev < c := (List.pairwise_cons.mp hsorted).1
      have hrest : (d :: rest).Pairwise (· < ·) := (List.pairwise_cons.mp hsorted).2
      have hd : prev < d := hlater d (List.mem_cons_self ..)
      rw [contiguousRunFrom]
      by_cases hnext : d = prev + 1
      · rw [if_pos hnext]
        apply ih (by omega) (by omega) hrest
        intro c hlow hhigh
        rcases hwindow c hlow hhigh with hread | hmem
        · exact Or.inl (by omega)
        · rcases List.mem_cons.mp hmem with heq | hmem
          · exact Or.inl (by omega)
          · exact Or.inr hmem
      · rw [if_neg hnext]
        by_cases hfull : n ≤ count
        · refine ⟨start, by rw [if_pos hfull], ?_⟩
          rcases hwindow s le_rfl (by omega) with hread | hmem
          · exact hread.1
          · have := hlater s hmem
            omega
        · rw [if_neg hfull]
          -- the run read so far is too short and `prev + 1` is missing: the window is later
          have hgap : ∀ c ∈ d :: rest, prev + 1 < c := by
            intro c hc
            rcases List.mem_cons.mp hc with heq | hmem
            · omega
            · have := (List.pairwise_cons.mp hrest).1 c hmem
              omega
          have hafter : prev < s := by
            by_contra hbefore
            rcases hwindow s le_rfl (by omega) with hread | hmem
            · rcases hwindow (prev + 1) (by omega) (by omega) with hread' | hmem
              · omega
              · have := hgap _ hmem
                omega
            · have := hgap _ hmem
              omega
          apply ih le_rfl (by omega) hrest
          intro c hlow hhigh
          rcases hwindow c hlow hhigh with hread | hmem
          · omega
          · rcases List.mem_cons.mp hmem with heq | hmem
            · exact Or.inl (by omega)
            · exact Or.inr hmem

/-- `_largest_contiguous_run` of a sorted list returns its lowest window, if it has one. -/
theorem largestContiguousRun_spec {cores : List ℤ} {n : ℤ} (hpos : 0 < n)
    (hsorted : cores.Pairwise (· < ·)) :
    (∀ start, largestContiguousRun cores n = some start →
      IsLeast {s | Window n cores.toFinset s} start) ∧
    (largestContiguousRun cores n = none → ¬ ∃ s, Window n cores.toFinset s) := by
  have hfind : ∀ s, Window n cores.toFinset s →
      ∃ found, largestContiguousRun cores n = some found ∧ found ≤ s := by
    intro s hwindow
    have hmem : ∀ c, s ≤ c → c < s + n → c ∈ cores := fun c hlow hhigh =>
      List.mem_toFinset.mp (hwindow c hlow hhigh)
    cases cores with
    | nil => exact absurd (hmem s le_rfl (by omega)) List.not_mem_nil
    | cons d rest =>
        apply contiguousRunFrom_le hpos le_rfl (by omega) hsorted
        intro c hlow hhigh
        rcases List.mem_cons.mp (hmem c hlow hhigh) with heq | hmem
        · exact Or.inl (by omega)
        · exact Or.inr hmem
  constructor
  · intro start hrun
    refine ⟨fun c hlow hhigh => ?_, fun s hwindow => ?_⟩
    · have hspan : c ∈ span start (start + n - 1) := mem_span.mpr ⟨hlow, by omega⟩
      exact List.mem_toFinset.mpr (span_subset_of_largestContiguousRun hrun c hspan)
    · obtain ⟨found, hfound, hle⟩ := hfind s hwindow
      rw [hrun] at hfound
      cases hfound
      exact hle
  · rintro hrun ⟨s, hwindow⟩
    obtain ⟨found, hfound, -⟩ := hfind s hwindow
    rw [hrun] at hfound
    cases hfound

/-! ## The nodes that can take the request -/

namespace AllocateOptions

variable (options : AllocateOptions)

/-- The memory a node is charged with. -/
def gateMemory (node : ℤ) : ℚ :=
  if options.gateRam then (options.anonGb node).getD 0 else 0

/-- A node's memory and the job's stay together under the safe cap; a node that cannot be
read passes. -/
def PassesGate (node : ℤ) : Prop :=
  options.gateRam = true → ∀ anon, options.anonGb node = some anon →
    anon + options.ramGb ≤ options.safeCap

theorem gatedUse_eq_some {node : ℤ} {used : ℚ} :
    options.gatedUse node = some used ↔ options.PassesGate node ∧ options.gateMemory node = used := by
  unfold gatedUse PassesGate gateMemory
  cases options.gateRam with
  | false => simp
  | true =>
      cases options.anonGb node with
      | none => simp
      | some anon =>
          by_cases hover : options.safeCap < anon + options.ramGb
          · simp [hover]
          · simp [hover, not_lt.mp hover]

end AllocateOptions

/-- A node of the topology with the CPUs of its spec. -/
def Listed (numaNodes : List (ℤ × String)) (node : ℤ) (nodeCores : Finset ℤ) : Prop :=
  ∃ spec, (node, spec) ∈ numaNodes ∧ parseCpuList spec = .ok nodeCores

/-- The nodes of a topology have one spec each. -/
theorem Listed.unique {numaNodes : List (ℤ × String)} {node : ℤ} {cores cores' : Finset ℤ}
    (hkeys : (numaNodes.map Prod.fst).Nodup) (h : Listed numaNodes node cores)
    (h' : Listed numaNodes node cores') : cores = cores' := by
  obtain ⟨spec, hmem, hspec⟩ := h
  obtain ⟨spec', hmem', hspec'⟩ := h'
  have heq : (node, spec) = (node, spec') := List.inj_on_of_nodup_map hkeys hmem hmem' rfl
  cases heq
  rw [hspec] at hspec'
  cases hspec'
  rfl

/-- A node that is listed, has enough free CPUs and passes the gate. -/
structure Eligible (n : ℤ) (occupied : Finset ℤ) (numaNodes : List (ℤ × String))
    (options : AllocateOptions) (node : ℤ) (nodeCores : Finset ℤ) : Prop where
  listed : Listed numaNodes node nodeCores
  room : n ≤ (nodeCores \ occupied).card
  gate : options.PassesGate node

/-- The free CPUs of a node that are no SMT siblings. -/
def freePrimaries (occupied : Finset ℤ) (options : AllocateOptions) (nodeCores : Finset ℤ) :
    Finset ℤ :=
  (nodeCores \ occupied) \ options.smtSecondary

/-- What the choice between the nodes goes by, the least being chosen. -/
def rank (n : ℤ) (occupied : Finset ℤ) (options : AllocateOptions) (node : ℤ)
    (nodeCores : Finset ℤ) : Bool ×ₗ ℤ ×ₗ ℚ ×ₗ ℤ :=
  toLex (!hasWindow n (freePrimaries occupied options nodeCores),
    toLex (-((nodeCores \ occupied).card : ℤ), toLex (options.gateMemory node, node)))

/-- A placement made the way `allocate` is to make it: `nodeCores` are the CPUs of its node,
`block` the CPUs its text stands for. -/
structure Best (n : ℤ) (occupied : Finset ℤ) (numaNodes : List (ℤ × String))
    (options : AllocateOptions) (placement : Placement) (nodeCores block : Finset ℤ) : Prop where
  eligible : Eligible n occupied numaNodes options placement.node nodeCores
  reads : parseCpuList placement.cpuList = .ok block
  count : (block.card : ℤ) = n
  inside : block ⊆ nodeCores \ occupied
  contiguous : placement.contiguous = true ↔ ∃ node cores start,
    Eligible n occupied numaNodes options node cores ∧
      Window n (freePrimaries occupied options cores) start
  lowest : placement.contiguous = true → ∃ start, (∀ c, c ∈ block ↔ start ≤ c ∧ c < start + n) ∧
    IsLeast {s | Window n (freePrimaries occupied options nodeCores) s} start
  oversubscribed : placement.smtOversubscribed = true ↔
    ((freePrimaries occupied options nodeCores).card : ℤ) < n
  physical : placement.smtOversubscribed = true → freePrimaries occupied options nodeCores ⊆ block
  primary : placement.smtOversubscribed = false → block ⊆ freePrimaries occupied options nodeCores
  least : ∀ node cores, Eligible n occupied numaNodes options node cores →
    rank n occupied options placement.node nodeCores ≤ rank n occupied options node cores

section

variable {n : ℤ} {occupied nodeCores : Finset ℤ} {numaNodes : List (ℤ × String)}
  {options : AllocateOptions} {node : ℤ} {t : Candidate}

theorem length_freeCores (occupied nodeCores : Finset ℤ) :
    (freeCores occupied nodeCores).length = (nodeCores \ occupied).card := by
  have hnodup : (freeCores occupied nodeCores).Nodup := (nodup_sorted nodeCores).filter _
  rw [← List.toFinset_card_of_nodup hnodup]
  congr 1
  ext c
  rw [List.mem_toFinset, mem_freeCores, Finset.mem_sdiff]

theorem toFinset_primaries (occupied nodeCores : Finset ℤ) (options : AllocateOptions) :
    (primaries options.smtSecondary (freeCores occupied nodeCores)).toFinset =
      freePrimaries occupied options nodeCores := by
  ext c
  simp [primaries, freePrimaries, mem_freeCores]

theorem sorted_primaries (secondary occupied nodeCores : Finset ℤ) :
    (primaries secondary (freeCores occupied nodeCores)).Pairwise (· < ·) := by
  have hlt : (sorted nodeCores).Pairwise (· < ·) :=
    ((pairwise_sorted nodeCores).and (nodup_sorted nodeCores)).imp fun h => lt_of_le_of_ne h.1 h.2
  exact (hlt.filter _).filter _

/-- How the CPUs of a node are chosen, its free primaries being `cores`. -/
structure Choice (n : ℤ) (cores : Finset ℤ) (choice : List ℤ × Bool × Bool) : Prop where
  contiguous : choice.2.1 = hasWindow n cores
  lowest : choice.2.1 = true → ∃ start, (∀ c, c ∈ choice.1 ↔ start ≤ c ∧ c < start + n) ∧
    IsLeast {s | Window n cores s} start
  oversubscribed : choice.2.2 = true ↔ (cores.card : ℤ) < n
  physical : choice.2.2 = true → ∀ c ∈ cores, c ∈ choice.1
  primary : choice.2.2 = false → ∀ c ∈ choice.1, c ∈ cores

/-- A set with a window has room for it. -/
theorem Window.card_le {cores : Finset ℤ} {start : ℤ} (h : Window n cores start) :
    n ≤ cores.card := by
  have hsub : (span start (start + n - 1)).toFinset ⊆ cores := by
    intro c hc
    obtain ⟨hlow, hhigh⟩ := mem_span.mp (List.mem_toFinset.mp hc)
    exact h c hlow (by omega)
  have hcard := Finset.card_le_card hsub
  rw [List.toFinset_card_of_nodup (nodup_span _ _), length_span] at hcard
  omega

theorem chooseCores_choice {primaries siblings : List ℤ} (hpos : 0 < n)
    (hsorted : primaries.Pairwise (· < ·)) :
    Choice n primaries.toFinset (chooseCores n primaries siblings) := by
  have hcard : primaries.toFinset.card = primaries.length :=
    List.toFinset_card_of_nodup (hsorted.imp ne_of_lt)
  obtain ⟨hfound, hmissing⟩ := largestContiguousRun_spec hpos hsorted
  unfold chooseCores
  split
  · rename_i hfits
    cases hrun : largestContiguousRun primaries n with
    | some start =>
        have hleast := hfound start hrun
        have hwindow : hasWindow n primaries.toFinset = true :=
          (hasWindow_iff hpos).mpr ⟨start, hleast.1⟩
        constructor
        · exact hwindow.symm
        · refine fun _ => ⟨start, fun c => ?_, hleast⟩
          rw [mem_span]
          omega
        · simp only [Bool.false_eq_true, false_iff]
          omega
        · intro hover
          cases hover
        · intro _ c hc
          exact List.mem_toFinset.mpr (span_subset_of_largestContiguousRun hrun c hc)
    | none =>
        have hwindow : hasWindow n primaries.toFinset = false := by
          rw [Bool.eq_false_iff]
          exact fun hyes => hmissing hrun ((hasWindow_iff hpos).mp hyes)
        constructor
        · exact hwindow.symm
        · intro hyes
          cases hyes
        · simp only [Bool.false_eq_true, false_iff]
          omega
        · intro hover
          cases hover
        · intro _ c hc
          exact List.mem_toFinset.mpr (List.mem_of_mem_take hc)
  · rename_i hshort
    have hwindow : hasWindow n primaries.toFinset = false := by
      rw [Bool.eq_false_iff]
      intro hyes
      obtain ⟨start, hstart⟩ := (hasWindow_iff hpos).mp hyes
      have := hstart.card_le
      omega
    constructor
    · exact hwindow.symm
    · intro hyes
      cases hyes
    · simp only [true_iff]
      omega
    · intro _ c hc
      exact List.mem_append_left _ (List.mem_toFinset.mp hc)
    · intro hno
      cases hno

/-- A candidate for every node that can take the request, and for no other. -/
theorem nodeCandidate_isSome : (∃ t, nodeCandidate n occupied options node nodeCores = some t) ↔
    n ≤ (nodeCores \ occupied).card ∧ options.PassesGate node := by
  unfold nodeCandidate
  rw [length_freeCores]
  constructor
  · rintro ⟨t, h⟩
    split at h
    · cases h
    · rename_i hroom
      obtain ⟨used, hused, -⟩ := Option.map_eq_some_iff.mp h
      exact ⟨not_lt.mp hroom, (options.gatedUse_eq_some.mp hused).1⟩
  · rintro ⟨hroom, hgate⟩
    rw [if_neg (not_lt.mpr hroom), options.gatedUse_eq_some.mpr ⟨hgate, rfl⟩]
    exact ⟨_, rfl⟩

theorem nodeCandidate_rank (hpos : 0 < n)
    (h : nodeCandidate n occupied options node nodeCores = some t) :
    t.key = rank n occupied options node nodeCores ∧
      Choice n (freePrimaries occupied options nodeCores)
        (t.chosen, !t.notContiguous, t.oversub) := by
  have hchosen := @chooseCores_choice n (primaries options.smtSecondary (freeCores occupied nodeCores))
    (siblings options.smtSecondary (freeCores occupied nodeCores)) hpos
    (sorted_primaries options.smtSecondary occupied nodeCores)
  rw [toFinset_primaries] at hchosen
  unfold nodeCandidate at h
  split at h
  · cases h
  · obtain ⟨used, hused, rfl⟩ := Option.map_eq_some_iff.mp h
    obtain ⟨-, rfl⟩ := options.gatedUse_eq_some.mp hused
    refine ⟨?_, by simpa using hchosen⟩
    simp only [Candidate.key, rank, hchosen.contiguous, length_freeCores]

/-- With specs that parse, the loop over the nodes collects the candidates of all of them. -/
theorem exists_candidates
    (hparse : ∀ entry ∈ numaNodes, ∃ cores, parseCpuList entry.2 = .ok cores) :
    ∃ found, candidates n occupied options numaNodes = .ok found ∧
      ∀ t, t ∈ found ↔ ∃ node nodeCores, Listed numaNodes node nodeCores ∧
        nodeCandidate n occupied options node nodeCores = some t := by
  induction numaNodes with
  | nil =>
      refine ⟨[], rfl, fun t => ?_⟩
      simp [Listed]
  | cons entry rest ih =>
      obtain ⟨node, spec⟩ := entry
      obtain ⟨nodeCores, hspec⟩ := hparse (node, spec) (List.mem_cons_self ..)
      obtain ⟨later, hlater, hmem⟩ := ih fun e he => hparse e (List.mem_cons_of_mem _ he)
      refine ⟨(nodeCandidate n occupied options node nodeCores).toList ++ later, ?_, fun t => ?_⟩
      · rw [candidates, hspec, hlater]
        rfl
      · rw [List.mem_append, Option.mem_toList, hmem]
        constructor
        · rintro (hfirst | ⟨node', cores', ⟨spec', hlisted, hspec'⟩, hrest⟩)
          · exact ⟨node, nodeCores, ⟨spec, List.mem_cons_self .., hspec⟩, hfirst⟩
          · exact ⟨node', cores', ⟨spec', List.mem_cons_of_mem _ hlisted, hspec'⟩, hrest⟩
        · rintro ⟨node', cores', ⟨spec', hlisted, hspec'⟩, hcandidate⟩
          rcases List.mem_cons.mp hlisted with heq | hlisted
          · cases heq
            rw [hspec] at hspec'
            cases hspec'
            exact Or.inl hcandidate
          · exact Or.inr ⟨node', cores', ⟨spec', hlisted, hspec'⟩, hcandidate⟩

/-- What `allocate` makes of the node it chooses. -/
def Candidate.placement (options : AllocateOptions) (t : Candidate) : Placement :=
  { cpuList := formatCpuList t.chosen.toFinset
    node := t.node
    interleave := options.willInterleave
    contiguous := !t.notContiguous
    smtOversubscribed := t.oversub }

/-- The outcome of `allocate`: none without a candidate, else the least one. -/
theorem allocate_of_candidates {found : List Candidate} (hpos : 0 < n)
    (hfound : candidates n occupied options numaNodes = .ok found) :
    (found = [] ∧ allocate n occupied numaNodes options = .ok none) ∨
      ∃ best ∈ found, (∀ t ∈ found, best.key ≤ t.key) ∧
        allocate n occupied numaNodes options = .ok (some (best.placement options)) := by
  have hresult : allocate n occupied numaNodes options =
      .ok ((found.insertionSort fun a b => a.key ≤ b.key).head?.map (Candidate.placement options)) := by
    rw [allocate, if_neg (not_le.mpr hpos), hfound]
    simp only [bind, Except.bind]
    split <;> rename_i hsort <;> rw [hsort] <;> rfl
  have hmem : ∀ t, t ∈ found.insertionSort (fun a b => a.key ≤ b.key) ↔ t ∈ found := fun t =>
    List.mem_insertionSort _
  have hsorted : (found.insertionSort (fun a b => a.key ≤ b.key)).Pairwise
      fun a b => a.key ≤ b.key := by
    have : Std.Total fun a b : Candidate => a.key ≤ b.key := ⟨fun a b => le_total a.key b.key⟩
    have : IsTrans Candidate fun a b => a.key ≤ b.key := ⟨fun _ _ _ => le_trans⟩
    exact List.pairwise_insertionSort _ _
  cases hsort : found.insertionSort (fun a b => a.key ≤ b.key) with
  | nil =>
      rw [hsort] at hresult hmem
      refine Or.inl ⟨?_, hresult⟩
      rw [List.eq_nil_iff_forall_not_mem]
      exact fun t ht => List.not_mem_nil ((hmem t).mpr ht)
  | cons best others =>
      rw [hsort] at hresult hmem hsorted
      refine Or.inr ⟨best, (hmem best).mp (List.mem_cons_self ..), fun t ht => ?_, hresult⟩
      rcases List.mem_cons.mp ((hmem t).mpr ht) with rfl | hlater
      · exact le_rfl
      · exact (List.pairwise_cons.mp hsorted).1 t hlater

/-- The placement of the least candidate is the one to make. -/
theorem best_of_candidates {found : List Candidate} (hpos : 0 < n)
    (hmem : ∀ t, t ∈ found ↔ ∃ node nodeCores, Listed numaNodes node nodeCores ∧
      nodeCandidate n occupied options node nodeCores = some t)
    (ht : t ∈ found) (hleast : ∀ t' ∈ found, t.key ≤ t'.key) :
    ∃ nodeCores, Best n occupied numaNodes options (t.placement options) nodeCores
      t.chosen.toFinset := by
  obtain ⟨node, nodeCores, hlisted, hcandidate⟩ := (hmem t).mp ht
  obtain ⟨hnode, hnodup, hlength, hfree⟩ := nodeCandidate_spec hpos hcandidate
  obtain ⟨hkey, hchosen⟩ := nodeCandidate_rank hpos hcandidate
  obtain ⟨hroom, hgate⟩ := nodeCandidate_isSome.mp ⟨t, hcandidate⟩
  subst hnode
  have heligible : ∀ node cores, Eligible n occupied numaNodes options node cores →
      ∃ t' ∈ found, t'.key = rank n occupied options node cores := by
    intro node cores h
    obtain ⟨t', ht'⟩ := nodeCandidate_isSome.mpr ⟨h.room, h.gate⟩
    exact ⟨t', (hmem t').mpr ⟨node, cores, h.listed, ht'⟩, (nodeCandidate_rank hpos ht').1⟩
  have hrank : ∀ node cores, Eligible n occupied numaNodes options node cores →
      rank n occupied options t.node nodeCores ≤ rank n occupied options node cores := by
    intro node cores h
    obtain ⟨t', ht', hkey'⟩ := heligible node cores h
    rw [← hkey, ← hkey']
    exact hleast t' ht'
  refine ⟨nodeCores, ⟨⟨hlisted, hroom, hgate⟩, ?_, ?_, ?_, ?_, ?_, ?_, ?_, ?_, hrank⟩⟩
  · obtain ⟨spec, -, hspec⟩ := hlisted
    refine parse_format fun c hc => nonneg_of_parseCpuList hspec c ?_
    exact (hfree c (List.mem_toFinset.mp hc)).1
  · rw [List.toFinset_card_of_nodup hnodup, hlength]
  · intro c hc
    exact Finset.mem_sdiff.mpr (hfree c (List.mem_toFinset.mp hc))
  · have hcontiguous : (!t.notContiguous) = hasWindow n (freePrimaries occupied options nodeCores) :=
      hchosen.contiguous
    show (!t.notContiguous) = true ↔ _
    rw [hcontiguous, hasWindow_iff hpos]
    constructor
    · rintro ⟨start, hwindow⟩
      exact ⟨t.node, nodeCores, start, ⟨hlisted, hroom, hgate⟩, hwindow⟩
    · rintro ⟨node, cores, start, h, hwindow⟩
      have hother : hasWindow n (freePrimaries occupied options cores) = true :=
        (hasWindow_iff hpos).mpr ⟨start, hwindow⟩
      -- a node with a window ranks before every node without one
      have hfirst := Prod.Lex.monotone_fst _ _ (hrank node cores h)
      simp only [rank, hother, Bool.not_true] at hfirst
      have hnone : (!hasWindow n (freePrimaries occupied options nodeCores)) = false :=
        le_bot_iff.mp hfirst
      rw [← hasWindow_iff hpos]
      simpa using hnone
  · intro hyes
    obtain ⟨start, hblock, hlow⟩ := hchosen.lowest hyes
    exact ⟨start, fun c => List.mem_toFinset.trans (hblock c), hlow⟩
  · exact hchosen.oversubscribed
  · intro hover c hc
    exact List.mem_toFinset.mpr (hchosen.physical hover c hc)

  · intro hno c hc
    exact hchosen.primary hno c (List.mem_toFinset.mp hc)

/-- The outcome of `allocate` on a topology that parses. -/
theorem exists_allocate (hpos : 0 < n)
    (hparse : ∀ entry ∈ numaNodes, ∃ cores, parseCpuList entry.2 = .ok cores) :
    (allocate n occupied numaNodes options = .ok none ∧
      ∀ node cores, ¬ Eligible n occupied numaNodes options node cores) ∨
      ∃ placement nodeCores block,
        allocate n occupied numaNodes options = .ok (some placement) ∧
        Best n occupied numaNodes options placement nodeCores block := by
  obtain ⟨found, hfound, hmem⟩ := @exists_candidates n occupied numaNodes options hparse
  rcases allocate_of_candidates hpos hfound with ⟨hnil, hnone⟩ | ⟨best, hbest, hleast, hsome⟩
  · refine Or.inl ⟨hnone, fun node cores h => ?_⟩
    obtain ⟨t, ht⟩ := nodeCandidate_isSome.mpr ⟨h.room, h.gate⟩
    have hin := (hmem t).mpr ⟨node, cores, h.listed, ht⟩
    rw [hnil] at hin
    exact List.not_mem_nil hin
  · obtain ⟨nodeCores, h⟩ := best_of_candidates hpos hmem hbest hleast
    exact Or.inr ⟨best.placement options, nodeCores, best.chosen.toFinset, hsome, h⟩

/-- The loop over the nodes comes to an end only if every spec parses. -/
theorem parse_of_candidates {found : List Candidate}
    (h : candidates n occupied options numaNodes = .ok found) :
    ∀ entry ∈ numaNodes, ∃ cores, parseCpuList entry.2 = .ok cores := by
  induction numaNodes generalizing found with
  | nil =>
      intro entry hentry
      cases hentry
  | cons first rest ih =>
      obtain ⟨node, spec⟩ := first
      obtain ⟨nodeCores, hspec, h⟩ := except_bind_eq_ok.mp h
      obtain ⟨later, hrest, -⟩ := except_bind_eq_ok.mp h
      intro entry hentry
      rcases List.mem_cons.mp hentry with rfl | hmem
      · exact ⟨nodeCores, hspec⟩
      · exact ih hrest entry hmem

/-- The allocator says that nothing is free only of a request no node can take. -/
theorem not_eligible_of_allocate (h : allocate n occupied numaNodes options = .ok none) :
    0 < n ∧ ∀ node cores, ¬ Eligible n occupied numaNodes options node cores := by
  have hpos : 0 < n := by
    by_contra hnot
    rw [allocate, if_pos (not_lt.mp hnot)] at h
    cases h
  refine ⟨hpos, ?_⟩
  have hopen := h
  rw [allocate, if_neg (not_le.mpr hpos)] at hopen
  obtain ⟨found, hfound, -⟩ := except_bind_eq_ok.mp hopen
  have hexists := @exists_allocate n occupied numaNodes options hpos (parse_of_candidates hfound)
  rcases hexists with ⟨-, hnone⟩ | ⟨placement, nodeCores, block, hsome, -⟩
  · exact hnone
  · rw [hsome] at h
    cases h

/-- The outcome does not depend on the order in which the nodes are listed. -/
theorem allocate_perm {other : List (ℤ × String)} (hpos : 0 < n)
    (hkeys : (numaNodes.map Prod.fst).Nodup)
    (hparse : ∀ entry ∈ numaNodes, ∃ cores, parseCpuList entry.2 = .ok cores)
    (hperm : other.Perm numaNodes) :
    allocate n occupied other options = allocate n occupied numaNodes options := by
  have hlisted : ∀ node cores, Listed other node cores ↔ Listed numaNodes node cores := by
    intro node cores
    constructor
    · rintro ⟨spec, hmem, hspec⟩
      exact ⟨spec, hperm.mem_iff.mp hmem, hspec⟩
    · rintro ⟨spec, hmem, hspec⟩
      exact ⟨spec, hperm.mem_iff.mpr hmem, hspec⟩
  obtain ⟨found, hfound, hmem⟩ := @exists_candidates n occupied numaNodes options hparse
  obtain ⟨found', hfound', hmem'⟩ := @exists_candidates n occupied other options fun entry h =>
    hparse entry (hperm.mem_iff.mp h)
  have hsame : ∀ t, t ∈ found' ↔ t ∈ found := by
    intro t
    rw [hmem, hmem']
    simp only [hlisted]
  rcases allocate_of_candidates hpos hfound with ⟨hnil, hnone⟩ | ⟨best, hbest, hleast, hsome⟩
  · rcases allocate_of_candidates hpos hfound' with ⟨-, hnone'⟩ | ⟨best', hbest', -, -⟩
    · rw [hnone, hnone']
    · rw [hsame, hnil] at hbest'
      exact absurd hbest' List.not_mem_nil
  · rcases allocate_of_candidates hpos hfound' with ⟨hnil', -⟩ | ⟨best', hbest', hleast', hsome'⟩
    · rw [← hsame, hnil'] at hbest
      exact absurd hbest List.not_mem_nil
    · -- two least candidates have one key, so one node, so they are the same
      have hkey : best.key = best'.key :=
        le_antisymm (hleast best' ((hsame best').mp hbest')) (hleast' best ((hsame best).mpr hbest))
      obtain ⟨node, cores, hlist, hcandidate⟩ := (hmem best).mp hbest
      obtain ⟨node', cores', hlist', hcandidate'⟩ := (hmem best').mp ((hsame best').mp hbest')
      have hnode : node = node' := by
        have heq : best.node = best'.node := by
          simp only [Candidate.key, EmbeddingLike.apply_eq_iff_eq, Prod.mk.injEq] at hkey
          exact hkey.2.2.2
        rw [← (nodeCandidate_spec hpos hcandidate).1, heq,
          (nodeCandidate_spec hpos hcandidate').1]
      subst hnode
      rw [hlist.unique hkeys hlist', hcandidate'] at hcandidate
      cases hcandidate
      rw [hsome, hsome']

end

/-- `allocate` is sound, complete and optimal: on a topology that parses it returns no
placement exactly if no node can take the request, and else the best one, whatever the
order of the nodes. -/
theorem allocate_optimal (n : ℤ) (occupied : Finset ℤ) (numaNodes : List (ℤ × String))
    (options : AllocateOptions) (hpos : 0 < n) (hkeys : (numaNodes.map Prod.fst).Nodup)
    (hparse : ∀ entry ∈ numaNodes, ∃ cores, parseCpuList entry.2 = .ok cores) :
    ∃ result, allocate n occupied numaNodes options = .ok result ∧
      (result = none ↔ ∀ node cores, ¬ Eligible n occupied numaNodes options node cores) ∧
      (∀ placement, result = some placement →
        ∃ nodeCores block, Best n occupied numaNodes options placement nodeCores block) ∧
      ∀ other, other.Perm numaNodes → allocate n occupied other options = .ok result := by
  have hperm := fun other => @allocate_perm n occupied numaNodes options other hpos hkeys hparse
  rcases @exists_allocate n occupied numaNodes options hpos hparse with
    ⟨hnone, hnot⟩ | ⟨placement, nodeCores, block, hsome, hbest⟩
  · refine ⟨none, hnone, ⟨fun _ => hnot, fun _ => rfl⟩, fun placement h => ?_, fun other h => ?_⟩
    · cases h
    · rw [hperm other h, hnone]
  · refine ⟨some placement, hsome, ⟨fun h => ?_, fun h => ?_⟩, fun placement' h => ?_,
      fun other h => ?_⟩
    · cases h
    · exact absurd hbest.eligible (h placement.node nodeCores)
    · cases h
      exact ⟨nodeCores, block, hbest⟩
    · rw [hperm other h, hsome]

/-- Two nodes, the second with the longer window. -/
theorem allocate_optimal_pair :
    ∃ result, allocate 2 {0} [(0, "0-2"), (1, "4-7")] {} = .ok result ∧
      (result = none ↔ ∀ node cores, ¬ Eligible 2 {0} [(0, "0-2"), (1, "4-7")] {} node cores) ∧
      (∀ placement, result = some placement → ∃ nodeCores block,
        Best 2 {0} [(0, "0-2"), (1, "4-7")] {} placement nodeCores block) ∧
      ∀ other, other.Perm [(0, "0-2"), (1, "4-7")] → allocate 2 {0} other {} = .ok result := by
  apply allocate_optimal 2 {0} [(0, "0-2"), (1, "4-7")] {} (by decide) (by decide)
  intro entry hentry
  simp only [List.mem_cons, List.not_mem_nil, or_false] at hentry
  rcases hentry with rfl | rfl
  · exact ⟨{0, 1, 2}, by decide +kernel⟩
  · exact ⟨{4, 5, 6, 7}, by decide +kernel⟩

/-! ## Physical cores first -/

/-- A placement without SMT siblings, not flagged as oversubscribed. -/
def OnPhysicalCores (secondary : Finset ℤ) (placement : Placement) : Prop :=
  placement.smtOversubscribed = false ∧
    ∃ block, parseCpuList placement.cpuList = .ok block ∧ Disjoint block secondary

/-- The node with the most free CPUs, the lowest of several. -/
def Fullest (occupied : Finset ℤ) (numaNodes : List (ℤ × String)) (node : ℤ)
    (nodeCores : Finset ℤ) : Prop :=
  Listed numaNodes node nodeCores ∧ ∀ other otherCores, Listed numaNodes other otherCores →
    (otherCores \ occupied).card < (nodeCores \ occupied).card ∨
      ((otherCores \ occupied).card = (nodeCores \ occupied).card ∧ node ≤ other)

/-- With the memory gate off, a request that some node can serve from its free primaries is
placed on primaries exactly if some node has a window of them, or the node with the most
free CPUs has enough primaries. -/
theorem physical_cores_first (n : ℤ) (occupied : Finset ℤ) (numaNodes : List (ℤ × String))
    (options : AllocateOptions) (hpos : 0 < n) (hkeys : (numaNodes.map Prod.fst).Nodup)
    (hparse : ∀ entry ∈ numaNodes, ∃ cores, parseCpuList entry.2 = .ok cores)
    (hgate : options.gateRam = false)
    (hroom : ∃ node cores, Listed numaNodes node cores ∧
      n ≤ (freePrimaries occupied options cores).card) :
    (∃ placement, allocate n occupied numaNodes options = .ok (some placement) ∧
      OnPhysicalCores options.smtSecondary placement) ↔
      (∃ node cores start, Listed numaNodes node cores ∧
        Window n (freePrimaries occupied options cores) start) ∨
      ∃ node cores, Fullest occupied numaNodes node cores ∧
        n ≤ (freePrimaries occupied options cores).card := by
  have heligible : ∀ node cores, Listed numaNodes node cores →
      n ≤ (freePrimaries occupied options cores).card →
      Eligible n occupied numaNodes options node cores := by
    intro node cores hlisted hprimaries
    have hsub : (freePrimaries occupied options cores).card ≤ (cores \ occupied).card :=
      Finset.card_le_card Finset.sdiff_subset
    exact ⟨hlisted, by omega, fun hon => by rw [hgate] at hon; cases hon⟩
  obtain ⟨node₀, cores₀, hlisted₀, hprimaries₀⟩ := hroom
  rcases @exists_allocate n occupied numaNodes options hpos hparse with
    ⟨-, hnot⟩ | ⟨placement, nodeCores, block, hsome, hbest⟩
  · exact absurd (heligible node₀ cores₀ hlisted₀ hprimaries₀) (hnot node₀ cores₀)
  have hphysical : (∃ placement, allocate n occupied numaNodes options = .ok (some placement) ∧
      OnPhysicalCores options.smtSecondary placement) ↔
      n ≤ (freePrimaries occupied options nodeCores).card := by
    constructor
    · rintro ⟨placement', hsome', hflag, -⟩
      rw [hsome] at hsome'
      cases hsome'
      by_contra hshort
      rw [hbest.oversubscribed.mpr (not_le.mp hshort)] at hflag
      cases hflag
    · intro henough
      have hflag : placement.smtOversubscribed = false := by
        rw [Bool.eq_false_iff]
        exact fun hover => absurd (hbest.oversubscribed.mp hover) (not_lt.mpr henough)
      refine ⟨placement, hsome, hflag, block, hbest.reads, ?_⟩
      exact Finset.disjoint_of_subset_left (hbest.primary hflag) Finset.sdiff_disjoint
  rw [hphysical]
  by_cases hwindow : placement.contiguous = true
  · -- a window somewhere: the chosen node has one, so enough primaries
    obtain ⟨node, cores, start, hnode, hstart⟩ := hbest.contiguous.mp hwindow
    obtain ⟨low, -, hlow⟩ := hbest.lowest hwindow
    have henough : n ≤ (freePrimaries occupied options nodeCores).card := Window.card_le hlow.1
    exact ⟨fun _ => Or.inl ⟨node, cores, start, hnode.listed, hstart⟩, fun _ => henough⟩
  · -- no window: the order between the nodes is by the free CPUs of both kinds
    have hnone : ∀ node cores start, Listed numaNodes node cores →
        ¬ Window n (freePrimaries occupied options cores) start := by
      intro node cores start hlisted hstart
      exact hwindow (hbest.contiguous.mpr
        ⟨node, cores, start, heligible node cores hlisted hstart.card_le, hstart⟩)
    have hrank : ∀ node cores, Listed numaNodes node cores →
        rank n occupied options node cores =
          toLex (true, toLex (-((cores \ occupied).card : ℤ), toLex (0, node))) := by
      intro node cores hlisted
      have hno : hasWindow n (freePrimaries occupied options cores) = false := by
        rw [Bool.eq_false_iff]
        intro hyes
        obtain ⟨start, hstart⟩ := (hasWindow_iff hpos).mp hyes
        exact hnone node cores start hlisted hstart
      rw [rank, hno, AllocateOptions.gateMemory, hgate]
      rfl
    have hfullest : Fullest occupied numaNodes placement.node nodeCores := by
      refine ⟨hbest.eligible.listed, fun node cores hlisted => ?_⟩
      by_cases hroom : n ≤ (cores \ occupied).card
      · have hle := hbest.least node cores
          ⟨hlisted, hroom, fun hon => by rw [hgate] at hon; cases hon⟩
        rw [hrank _ _ hbest.eligible.listed, hrank _ _ hlisted] at hle
        simp only [Prod.Lex.toLex_le_toLex, lt_irrefl, false_or, true_and] at hle
        omega
      · have := hbest.eligible.room
        omega
    constructor
    · intro henough
      exact Or.inr ⟨placement.node, nodeCores, hfullest, henough⟩
    · rintro (⟨node, cores, start, hlisted, hstart⟩ | ⟨node, cores, hfull, henough⟩)
      · exact absurd hstart (hnone node cores start hlisted)
      · have hnode : node = placement.node := by
          have hle := hfull.2 placement.node nodeCores hfullest.1
          have hge := hfullest.2 node cores hfull.1
          omega
        subst hnode
        rwa [hfullest.1.unique hkeys hfull.1]

/-- Both nodes have two free primaries apart from each other, and node 1 has the most free CPUs. -/
theorem physical_cores_first_pair :
    (∃ placement, allocate 2 {1, 3, 5, 7} [(0, "0-3"), (1, "4-11")]
        { smtSecondary := {8, 9, 10, 11} } = .ok (some placement) ∧
      OnPhysicalCores {8, 9, 10, 11} placement) ↔
      (∃ node cores start, Listed [(0, "0-3"), (1, "4-11")] node cores ∧
        Window 2 (freePrimaries {1, 3, 5, 7} { smtSecondary := {8, 9, 10, 11} } cores) start) ∨
      ∃ node cores, Fullest {1, 3, 5, 7} [(0, "0-3"), (1, "4-11")] node cores ∧
        2 ≤ ((freePrimaries {1, 3, 5, 7} { smtSecondary := {8, 9, 10, 11} } cores).card : ℤ) := by
  apply physical_cores_first 2 {1, 3, 5, 7} [(0, "0-3"), (1, "4-11")]
    { smtSecondary := {8, 9, 10, 11} } (by decide) (by decide) ?_ (by decide) ?_
  · intro entry hentry
    rcases List.mem_cons.mp hentry with rfl | hrest
    · exact ⟨{0, 1, 2, 3}, by decide +kernel⟩
    · rw [List.mem_singleton.mp hrest]
      exact ⟨{4, 5, 6, 7, 8, 9, 10, 11}, by decide +kernel⟩
  · exact ⟨1, {4, 5, 6, 7, 8, 9, 10, 11}, ⟨"4-11", by simp, by decide +kernel⟩, by decide +kernel⟩

/-- Node 0 has two free primaries apart from each other, node 1 only one of its four, but its
siblings 8 to 11 count as free CPUs. -/
theorem physical_cores_passed_over :
    (∃ node cores, Listed [(0, "0-3"), (1, "4-11")] node cores ∧
      2 ≤ (freePrimaries {1, 3, 4, 5, 6} { smtSecondary := {8, 9, 10, 11} } cores).card) ∧
    ¬ ∃ placement, allocate 2 {1, 3, 4, 5, 6} [(0, "0-3"), (1, "4-11")]
        { smtSecondary := {8, 9, 10, 11} } = .ok (some placement) ∧
      OnPhysicalCores {8, 9, 10, 11} placement := by
  constructor
  · exact ⟨0, {0, 1, 2, 3}, ⟨"0-3", by simp, by decide +kernel⟩, by decide +kernel⟩
  · rintro ⟨placement, hsome, hflag, -⟩
    have hplaced : allocate 2 {1, 3, 4, 5, 6} [(0, "0-3"), (1, "4-11")]
        { smtSecondary := {8, 9, 10, 11} } =
        .ok (some
          { cpuList := "7-8", node := 1, contiguous := false, smtOversubscribed := true }) := by
      decide +kernel
    rw [hplaced] at hsome
    cases hsome
    cases hflag

end Nodepilot
