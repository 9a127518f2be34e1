import Nodepilot.Machine.Trial

/-!
# Core exclusivity

Every running job holds a block of as many CPUs as it asked for, on its node and
outside the reserved ones, and no two running jobs share a CPU: `Exclusive`.  One
turn keeps it, since the only turn that makes a job run places it on a block
disjoint from everything `_occupied_cores` reads back from the others.

The two accountings of cores agree: `_occupied_cores` counts what the running
jobs declare.
-/

namespace Nodepilot

/-! ## Blocks -/

/-- The CPUs of a job's `cpu_list`. -/
def blockOf (job : Job) : Finset ℤ :=
  match parseCpuList job.cpuList with
  | .ok block => block
  | .error _ => ∅

theorem blockOf_eq {job : Job} {block : Finset ℤ} (h : parseCpuList job.cpuList = .ok block) :
    blockOf job = block := by
  rw [blockOf, h]

theorem blockOf_of_empty {job : Job} (h : job.cpuList = "") : blockOf job = ∅ := by
  apply blockOf_eq
  rw [h]
  rfl

/-- The job holds what it asked for: a block of its node, or none if it asked for none. -/
def Holds (site : Site) (job : Job) : Prop :=
  if 0 < job.cores then
    ∃ spec nodeCores block, (job.numaNode, spec) ∈ site.numaNodes ∧
      parseCpuList spec = .ok nodeCores ∧ parseCpuList job.cpuList = .ok block ∧
      (block.card : ℤ) = job.cores ∧ block ⊆ nodeCores ∧ Disjoint block site.reserved
  else job.cpuList = ""

theorem Holds.parses {site : Site} {job : Job} (h : Holds site job) :
    parseCpuList job.cpuList = .ok (blockOf job) := by
  unfold Holds at h
  split at h
  · obtain ⟨spec, nodeCores, block, -, -, hparse, -⟩ := h
    rw [blockOf_eq hparse]
    exact hparse
  · rw [blockOf_of_empty h, h]
    rfl

theorem Holds.card {site : Site} {job : Job} (h : Holds site job) :
    ((blockOf job).card : ℤ) = max 0 job.cores := by
  unfold Holds at h
  split at h
  · rename_i hpos
    obtain ⟨spec, nodeCores, block, -, -, hparse, hcard, -⟩ := h
    rw [blockOf_eq hparse, hcard]
    exact (max_eq_right hpos.le).symm
  · rename_i hnonpos
    rw [blockOf_of_empty h]
    simp only [Finset.card_empty, Nat.cast_zero]
    omega

theorem Holds.disjoint_reserved {site : Site} {job : Job} (h : Holds site job) :
    Disjoint (blockOf job) site.reserved := by
  unfold Holds at h
  split at h
  · obtain ⟨spec, nodeCores, block, -, -, hparse, -, -, hreserved⟩ := h
    rw [blockOf_eq hparse]
    exact hreserved
  · rw [blockOf_of_empty h]
    exact Finset.disjoint_empty_left _

/-- The invariant of the job list. -/
structure Exclusive (site : Site) (jobs : List Job) : Prop where
  holds : ∀ job ∈ jobs, job.status = .running → Holds site job
  disjoint : ∀ (i j : ℕ) (a b : Job), i ≠ j → jobs[i]? = some a → jobs[j]? = some b → a.status = .running →
    b.status = .running → Disjoint (blockOf a) (blockOf b)

/-! ## Occupied cores -/

theorem subset_occupiedFrom {occ occupied : Finset ℤ} {jobs : List Job}
    (h : occupiedFrom occ jobs = .ok occupied) : occ ⊆ occupied := by
  induction jobs generalizing occ with
  | nil =>
      cases h
      exact Finset.Subset.refl _
  | cons job rest ih =>
      rw [occupiedFrom] at h
      split at h
      · obtain ⟨cores, -, h⟩ := except_bind_eq_ok.mp h
        exact Finset.subset_union_left.trans (ih h)
      · exact ih h

/-- What a running job holds is occupied. -/
theorem blockOf_subset_occupiedFrom {occ occupied : Finset ℤ} {jobs : List Job}
    (h : occupiedFrom occ jobs = .ok occupied) {job : Job} (hmem : job ∈ jobs)
    (hrunning : job.status = .running) : blockOf job ⊆ occupied := by
  induction jobs generalizing occ with
  | nil => cases hmem
  | cons first rest ih =>
      rw [occupiedFrom] at h
      rcases List.mem_cons.mp hmem with rfl | hmem
      · split at h
        · obtain ⟨cores, hparse, h⟩ := except_bind_eq_ok.mp h
          rw [blockOf_eq hparse]
          exact Finset.subset_union_right.trans (subset_occupiedFrom h)
        · rename_i hempty
          have hlist : job.cpuList = "" := by
            by_contra hne
            exact hempty ⟨hrunning, hne⟩
          rw [blockOf_of_empty hlist]
          exact Finset.empty_subset _
      · split at h
        · obtain ⟨cores, -, h⟩ := except_bind_eq_ok.mp h
          exact ih h hmem
        · exact ih h hmem

/-- What is occupied is reserved or in the block of a running job. -/
theorem mem_occupiedFrom {occ occupied : Finset ℤ} {jobs : List Job}
    (h : occupiedFrom occ jobs = .ok occupied) {c : ℤ} (hc : c ∈ occupied) :
    c ∈ occ ∨ ∃ job ∈ running jobs, c ∈ blockOf job := by
  induction jobs generalizing occ with
  | nil =>
      cases h
      exact .inl hc
  | cons job rest ih =>
      have hstep : ∀ {other : Job}, other ∈ running rest → other ∈ running (job :: rest) := by
        intro other hother
        obtain ⟨hmem, hrunning⟩ := List.mem_filter.mp hother
        exact List.mem_filter.mpr ⟨List.mem_cons_of_mem _ hmem, hrunning⟩
      rw [occupiedFrom] at h
      split at h
      · rename_i hholds
        obtain ⟨cores, hparse, h⟩ := except_bind_eq_ok.mp h
        rcases ih h with hfirst | ⟨other, hother, hin⟩
        · rcases Finset.mem_union.mp hfirst with hfirst | hblock
          · exact .inl hfirst
          · have hmem : job ∈ running (job :: rest) := by
              simp [running, hholds.1]
            rw [← blockOf_eq hparse] at hblock
            exact .inr ⟨job, hmem, hblock⟩
        · exact .inr ⟨other, hstep hother, hin⟩
      · rcases ih h with hfirst | ⟨other, hother, hin⟩
        · exact .inl hfirst
        · exact .inr ⟨other, hstep hother, hin⟩

theorem card_sdiff_union {occ block occupied : Finset ℤ} (hsub : occ ∪ block ⊆ occupied)
    (hdisjoint : Disjoint occ block) :
    (occupied \ occ).card = block.card + (occupied \ (occ ∪ block)).card := by
  have hall := Finset.card_sdiff_add_card_eq_card hsub
  have hocc := Finset.card_sdiff_add_card_eq_card (Finset.subset_union_left.trans hsub)
  rw [Finset.card_union_of_disjoint hdisjoint] at hall
  omega

/-- `_occupied_cores` counts the cores the running jobs declare. -/
theorem occupiedFrom_card {site : Site} (occ : Finset ℤ) {jobs : List Job}
    (hjobs : Exclusive site jobs)
    (hfresh : ∀ job ∈ jobs, job.status = .running → Disjoint (blockOf job) occ) :
    ∃ occupied, occupiedFrom occ jobs = .ok occupied ∧ occ ⊆ occupied ∧
      ((occupied \ occ).card : ℤ) = ((running jobs).map fun j => max 0 j.cores).sum := by
  induction jobs generalizing occ with
  | nil => exact ⟨occ, rfl, Finset.Subset.refl _, by simp [running]⟩
  | cons first rest ih =>
      have hrest : Exclusive site rest := by
        refine ⟨fun job hmem => hjobs.holds job (List.mem_cons_of_mem _ hmem), ?_⟩
        intro i j a b hne ha hb
        exact hjobs.disjoint (i + 1) (j + 1) a b (by omega) ha hb
      have hapart : first.status = .running → ∀ job ∈ rest, job.status = .running →
          Disjoint (blockOf job) (blockOf first) := by
        intro hfirst job hmem hrunning
        obtain ⟨k, hk⟩ := List.mem_iff_getElem?.mp hmem
        exact hjobs.disjoint (k + 1) 0 job first (by omega) hk rfl hrunning hfirst
      have hlater : ∀ job ∈ rest, job.status = .running → Disjoint (blockOf job) occ :=
        fun job hmem => hfresh job (List.mem_cons_of_mem _ hmem)
      rw [occupiedFrom]
      by_cases hfirst : first.status = .running
      · have hholds := hjobs.holds first (List.mem_cons_self ..) hfirst
        have hsum : ((running (first :: rest)).map fun j => max 0 j.cores).sum =
            max 0 first.cores + ((running rest).map fun j => max 0 j.cores).sum := by
          simp [running, hfirst]
        split
        · obtain ⟨occupied, hrun, hsub, hcard⟩ := ih (occ ∪ blockOf first) hrest
            fun job hmem hrunning => Finset.disjoint_union_right.mpr
              ⟨hlater job hmem hrunning, hapart hfirst job hmem hrunning⟩
          refine ⟨occupied, ?_, Finset.subset_union_left.trans hsub, ?_⟩
          · rw [hholds.parses]
            exact hrun
          · have hblock : Disjoint (blockOf first) occ :=
              hfresh first (List.mem_cons_self ..) hfirst
            have hcount := card_sdiff_union hsub hblock.symm
            rw [hsum, ← hcard, ← hholds.card]
            omega
        · rename_i hempty
          have hlist : first.cpuList = "" := by
            by_contra hne
            exact hempty ⟨hfirst, hne⟩
          have hnone : max 0 first.cores = 0 := by
            rw [← hholds.card, blockOf_of_empty hlist]
            rfl
          obtain ⟨occupied, hrun, hsub, hcard⟩ := ih occ hrest hlater
          refine ⟨occupied, hrun, hsub, ?_⟩
          rw [hcard, hsum, hnone, zero_add]
      · rw [if_neg fun h => hfirst h.1]
        obtain ⟨occupied, hrun, hsub, hcard⟩ := ih occ hrest hlater
        refine ⟨occupied, hrun, hsub, ?_⟩
        rw [hcard]
        simp [running, hfirst]

/-! ## One turn -/

/-- A turn that leaves its job not running keeps exclusivity. -/
theorem Exclusive.of_stop {site : Site} {jobs : List Job} {i : ℕ} {f : Job → Job}
    (h : Exclusive site jobs) (hstop : ∀ job : Job, (f job).status ≠ .running) :
    Exclusive site (jobs.modify i f) := by
  have hkept : ∀ (k : ℕ) (job : Job), (jobs.modify i f)[k]? = some job → job.status = .running →
      jobs[k]? = some job := by
    intro k job hget hrunning
    rcases getElem?_modify_cases hget with ⟨-, hold⟩ | ⟨old, -, -, rfl⟩
    · exact hold
    · exact absurd hrunning (hstop old)
  refine ⟨fun job hmem hrunning => ?_, fun a b x y hne hx hy hxr hyr => ?_⟩
  · obtain ⟨k, hk⟩ := List.mem_iff_getElem?.mp hmem
    exact h.holds job (List.mem_of_getElem? (hkept k job hk hrunning)) hrunning
  · exact h.disjoint a b x y hne (hkept a x hx hxr) (hkept b y hy hyr) hxr hyr

/-- The block of a placement, as the job placed on it holds it. -/
theorem holds_of_placeable {site : Site} {jobs : List Job} {job : Job} {placement : Placement}
    (placed : Job) (h : Placeable site jobs job placement)
    (hcores : placed.cores = job.cores) (hlist : placed.cpuList = placement.cpuList)
    (hnode : placed.numaNode = placement.node) :
    Holds site placed ∧ ∀ other ∈ jobs, other.status = .running →
      Disjoint (blockOf placed) (blockOf other) := by
  obtain ⟨occupied, hoccupied, halloc⟩ := h
  unfold Holds
  rw [hcores, hlist, hnode]
  by_cases hpos : 0 < job.cores
  · obtain ⟨spec, nodeCores, block, hspec, hnodeCores, hparse, hcard, hsub, hdisjoint⟩ :=
      allocate_spec hpos halloc
    rw [if_pos hpos]
    refine ⟨⟨spec, nodeCores, block, hspec, hnodeCores, hparse, hcard, hsub, ?_⟩, ?_⟩
    · exact Finset.disjoint_of_subset_right (subset_occupiedFrom hoccupied) hdisjoint
    · intro other hmem hrunning
      rw [blockOf_eq (hlist ▸ hparse)]
      exact Finset.disjoint_of_subset_right
        (blockOf_subset_occupiedFrom hoccupied hmem hrunning) hdisjoint
  · have hempty := allocate_of_nonpos (not_lt.mp hpos) halloc
    rw [if_neg hpos]
    refine ⟨hempty, fun other _ _ => ?_⟩
    rw [blockOf_of_empty (hlist.trans hempty)]
    exact Finset.disjoint_empty_left _

theorem Exclusive.of_launch {site : Site} {jobs : List Job} {i : ℕ} {job : Job}
    {placement : Placement} {session : String} {now : ℚ} (h : Exclusive site jobs)
    (hjob : jobs[i]? = some job) (hplaced : Placeable site jobs job placement) :
    Exclusive site (jobs.modify i (Job.launch placement session now)) := by
  obtain ⟨hholds, hapart⟩ := holds_of_placeable (job.launch placement session now) hplaced rfl rfl rfl
  have hget : ∀ (k : ℕ) (x : Job), (jobs.modify i (Job.launch placement session now))[k]? = some x →
      (k = i ∧ x = job.launch placement session now) ∨ (k ≠ i ∧ jobs[k]? = some x) := by
    intro k x hx
    rcases getElem?_modify_cases hx with hold | ⟨old, hk, hold, rfl⟩
    · exact .inr hold
    · rw [hjob] at hold
      cases hold
      exact .inl ⟨hk, rfl⟩
  refine ⟨fun x hmem hrunning => ?_, fun a b x y hne hx hy hxr hyr => ?_⟩
  · obtain ⟨k, hk⟩ := List.mem_iff_getElem?.mp hmem
    rcases hget k x hk with ⟨-, rfl⟩ | ⟨-, hold⟩
    · exact hholds
    · exact h.holds x (List.mem_of_getElem? hold) hrunning
  · rcases hget a x hx with ⟨ha, rfl⟩ | ⟨-, hold⟩
    · rcases hget b y hy with ⟨hb, -⟩ | ⟨-, hold⟩
      · exact absurd (ha.trans hb.symm) hne
      · exact hapart y (List.mem_of_getElem? hold) hyr
    · rcases hget b y hy with ⟨-, rfl⟩ | ⟨-, hold'⟩
      · exact (hapart x (List.mem_of_getElem? hold) hxr).symm
      · exact h.disjoint a b x y hne hold hold' hxr hyr

theorem Turn.exclusive {site : Site} {gated : Bool} {label : Label} {jobs jobs' : List Job}
    (hturn : Turn site gated label jobs jobs') (h : Exclusive site jobs) :
    Exclusive site jobs' := by
  cases hturn with
  | ask => exact h
  | save => exact h
  | spare => exact h
  | reap hjob hrunning hend =>
      refine h.of_stop fun job => ?_
      rcases hend with hend | hend <;> simp [hend]
  | skip => exact h.of_stop fun job => by simp
  | launch hjob hpending hdeps hadmits hplaced => exact h.of_launch hjob hplaced
  | fail => exact h.of_stop fun job => by simp
  | kill => exact h.of_stop fun job => by simp
  | clear => exact h.of_stop fun job => by simp

/-! ## Runs -/

variable {W : Type} [Host W]

/-- The jobs of a queue as it is loaded: waiting or dormant, runtime fields untouched. -/
def FreshQueue (jobs : List Job) : Prop :=
  ∀ job ∈ jobs, (job.status = .pending ∨ job.status = .dormant) ∧ job.freshRuntime

instance (jobs : List Job) : Decidable (FreshQueue jobs) := by
  unfold FreshQueue
  infer_instance

theorem FreshQueue.exclusive {site : Site} {jobs : List Job} (h : FreshQueue jobs) :
    Exclusive site jobs := by
  have hidle : ∀ job ∈ jobs, job.status ≠ .running := by
    intro job hmem hrunning
    rcases (h job hmem).1 with hstatus | hstatus <;> rw [hrunning] at hstatus <;> cases hstatus
  exact ⟨fun job hmem hrunning => absurd hrunning (hidle job hmem),
    fun i j a b _ ha _ harunning => absurd harunning (hidle a (List.mem_of_getElem? ha))⟩

/-- In every state of every run the running jobs hold disjoint blocks of the size they
asked for, each on its node and outside the reserved cores, and `_occupied_cores`
counts exactly those cores. -/
theorem core_exclusivity (site : Site) (hqueue : FreshQueue site.queue) (s : Sys W)
    (h : Reached site false s) :
    (∀ job ∈ s.jobs, job.status = .running → 1 ≤ job.cores →
      ∃ spec nodeCores block, (job.numaNode, spec) ∈ site.numaNodes ∧
        parseCpuList spec = .ok nodeCores ∧ parseCpuList job.cpuList = .ok block ∧
        (block.card : ℤ) = job.cores ∧ block ⊆ nodeCores ∧ Disjoint block site.reserved) ∧
    (∀ (i j : ℕ) (a b : Job), i ≠ j → s.jobs[i]? = some a → s.jobs[j]? = some b → a.status = .running →
      b.status = .running → ∃ blockA blockB, parseCpuList a.cpuList = .ok blockA ∧
        parseCpuList b.cpuList = .ok blockB ∧ Disjoint blockA blockB) ∧
    ∃ occupied, occupiedCores site s.jobs = .ok occupied ∧
      ((running s.jobs).map fun j => max 0 j.cores).sum = (occupied \ site.reserved).card := by
  have hexclusive : Exclusive site s.jobs :=
    (h.jobs hqueue.exclusive fun _ _ _ => Turn.exclusive).1
  refine ⟨fun job hmem hrunning hcores => ?_, fun i j a b hne ha hb harunning hbrunning => ?_, ?_⟩
  · have hholds := hexclusive.holds job hmem hrunning
    rw [Holds, if_pos (by omega)] at hholds
    exact hholds
  · have hblockA := (hexclusive.holds a (List.mem_of_getElem? ha) harunning).parses
    have hblockB := (hexclusive.holds b (List.mem_of_getElem? hb) hbrunning).parses
    exact ⟨blockOf a, blockOf b, hblockA, hblockB,
      hexclusive.disjoint i j a b hne ha hb harunning hbrunning⟩
  · obtain ⟨occupied, hoccupied, -, hcard⟩ := occupiedFrom_card site.reserved hexclusive
      fun job hmem hrunning => (hexclusive.holds job hmem hrunning).disjoint_reserved
    exact ⟨occupied, hoccupied, hcard.symm⟩

/-- Two jobs that a tick has started hold five cores between them. -/
theorem core_exclusivity_small : ∃ s : Sys World, s.jobs.map Job.status = [.running, .running] ∧
    ∃ occupied, occupiedCores (smallSite twoJobs) s.jobs = .ok occupied ∧
      ((running s.jobs).map fun j => max 0 j.cores).sum =
        (occupied \ (smallSite twoJobs).reserved).card := by
  obtain ⟨s, hreached, hstatus, -⟩ := reached_twoJobs false
  have hexclusive := core_exclusivity (smallSite twoJobs) (by decide) s hreached
  exact ⟨s, hstatus, hexclusive.2.2⟩

end Nodepilot
