import Nodepilot.Machine.Trial

/-!
# Admission ceilings

The four bounds admission control is there for: the number of running jobs, the
exclusive job's solitude, the core budget and, where no memory slice is measured,
the declared memory.  Admission is asked once per candidate, while the earlier
candidates of the pass are running already; so each launch finds the bounds with
the new job in them, and every other turn only takes jobs off the running ones.
-/

namespace Nodepilot

/-- Declared cores and memory are not negative. -/
def NonNegative (jobs : List Job) : Prop :=
  ∀ job ∈ jobs, 0 ≤ job.cores ∧ 0 ≤ job.ramGb

instance (jobs : List Job) : Decidable (NonNegative jobs) := by
  unfold NonNegative
  infer_instance

/-- No job runs. -/
def Idle (jobs : List Job) : Prop :=
  ∀ job ∈ jobs, job.status ≠ .running

instance (jobs : List Job) : Decidable (Idle jobs) := by
  unfold Idle
  infer_instance

theorem running_eq_nil {jobs : List Job} : running jobs = [] ↔ Idle jobs := by
  simp [running, Idle, List.filter_eq_nil_iff]

/-- The bounds on what runs. -/
structure Ceilings (config : Config) (jobs : List Job) : Prop where
  cap : ((running jobs).length : ℤ) ≤ max 0 config.maxConcurrent
  mutex : ∀ job ∈ running jobs, job.exclusive = true → running jobs = [job]
  cores : running jobs ≠ [] → runningCores jobs ≤ config.coreBudget
  ram : config.memorySlice = "" → running jobs ≠ [] → runningRamGb jobs ≤ config.ramBudgetGb

theorem Idle.ceilings {config : Config} {jobs : List Job} (h : Idle jobs) : Ceilings config jobs := by
  have hnone : running jobs = [] := running_eq_nil.mpr h
  refine ⟨?_, ?_, fun hsome => absurd hnone hsome, fun _ hsome => absurd hnone hsome⟩
  · rw [hnone, List.length_nil]
    omega
  · intro job hmem
    rw [hnone] at hmem
    cases hmem

/-! ## One turn -/

/-- Fewer running jobs stay below the bounds. -/
theorem Ceilings.of_sublist {config : Config} {jobs jobs' : List Job} (h : Ceilings config jobs)
    (hdeclared : NonNegative jobs) (hsub : (running jobs').Sublist (running jobs)) :
    Ceilings config jobs' := by
  have hmem : ∀ job ∈ running jobs, 0 ≤ job.cores ∧ 0 ≤ job.ramGb := by
    intro job hjob
    exact hdeclared job (List.mem_of_mem_filter hjob)
  have hcores : runningCores jobs' ≤ runningCores jobs := by
    apply (hsub.map Job.cores).sum_le_sum
    intro c hc
    obtain ⟨job, hjob, rfl⟩ := List.mem_map.mp hc
    exact (hmem job hjob).1
  have hram : runningRamGb jobs' ≤ runningRamGb jobs := by
    apply (hsub.map Job.ramGb).sum_le_sum
    intro r hr
    obtain ⟨job, hjob, rfl⟩ := List.mem_map.mp hr
    exact (hmem job hjob).2
  have hsome : running jobs' ≠ [] → running jobs ≠ [] := by
    intro hne hnil
    rw [hnil] at hsub
    exact hne (List.sublist_nil.mp hsub)
  refine ⟨?_, ?_, fun hne => hcores.trans (h.cores (hsome hne)),
    fun hslice hne => hram.trans (h.ram hslice (hsome hne))⟩
  · have hlength := hsub.length_le
    have hcap := h.cap
    omega
  · intro job hjob hexclusive
    have hall := h.mutex job (hsub.subset hjob) hexclusive
    rw [hall, List.sublist_singleton] at hsub
    rcases hsub with hnil | hone
    · rw [hnil] at hjob
      cases hjob
    · exact hone

/-- One more running job stays below them if it was admitted. -/
theorem Ceilings.of_perm {config : Config} {jobs jobs' : List Job} {job started : Job}
    (hadmits : Admits config jobs job) (hsame : SameDeclaration job started)
    (hperm : (running jobs').Perm (started :: running jobs)) : Ceilings config jobs' := by
  have hlength : (running jobs').length = (running jobs).length + 1 := hperm.length_eq
  have hcores : runningCores jobs' = job.cores + runningCores jobs := by
    calc runningCores jobs' = ((started :: running jobs).map Job.cores).sum :=
          (hperm.map Job.cores).sum_eq
      _ = started.cores + runningCores jobs := List.sum_cons
      _ = job.cores + runningCores jobs := by rw [hsame.cores]
  have hram : runningRamGb jobs' = job.ramGb + runningRamGb jobs := by
    calc runningRamGb jobs' = ((started :: running jobs).map Job.ramGb).sum :=
          (hperm.map Job.ramGb).sum_eq
      _ = started.ramGb + runningRamGb jobs := List.sum_cons
      _ = job.ramGb + runningRamGb jobs := by rw [hsame.ramGb]
  refine ⟨?_, ?_, fun _ => ?_, fun hslice _ => ?_⟩
  · have hcap := hadmits.cap
    omega
  · intro j hj hexclusive
    rcases List.mem_cons.mp (hperm.subset hj) with rfl | hold
    · -- the new job is exclusive, so nothing ran before
      have hnone := hadmits.alone (hsame.exclusive.trans hexclusive)
      rw [hnone] at hperm
      exact List.perm_singleton.mp hperm
    · rw [hadmits.mutex j hold] at hexclusive
      cases hexclusive
  · have hfits := hadmits.cores
    omega
  · have hfits := hadmits.ram hslice
    linarith

/-- One turn keeps the bounds. -/
theorem Turn.ceilings {site : Site} {label : Label} {jobs jobs' : List Job}
    (hturn : Turn site true label jobs jobs') (hdeclared : NonNegative jobs)
    (h : Ceilings site.config jobs) : Ceilings site.config jobs' := by
  have hstop : ∀ {i : ℕ} {f : Job → Job}, (∀ job, (f job).status ≠ .running) →
      Ceilings site.config (jobs.modify i f) := by
    intro i f hf
    exact h.of_sublist hdeclared (running_modify_sublist fun job _ => hf job)
  cases hturn with
  | ask => exact h
  | save => exact h
  | spare => exact h
  | reap hjob hrunning hend =>
      apply hstop
      intro job
      rcases hend with hend | hend <;> simp [hend]
  | skip => exact hstop fun job => by simp
  | fail => exact hstop fun job => by simp
  | kill => exact hstop fun job => by simp
  | clear => exact hstop fun job => by simp
  | @launch _ i job placement session now hjob hpending hdeps hadmits hplaced =>
      have hwaiting : job.status ≠ .running := by
        rw [hpending]
        decide
      have hperm := running_modify_perm hjob hwaiting (Job.launch_status placement session now job)
      refine .of_perm (hadmits rfl) ?_ hperm
      exact ⟨rfl, rfl, rfl, rfl, rfl⟩

theorem Turn.nonNegative {site : Site} {gated : Bool} {label : Label} {jobs jobs' : List Job}
    (hturn : Turn site gated label jobs jobs') (h : NonNegative jobs) : NonNegative jobs' := by
  intro job' hmem
  obtain ⟨i, hi⟩ := List.mem_iff_getElem?.mp hmem
  obtain ⟨job, hjob, hsame⟩ := hturn.sameDeclaration hi
  rw [← hsame.cores, ← hsame.ramGb]
  exact h job (List.mem_of_getElem? hjob)

/-! ## Runs -/

variable {W : Type} [Host W]

/-- In every state of every run the running jobs keep the concurrency cap, the exclusive
job's solitude, the core budget and, without a slice, the memory budget. -/
theorem admission_ceilings (site : Site) (hdeclared : NonNegative site.queue)
    (hidle : Idle site.queue) (s : Sys W) (h : Reached site true s) :
    ((running s.jobs).length : ℤ) ≤ max 0 site.config.maxConcurrent ∧
    (∀ job ∈ running s.jobs, job.exclusive = true → running s.jobs = [job]) ∧
    (running s.jobs ≠ [] → runningCores s.jobs ≤ site.config.coreBudget) ∧
    (site.config.memorySlice = "" → running s.jobs ≠ [] →
      runningRamGb s.jobs ≤ site.config.ramBudgetGb) := by
  have hinvariant : NonNegative s.jobs ∧ Ceilings site.config s.jobs := by
    refine (h.jobs (J := fun jobs => NonNegative jobs ∧ Ceilings site.config jobs)
      ⟨hdeclared, hidle.ceilings⟩ ?_).1
    rintro label jobs jobs' hturn ⟨hnonneg, hceilings⟩
    exact ⟨hturn.nonNegative hnonneg, hturn.ceilings hnonneg hceilings⟩
  obtain ⟨-, hcap, hmutex, hcores, hram⟩ := hinvariant
  exact ⟨hcap, hmutex, hcores, hram⟩

/-- Two jobs that a tick has started. -/
theorem admission_ceilings_small : ∃ s : Sys World,
    s.jobs.map Job.status = [.running, .running] ∧ runningCores s.jobs ≤ 8 ∧
      runningRamGb s.jobs ≤ 100 := by
  obtain ⟨s, hreached, hstatus, hsome⟩ := reached_twoJobs true
  have hceilings := admission_ceilings (smallSite twoJobs) (by decide +kernel) (by decide) s hreached
  exact ⟨s, hstatus, hceilings.2.2.1 hsome, hceilings.2.2.2 rfl hsome⟩

end Nodepilot
