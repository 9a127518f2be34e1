import Nodepilot.Safety.LifeCycle

/-!
# The memory a launch pass commits

Each candidate of a launch pass is held against the memory as it is measured then,
and the jobs started moments before are not in the measurement yet.  The source
makes the measurement, not the sum of declarations, its guard; so what a pass
promises is that every job it starts fits alone, and that without a live slice
the declared memory of all running jobs stays within the budget.  That the jobs of
one pass fit together it does not promise.  A pass that breaks off with an
exception has promised the same of what it has started.
-/

namespace Nodepilot

open Obeys Relation

variable {W : Type} [Host W]

/-! ## Readings -/

/-- A reading taken at a world can give a value. -/
def Reads (reading : M W (Option ℚ)) (w : W) (x : Option ℚ) : Prop :=
  ∃ s s' : Sys W, s.world = w ∧ reading s = .ok x s'

/-- The memory readings are the same in every world between two. -/
structure Steady (config : Config) (w w' : W) (used cap free : Option ℚ) : Prop where
  used : ∀ v x, Onward w v → Onward v w' → Reads (sliceUsedGb config) v x → x = used
  cap : ∀ v x, Onward w v → Onward v w' → Reads (sliceCapGb config) v x → x = cap
  free : ∀ v x, Onward w v → Onward v w' → Reads freeRamGb v x → x = free

/-- An amount of memory fits what was read: the slice if it is live, else `MemAvailable`. -/
def Fits (config : Config) (used cap free : Option ℚ) (ramGb : ℚ) : Prop :=
  match used with
  | some u => u + ramGb ≤ cap.getD config.ramBudgetGb - config.ramSafetyGb
  | none => ∀ f, free = some f → ramGb + config.ramSafetyGb ≤ f

/-! ## One admission -/

omit [Host W] in
theorem checkSliceRam_ok_iff {config : Config} {job : Job} {used cap : ℚ} :
    (checkSliceRam config job used cap).ok = true ↔
      used + job.ramGb ≤ cap - config.ramSafetyGb := by
  by_cases hover : cap - config.ramSafetyGb < used + job.ramGb
  · have hno : (checkSliceRam config job used cap).ok = false := by
      rw [checkSliceRam, if_pos hover]
      rfl
    simp [hno, hover]
  · have hyes : (checkSliceRam config job used cap).ok = true := by
      rw [checkSliceRam, if_neg hover]
    simp only [hyes, true_iff]
    exact not_lt.mp hover

omit [Host W] in
theorem checkFreeRam_ok_iff {config : Config} {job : Job} {freeNow : Option ℚ} :
    (checkFreeRam config job freeNow).ok = true ↔
      ∀ f, freeNow = some f → job.ramGb + config.ramSafetyGb ≤ f := by
  cases freeNow with
  | none => simp [checkFreeRam]
  | some free =>
      by_cases htight : free < job.ramGb + config.ramSafetyGb
      · simp [checkFreeRam, htight, rejected]
      · simp [checkFreeRam, htight, not_lt.mp htight]

/-- A job passes the memory check exactly if it fits alone and, where no slice is live, the
declared memory of the running jobs leaves it room. -/
theorem checkRam_ok_iff {config : Config} {job : Job} {running : List Job} {w w' : W}
    {used cap free : Option ℚ} (hsteady : Steady config w w' used cap free) {s s' : Sys W}
    {decision : Decision} (hbefore : Onward w s.world) (hafter : Onward s'.world w')
    (h : checkRam config job running s = .ok decision s') :
    decision.ok = true ↔ Fits config used cap free job.ramGb ∧
      (used = none → (running.map Job.ramGb).sum + job.ramGb ≤ config.ramBudgetGb) := by
  obtain ⟨x, s₁, hused, h⟩ := bind_eq_ok.mp h
  obtain ⟨w₁, hlater, rfl⟩ := (quiet_sliceUsedGb config).of_ok hused
  have hend : ∀ {w₂ : W}, Later w₁ w₂ → Later w₂ s'.world → Onward w w₂ ∧ Onward w₂ w' := by
    intro w₂ hfirst hsecond
    exact ⟨(hbefore.trans (Later.onward hlater)).trans hfirst.onward,
      hsecond.onward.trans hafter⟩
  have hread : Later w₁ s'.world → x = used := by
    intro hrest
    refine hsteady.used _ _ hbefore ?_ ⟨s, _, rfl, hused⟩
    exact ((Later.onward hlater).trans (Later.onward hrest)).trans hafter
  cases x with
  | some u =>
      obtain ⟨y, s₂, hcap, h⟩ := bind_eq_ok.mp h
      obtain ⟨w₂, hlater', rfl⟩ := (quiet_sliceCapGb config).of_ok hcap
      cases h
      have hu : some u = used := hread hlater'
      have hy : y = cap := by
        obtain ⟨hstart, hrest⟩ := hend (.refl _) hlater'
        exact hsteady.cap _ _ hstart hrest ⟨_, _, rfl, hcap⟩
      subst hu hy
      rw [checkSliceRam_ok_iff]
      simp [Fits]
  | none =>
      dsimp only at h
      split at h
      · rename_i hover
        cases h
        have hu : none = used := hread (.refl _)
        subst hu
        simp [rejected, hover]
      · rename_i hdeclared
        obtain ⟨y, s₂, hfree, h⟩ := bind_eq_ok.mp h
        obtain ⟨w₂, hlater', rfl⟩ := quiet_freeRamGb.of_ok hfree
        cases h
        have hu : none = used := hread hlater'
        have hy : y = free := by
          obtain ⟨hstart, hrest⟩ := hend (.refl _) hlater'
          exact hsteady.free _ _ hstart hrest ⟨_, _, rfl, hfree⟩
        subst hu hy
        rw [checkFreeRam_ok_iff]
        simp [Fits, not_lt.mp hdeclared]

/-! ## One start -/

/-- A job that is chosen fits alone, and without a live slice next to the running jobs. -/
theorem Chosen.fits {site : Site} {i : ℕ} {job : Job} {placement : Placement} {s : Sys W}
    {w₀ w f : W} {used cap free : Option ℚ} (hchosen : Chosen site true i job placement s w)
    (hsteady : Steady site.config w₀ f used cap free) (hbefore : Onward w₀ s.world)
    (hafter : Onward w f) :
    Fits site.config used cap free job.ramGb ∧
      (used = none → runningRamGb s.jobs + job.ramGb ≤ site.config.ramBudgetGb) := by
  obtain ⟨decision, w₁, hdecision, hok, hlater⟩ := hchosen.admitted rfl
  obtain ⟨-, w₂, ramDecision, hon, hram, hramok⟩ := canLaunch_ok hdecision hok
  have hstart : Onward w₀ w₂ := hbefore.trans (Later.onward hon)
  have hend : Onward w₁ f := (Later.onward hlater).trans hafter
  exact (checkRam_ok_iff hsteady hstart hend hram).mp hramok

/-- A move starts a chosen job, which runs from then on. -/
structure Grants (site : Site) (i : ℕ) (job : Job) (w : W) (s s' : Sys W) : Prop where
  chosen : ∃ placement, Chosen site true i job placement s w
  world : Onward w s'.world
  starts : s'.starts = i :: s.starts
  running : ∃ started : Job, started.ramGb = job.ramGb ∧
    (running s'.jobs).Perm (started :: Nodepilot.running s.jobs)

/-- A move of a pass starts a chosen job, or leaves the log and the running jobs as they were. -/
theorem Move.grants {site : Site} {label : Label} {s s' : Sys W}
    (hmove : Move site true label s s') (hlabel : label.inPass = true) :
    (s'.starts = s.starts ∧ running s'.jobs = running s.jobs) ∨
      ∃ i job w, Grants site i job w s s' := by
  cases hmove with
  | ask => exact Or.inl ⟨rfl, rfl⟩
  | probe => exact Or.inl ⟨rfl, rfl⟩
  | @launch _ s₁ i job placement argv w w₂ now hchosen hstarted htime =>
      obtain ⟨session, hlist⟩ := hstarted.launched
      have hworld : Onward w w₂ := hstarted.onward.trans (.of_ok htime)
      have hwaiting : job.status ≠ .running := by
        rw [hchosen.pending]
        decide
      refine Or.inr ⟨i, job, w, ⟨placement, hchosen⟩, hworld, hstarted.starts_eq.1,
        job.launch placement session now, rfl, ?_⟩
      simp only [hlist]
      exact running_modify_perm hchosen.found hwaiting (Job.launch_status ..)
  | @fail _ i job placement argv e w w₁ w₂ now hchosen hunstarted htime =>
      have hwaiting : job.status ≠ .running := by
        rw [hchosen.pending]
        decide
      exact Or.inl ⟨rfl, running_modify_idle hchosen.found hwaiting (by simp)⟩
  | _ => cases hlabel

/-! ## A pass -/

/-- The memory declared by the jobs at some indices. -/
def declaredRamGb (jobs : List Job) (indices : List ℕ) : ℚ :=
  (indices.map fun i => ((jobs[i]?).map Job.ramGb).getD 0).sum

/-- The jobs a pass from `s` has started by `s'` each fit alone; without a live slice they
fit together with the jobs that ran before, as declared. -/
structure Commits (config : Config) (used cap free : Option ℚ) (s s' : Sys W) (new : List ℕ) :
    Prop where
  starts : s'.starts = new ++ s.starts
  fits : ∀ i ∈ new, ∃ job, s.jobs[i]? = some job ∧ Fits config used cap free job.ramGb
  budget : used = none → new ≠ [] →
    runningRamGb s.jobs + declaredRamGb s.jobs new ≤ config.ramBudgetGb

section Pass

variable {site : Site} {w f : W} {used cap free : Option ℚ} {s mid s' : Sys W} {new : List ℕ}

/-- One more job of the pass is started. -/
theorem Commits.start {i : ℕ} {job : Job} {placement : Placement} {v : W}
    (h : Commits site.config used cap free s mid new)
    (hsum : runningRamGb mid.jobs = runningRamGb s.jobs + declaredRamGb s.jobs new)
    (hprogress : Progress s.jobs mid.jobs) (hchosen : Chosen site true i job placement mid v)
    (hsteady : Steady site.config w f used cap free) (hbefore : Onward w mid.world)
    (hafter : Onward v f) (hstarts : s'.starts = i :: mid.starts) :
    Commits site.config used cap free s s' (i :: new) ∧
      declaredRamGb s.jobs (i :: new) = job.ramGb + declaredRamGb s.jobs new := by
  obtain ⟨hfit, hbudget⟩ := hchosen.fits hsteady hbefore hafter
  obtain ⟨a, ha, hsame, -⟩ := hprogress.back hchosen.found
  have hdeclared : declaredRamGb s.jobs (i :: new) = job.ramGb + declaredRamGb s.jobs new := by
    rw [← hsame.ramGb]
    simp [declaredRamGb, ha]
  refine ⟨⟨?_, fun j hj => ?_, fun hused _ => ?_⟩, hdeclared⟩
  · rw [hstarts, h.starts, List.cons_append]
  · rcases List.mem_cons.mp hj with rfl | hj
    · exact ⟨a, ha, hsame.ramGb ▸ hfit⟩
    · exact h.fits j hj
  · calc runningRamGb s.jobs + declaredRamGb s.jobs (i :: new)
        = runningRamGb mid.jobs + job.ramGb := by
          rw [hdeclared, hsum]
          ring
      _ ≤ site.config.ramBudgetGb := hbudget hused

/-- What the moves of a pass have started, the readings being steady up to a later world. -/
theorem commits_of_path (hsteady : Steady site.config w f used cap free)
    (hpath : ReflTransGen (Step site true Label.inPass) s s') (hbefore : Onward w s.world)
    (hafter : Onward s'.world f) :
    ∃ new, Commits site.config used cap free s s' new ∧
      runningRamGb s'.jobs = runningRamGb s.jobs + declaredRamGb s.jobs new := by
  induction hpath with
  | refl =>
      refine ⟨[], ⟨rfl, fun i hi => ?_, fun _ hne => absurd rfl hne⟩, ?_⟩
      · cases hi
      · simp [declaredRamGb]
  | @tail mid s' hinit hlast ih =>
      obtain ⟨label, hlabel, hmove⟩ := hlast
      obtain ⟨new, hcommits, hsum⟩ := ih (hmove.onward.trans hafter)
      rcases hmove.grants hlabel with ⟨hlog, hrunning⟩ | ⟨i, job, v, hgrants⟩
      · refine ⟨new, ⟨hlog.trans hcommits.starts, hcommits.fits, hcommits.budget⟩, ?_⟩
        rw [runningRamGb, hrunning]
        exact hsum
      · obtain ⟨placement, hchosen⟩ := hgrants.chosen
        obtain ⟨started, hsame, hperm⟩ := hgrants.running
        obtain ⟨hcommits', hdeclared⟩ := hcommits.start hsum (progress_of_path hinit) hchosen
          hsteady (hbefore.trans (onward_of_path hinit)) (hgrants.world.trans hafter)
          hgrants.starts
        refine ⟨i :: new, hcommits', ?_⟩
        calc runningRamGb s'.jobs = ((started :: running mid.jobs).map Job.ramGb).sum :=
              (hperm.map Job.ramGb).sum_eq
          _ = job.ramGb + runningRamGb mid.jobs := by
              rw [List.map_cons, List.sum_cons, hsame]
              rfl
          _ = runningRamGb s.jobs + declaredRamGb s.jobs (i :: new) := by
              rw [hsum, hdeclared]
              ring

/-- Where the pass breaks off one more job may have been started. -/
theorem Wreck.commits (hwreck : Wreck site true mid s')
    (hpath : ReflTransGen (Step site true Label.inPass) s mid)
    (hsteady : Steady site.config s.world s'.world used cap free) :
    ∃ new, Commits site.config used cap free s s' new := by
  obtain ⟨new, hcommits, hsum⟩ := commits_of_path hsteady hpath (.refl _) hwreck.onward
  cases hwreck with
  | lost hfile hstarts => exact ⟨new, hstarts.trans hcommits.starts, hcommits.fits, hcommits.budget⟩
  | unstarted hchosen hunstarted hfile hstarts =>
      exact ⟨new, hstarts.trans hcommits.starts, hcommits.fits, hcommits.budget⟩
  | started hchosen hstarted hfile hstarts hlater =>
      have hworld := hstarted.onward.trans (Later.onward hlater)
      exact ⟨_, (hcommits.start hsum (progress_of_path hpath) hchosen hsteady
        (onward_of_path hpath) hworld (hstarts.trans hstarted.starts_eq.1)).1⟩
  | killed hjob hrunning hfile hstarts =>
      exact ⟨new, hstarts.trans hcommits.starts, hcommits.fits, hcommits.budget⟩

end Pass

/-- However a launch pass ends, every job it has started fits alone in the memory that is read
all along; and without a live slice the declared memory of the jobs that ran before and of
those it has started, if any, is within the budget. -/
theorem launch_pass_memory (site : Site) (s s' : Sys W) (used cap free : Option ℚ)
    (hpass : (∃ b, launchPending site s = .ok b s') ∨ ∃ e, launchPending site s = .error e s')
    (hsteady : Steady site.config s.world s'.world used cap free) :
    ∃ new, s'.starts = new ++ s.starts ∧
      (∀ i ∈ new, ∃ job, s.jobs[i]? = some job ∧ Fits site.config used cap free job.ramGb) ∧
      (used = none → new ≠ [] →
        runningRamGb s.jobs + declaredRamGb s.jobs new ≤ site.config.ramBudgetGb) := by
  have hcommits : ∃ new, Commits site.config used cap free s s' new := by
    rcases hpass with ⟨b, hpass⟩ | ⟨e, hpass⟩
    · have hpath := ((launchPending_obeys site).returns trivial hpass).1
      obtain ⟨new, hcommits, -⟩ := commits_of_path hsteady hpath (.refl _) (.refl _)
      exact ⟨new, hcommits⟩
    · obtain ⟨mid, hpath, hwreck⟩ := (launchPending_obeys site).raises trivial hpass
      exact hwreck.commits hpath hsteady
  obtain ⟨new, hcommits⟩ := hcommits
  exact ⟨new, hcommits.starts, hcommits.fits, hcommits.budget⟩

/-! ## On the machine -/

/-- A slice of 100 GiB that holds nothing yet. -/
def sliceFiles : List (String × String) :=
  let dir := "/sys/fs/cgroup/user.slice/user-1000.slice/user@1000.service/nodepilot.slice"
  [(dir ++ "/memory.current", "0"), (dir ++ "/memory.max", "107374182400")]

/-- A host with that slice, on which nothing happens. -/
def sliceWorld : World :=
  { files := sliceFiles
    dirs := ["/sys/fs/cgroup/user.slice/user-1000.slice/user@1000.service/nodepilot.slice"] }

/-- Two jobs of which each fits the slice, but not both. -/
def bigJobs : List Job :=
  [{ id := "a", command := "true", ramGb := 60 }, { id := "b", command := "true", ramGb := 60 }]

def sliceSite : Site :=
  smallSite bigJobs { ramBudgetGb := 100, coreBudget := 8, pauseFile := "" }

theorem steady_sliceWorld (w' : World) :
    Steady sliceSite.config sliceWorld w' (some ((0 : ℤ) / 1024 ^ 3))
      (some ((107374182400 : ℤ) / 1024 ^ 3)) none := by
  have hstate : ∀ {v : World} {s : Sys World}, Onward sliceWorld v → s.world = v →
      ∃ jobs cooldown procs saved starts clock table others pid programs journal launches,
        s = ⟨jobs, cooldown, procs, saved, starts, ⟨clock, table, others, pid, sliceFiles,
          sliceWorld.dirs, programs, journal, launches, []⟩⟩ := by
    intro v s honward hworld
    obtain ⟨hagenda, hfiles, hdirs⟩ := still_of_onward honward rfl
    subst hworld
    refine ⟨s.jobs, s.cooldownUntil, s.procs, s.stateFile, s.starts, s.world.clock, s.world.procs,
      s.world.others, s.world.lastPid, s.world.programs, s.world.journal, s.world.launches, ?_⟩
    rw [show sliceFiles = s.world.files from hfiles.symm, ← hdirs, ← hagenda]
  refine ⟨?_, ?_, ?_⟩
  · rintro v x honward - ⟨s, s', hworld, hread⟩
    obtain ⟨_, _, _, _, _, _, _, _, _, _, _, _, rfl⟩ := hstate honward hworld
    cases hread
    rfl
  · rintro v x honward - ⟨s, s', hworld, hread⟩
    obtain ⟨_, _, _, _, _, _, _, _, _, _, _, _, rfl⟩ := hstate honward hworld
    cases hread
    rfl
  · rintro v x honward - ⟨s, s', hworld, hread⟩
    obtain ⟨_, _, _, _, _, _, _, _, _, _, _, _, rfl⟩ := hstate honward hworld
    cases hread
    rfl

/-- A pass against one reading starts both of two jobs that each fit. -/
theorem launchPending_sliceSite : ∃ b s', launchPending sliceSite (fresh sliceSite sliceWorld) =
    .ok b s' ∧ s'.starts = [1, 0] ∧ declaredRamGb s'.jobs [1, 0] = 120 := by
  obtain ⟨b, s', hpass, hends⟩ := of_returns
    (show returns (launchPending sliceSite (fresh sliceSite sliceWorld)) (fun s =>
      s.starts == [1, 0] && declaredRamGb s.jobs [1, 0] == 120) = true by decide +kernel)
  rw [Bool.and_eq_true, beq_iff_eq, beq_iff_eq] at hends
  exact ⟨b, s', hpass, hends⟩

/-- Each of the two jobs fits below the safety margin. -/
theorem launch_pass_memory_sliceSite : ∃ s' : Sys World, s'.starts = [1, 0] ∧
    ∀ i ∈ [1, 0], ∃ job, (fresh sliceSite sliceWorld).jobs[i]? = some job ∧
      Fits sliceSite.config (some ((0 : ℤ) / 1024 ^ 3)) (some ((107374182400 : ℤ) / 1024 ^ 3)) none
        job.ramGb := by
  obtain ⟨b, s', hpass, hstarts, -⟩ := launchPending_sliceSite
  obtain ⟨new, hnew, hfits, -⟩ :=
    launch_pass_memory sliceSite _ s' _ _ _ (Or.inl ⟨b, hpass⟩) (steady_sliceWorld s'.world)
  rw [hstarts, show (fresh sliceSite sliceWorld).starts = [] from rfl, List.append_nil] at hnew
  subst hnew
  exact ⟨s', hstarts, hfits⟩

/-- The jobs of one pass need not fit together. -/
theorem launch_pass_memory_not_additive :
    ¬ ∀ (site : Site) (s s' : Sys World) (b : Bool) (used cap free : Option ℚ) (new : List ℕ),
      launchPending site s = .ok b s' → Steady site.config s.world s'.world used cap free →
      s'.starts = new ++ s.starts → new ≠ [] →
      Fits site.config used cap free (declaredRamGb s'.jobs new) := by
  intro h
  obtain ⟨b, s', hpass, hstarts, hsum⟩ := launchPending_sliceSite
  have hfits := h sliceSite _ s' b _ _ _ [1, 0] hpass (steady_sliceWorld s'.world) hstarts
    (List.cons_ne_nil _ _)
  rw [hsum] at hfits
  norm_num [Fits, sliceSite, smallSite] at hfits

end Nodepilot
