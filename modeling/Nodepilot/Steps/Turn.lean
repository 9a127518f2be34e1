import Nodepilot.Steps.Refine

/-!
# Turns of the job list

The scheduler as the queue sees it: a `Turn` rewrites one job and says under which
condition on the job list.  Clocks, probes and processes are gone; what a probe
found out is a parameter.  `Move.turn` connects the two levels, and `Move.starts`
and `Move.stateFile` say what a move does to the log and to the state file.

What several properties need of the job list is here as well: the running jobs
after one job has been rewritten, and that declarations are never touched.
-/

namespace Nodepilot

open Relation

/-! ## Admission, as far as the job list decides it -/

/-- The counting checks of `can_launch` and, without a slice, the declared-RAM check. -/
structure Admits (config : Config) (jobs : List Job) (job : Job) : Prop where
  mutex : ∀ j ∈ running jobs, j.exclusive = false
  alone : job.exclusive = true → running jobs = []
  cap : ((running jobs).length : ℤ) < config.maxConcurrent
  cores : runningCores jobs + job.cores ≤ config.coreBudget
  ram : config.memorySlice = "" → runningRamGb jobs + job.ramGb ≤ config.ramBudgetGb

/-- The counts of the running jobs leave room for a job. -/
structure Room (config : Config) (job : Job) (running : List Job) : Prop where
  mutex : ∀ j ∈ running, j.exclusive = false
  alone : job.exclusive = true → running = []
  cap : (running.length : ℤ) < config.maxConcurrent
  cores : (running.map Job.cores).sum + job.cores ≤ config.coreBudget

theorem checkCounts_eq_none_iff {config : Config} {job : Job} {running : List Job} :
    checkCounts config job running = none ↔ Room config job running := by
  unfold checkCounts
  cases hexclusive : running.find? Job.exclusive with
  | some owner =>
      have howner : owner.exclusive = true := List.find?_some hexclusive
      have hmem : owner ∈ running := List.mem_of_find?_eq_some hexclusive
      constructor
      · intro h
        cases h
      · intro h
        rw [h.mutex owner hmem] at howner
        cases howner
  | none =>
      have hmutex : ∀ j ∈ running, j.exclusive = false := by
        intro j hj
        have hnot := List.find?_eq_none.mp hexclusive j hj
        exact Bool.eq_false_iff.mpr hnot
      dsimp only
      constructor
      · intro h
        split at h
        · cases h
        rename_i halone
        split at h
        · cases h
        rename_i hcap
        split at h
        · cases h
        rename_i hcores
        refine ⟨hmutex, fun hjob => ?_, not_le.mp hcap, not_lt.mp hcores⟩
        simpa [hjob] using halone
      · intro h
        have halone : ¬ (job.exclusive && !running.isEmpty) = true := by
          intro hbusy
          rw [Bool.and_eq_true] at hbusy
          rw [h.alone hbusy.1] at hbusy
          cases hbusy.2
        rw [if_neg halone, if_neg (not_le.mpr h.cap), if_neg (not_lt.mpr h.cores)]

/-- Where a count speaks against a job the decision is a refusal. -/
theorem checkCounts_rejects {config : Config} {job : Job} {running : List Job}
    {decision : Decision} (h : checkCounts config job running = some decision) :
    decision.ok = false := by
  unfold checkCounts at h
  split at h
  · cases h
    rfl
  split at h
  · cases h
    rfl
  split at h
  · cases h
    rfl
  split at h
  · cases h
    rfl
  · cases h

section Admission

open Obeys

variable {W : Type} [Host W]

theorem advise_ok (job : Job) : (advise job).ok = true := by
  unfold advise
  split <;> rfl

/-- What an admission means: every check has passed, the last readings included. -/
theorem canLaunch_ok {config : Config} {job : Job} {jobs : List Job} {s s' : Sys W}
    {decision : Decision} (h : canLaunch config job jobs s = .ok decision s')
    (hok : decision.ok = true) :
    checkCounts config job (running jobs) = none ∧
      ∃ w ramDecision, Later s.world w ∧
        checkRam config job (running jobs) { s with world := w } = .ok ramDecision s' ∧
        ramDecision.ok = true := by
  obtain ⟨pause, s₁, hpause, h⟩ := bind_eq_ok.mp h
  obtain ⟨w₁, hlater, rfl⟩ := (quiet_paused config).of_ok hpause
  cases pause with
  | true =>
      cases h
      cases hok
  | false =>
      obtain ⟨remaining, s₂, hcooldown, h⟩ := bind_eq_ok.mp h
      obtain ⟨w₂, hlater', rfl⟩ := quiet_inCooldown.of_ok hcooldown
      split at h
      · cases h
        cases hok
      · cases hcounts : checkCounts config job (running jobs) with
        | some rejection =>
            simp only [hcounts] at h
            cases h
            rw [checkCounts_rejects hcounts] at hok
            cases hok
        | none =>
            simp only [hcounts] at h
            obtain ⟨ramDecision, s₃, hram, h⟩ := bind_eq_ok.mp h
            obtain ⟨w₃, hlater'', rfl⟩ := (quiet_checkRam _ _ _).of_ok hram
            split at h
            · cases h
              exact ⟨rfl, w₂, _, hlater.trans hlater', hram, hok⟩
            · rename_i haccepted
              cases h
              exact ⟨rfl, w₂, ramDecision, hlater.trans hlater', hram, by simpa using haccepted⟩

/-- Without a slice the declared sum decides. -/
theorem checkRam_declared {config : Config} {job : Job} {running : List Job} {s s' : Sys W}
    {decision : Decision} (hslice : config.memorySlice = "")
    (h : checkRam config job running s = .ok decision s') (hok : decision.ok = true) :
    (running.map Job.ramGb).sum + job.ramGb ≤ config.ramBudgetGb := by
  obtain ⟨used, s₁, hused, h⟩ := bind_eq_ok.mp h
  rw [sliceUsedGb, if_pos hslice] at hused
  cases hused
  dsimp only at h
  split at h
  · cases h
    cases hok
  · rename_i hfits
    exact not_lt.mp hfits

theorem admits_of_canLaunch {config : Config} {job : Job} {jobs : List Job} {s s' : Sys W}
    {decision : Decision} (h : canLaunch config job jobs s = .ok decision s')
    (hok : decision.ok = true) : Admits config jobs job := by
  obtain ⟨hcounts, w, ramDecision, -, hram, hramok⟩ := canLaunch_ok h hok
  have hroom := checkCounts_eq_none_iff.mp hcounts
  exact ⟨hroom.mutex, hroom.alone, hroom.cap, hroom.cores, fun hslice =>
    checkRam_declared hslice hram hramok⟩

end Admission

/-! ## Turns -/

/-- The job has been given a block: the allocator's answer for the jobs running then. -/
def Placeable (site : Site) (jobs : List Job) (job : Job) (placement : Placement) : Prop :=
  ∃ occupied, occupiedCores site jobs = .ok occupied ∧
    allocate job.cores occupied site.numaNodes (allocateOptions site job) = .ok (some placement)

/-- What a launch writes into a job. -/
def Job.launch (placement : Placement) (session : String) (now : ℚ) (job : Job) : Job :=
  Job.begin now (Job.track session (Job.place placement job))

@[simp] theorem Job.launch_status (placement : Placement) (session : String) (now : ℚ)
    (job : Job) : (Job.launch placement session now job).status = .running := rfl

/-- One rewriting of the job list.  With the gate a launch has its dependencies done and
has been admitted. -/
inductive Turn (site : Site) (gated : Bool) : Label → List Job → List Job → Prop
  | ask {jobs : List Job} : Turn site gated .ask jobs jobs
  | save {jobs : List Job} : Turn site gated .save jobs jobs
  | spare {jobs : List Job} {i : ℕ} : Turn site gated (.spare i) jobs jobs
  | reap {jobs : List Job} {i : ℕ} {job : Job} {outcome : Outcome} {now : ℚ}
      (hjob : jobs[i]? = some job) (hrunning : job.status = .running)
      (hend : outcome.status = .done ∨ outcome.status = .failed) :
      Turn site gated (.reap i) jobs (jobs.modify i (Job.finish outcome now))
  | skip {jobs : List Job} {i : ℕ} {job : Job} {b : String} {now : ℚ}
      (hjob : jobs[i]? = some job) (hpending : job.status = .pending)
      (hblocker : blocker jobs job.dependsOn = some b) :
      Turn site gated (.skip i) jobs (jobs.modify i (Job.skip b now))
  | launch {jobs : List Job} {i : ℕ} {job : Job} {placement : Placement} {session : String}
      {now : ℚ} (hjob : jobs[i]? = some job) (hpending : job.status = .pending)
      (hdeps : gated = true → depsSatisfied jobs job = true)
      (hadmits : gated = true → Admits site.config jobs job)
      (hplaced : Placeable site jobs job placement) :
      Turn site gated (.launch i) jobs (jobs.modify i (Job.launch placement session now))
  | fail {jobs : List Job} {i : ℕ} {job : Job} {placement : Placement} {message : String} {now : ℚ}
      (hjob : jobs[i]? = some job) (hpending : job.status = .pending)
      (hdeps : gated = true → depsSatisfied jobs job = true) :
      Turn site gated (.fail i) jobs
        (jobs.modify i fun j => Job.fail ("launch_error: " ++ message) now (Job.place placement j))
  | kill {jobs : List Job} {i : ℕ} {job : Job} {now : ℚ} (hjob : jobs[i]? = some job)
      (hrunning : job.status = .running) :
      Turn site gated (.kill i) jobs (jobs.modify i (Job.fail "killed_by_user" now))
  | clear {jobs : List Job} {i : ℕ} {job : Job} {now : ℚ} (hjob : jobs[i]? = some job)
      (hrunning : job.status = .running) :
      Turn site gated (.clear i) jobs (jobs.modify i (Job.clear now))

theorem classify_status (rc : Option ℤ) (hint : Bool) :
    (classify rc hint).status = .done ∨ (classify rc hint).status = .failed := by
  unfold classify
  grind

namespace Chosen

variable {W : Type} [Host W] {site : Site} {gated : Bool} {i : ℕ} {job : Job}
  {placement : Placement} {s : Sys W} {w : W}

theorem admits (h : Chosen site gated i job placement s w) (hgate : gated = true) :
    Admits site.config s.jobs job := by
  obtain ⟨decision, w₁, hdecision, hok, -⟩ := h.admitted hgate
  exact admits_of_canLaunch hdecision hok

end Chosen

section Moves

variable {W : Type} [Host W] {site : Site} {gated : Bool} {label : Label} {s s' : Sys W}

/-- The jobs after a start. -/
theorem Started.jobs_eq {i : ℕ} {job : Job} {argv : List String}
    (h : Started site i job argv s s') :
    ∃ session, s'.jobs = s.jobs.modify i (Job.track session) := by
  cases h with
  | subprocess => exact ⟨_, rfl⟩
  | tmux => exact ⟨_, rfl⟩

theorem Started.starts_eq {i : ℕ} {job : Job} {argv : List String}
    (h : Started site i job argv s s') : s'.starts = i :: s.starts ∧ s'.stateFile = s.stateFile := by
  cases h with
  | subprocess => exact ⟨rfl, rfl⟩
  | tmux => exact ⟨rfl, rfl⟩

/-- The jobs after the start of a chosen job. -/
theorem Started.launched {i : ℕ} {job : Job} {argv : List String} {placement : Placement} {w : W}
    {s₁ : Sys W} (h : Started site i job argv (placing s i placement w) s₁) :
    ∃ session, ∀ now, s₁.jobs.modify i (Job.begin now) =
      s.jobs.modify i (Job.launch placement session now) := by
  obtain ⟨session, hjobs⟩ := h.jobs_eq
  refine ⟨session, fun now => ?_⟩
  simp only [hjobs, placing, List.modify_modify_eq]
  rfl

/-- Every move is a turn of the job list. -/
theorem Move.turn (h : Move site gated label s s') : Turn site gated label s.jobs s'.jobs := by
  cases h with
  | ask => exact .ask
  | probe => exact .ask
  | spare => exact .spare
  | save => exact .save
  | reap hjob hrunning hdead hreap htime hcooled =>
      obtain ⟨rc, w₁, hint, w₂, -, -, -, -, rfl, -⟩ := reap_eq_ok hreap
      exact .reap hjob hrunning (classify_status rc hint)
  | skip hjob hpending hblocker htime => exact .skip hjob hpending hblocker
  | launch hchosen hstarted htime =>
      obtain ⟨session, hlist⟩ := hstarted.launched
      simp only [hlist]
      exact .launch hchosen.found hchosen.pending hchosen.deps hchosen.admits hchosen.placed
  | fail hchosen hunstarted htime => exact .fail hchosen.found hchosen.pending hchosen.deps
  | kill hjob hrunning hkill htime => exact .kill hjob hrunning
  | clear hjob hrunning hdead hscope htime => exact .clear hjob hrunning

/-- Only a launch is logged as a start. -/
theorem Move.starts_eq (h : Move site gated label s s') :
    s'.starts = match label with
      | .launch i => i :: s.starts
      | _ => s.starts := by
  cases h with
  | launch hchosen hstarted htime => exact hstarted.starts_eq.1
  | _ => rfl

/-- Only a save writes the state file, and it writes the jobs as they are. -/
theorem Move.stateFile_eq (h : Move site gated label s s') :
    s'.stateFile = match label with
      | .save => some s.jobs
      | _ => s.stateFile := by
  cases h with
  | launch hchosen hstarted htime => exact hstarted.starts_eq.2
  | _ => rfl

/-! ### The world -/

theorem Started.onward {i : ℕ} {job : Job} {argv : List String}
    (h : Started site i job argv s s') : Onward s.world s'.world := by
  cases h with
  | subprocess hrunner hbefore hpopen hafter =>
      exact ((Later.onward hbefore).trans (.of_ok hpopen)).trans (Later.onward hafter)
  | tmux hrunner hbefore hkill hnew =>
      exact ((Later.onward hbefore).trans (.of_ok hkill)).trans (.of_ok hnew)

theorem Unstarted.onward {job : Job} {argv : List String} {w w' : W} {e : Exc}
    (h : Unstarted site job argv w e w') : Onward w w' := by
  cases h with
  | getcwd hbefore => exact Later.onward hbefore
  | popen hrunner hbefore hpopen => exact (Later.onward hbefore).trans (.of_error hpopen)
  | killSession hrunner hbefore hkill => exact (Later.onward hbefore).trans (.of_error hkill)
  | newSession hrunner hbefore hkill hnew =>
      exact ((Later.onward hbefore).trans (.of_ok hkill)).trans (.of_error hnew)

theorem Cooled.onward {config : Config} {outcome : Outcome} {cooldown cooldown' : ℚ} {w w' : W}
    (h : Cooled config outcome cooldown w cooldown' w') : Onward w w' := by
  cases h with
  | keep => exact .refl _
  | arm h htime => exact .of_ok htime

/-- A move takes the world onward. -/
theorem Move.onward (h : Move site gated label s s') : Onward s.world s'.world := by
  have hprobe : ∀ {job : Job} {alive : Bool} {s : Sys W} {w : W},
      isAlive job s = .ok alive { s with world := w } → Onward s.world w := by
    intro job alive s w halive
    obtain ⟨w', hseen, hworld⟩ := (looking_isAlive job).of_ok halive
    cases hworld
    exact Seen.onward hseen
  have hscopes : ∀ {job : Job} {alive : Bool} {s : Sys W} {w : W},
      aliveScope site job s = .ok alive { s with world := w } → Onward s.world w := by
    intro job alive s w hscope
    obtain ⟨w', hlater, hworld⟩ := (quiet_aliveScope site job).of_ok hscope
    cases hworld
    exact Later.onward hlater
  cases h with
  | ask hask => exact Later.onward (.single hask)
  | probe hjob hrunning halive => exact hprobe halive
  | spare hjob hrunning hdead hscope => exact (hprobe hdead).trans (hscopes hscope)
  | reap hjob hrunning hdead hreap htime hcooled =>
      obtain ⟨rc, w', hint, w'', -, hbefore, hafter, hsame, -⟩ := reap_eq_ok hreap
      cases hsame
      have hreaped := (Seen.onward hbefore).trans (Later.onward hafter)
      exact (((hprobe hdead).trans hreaped).trans (.of_ok htime)).trans hcooled.onward
  | skip hjob hpending hblocker htime => exact .of_ok htime
  | launch hchosen hstarted htime =>
      exact ((Later.onward hchosen.later).trans hstarted.onward).trans (.of_ok htime)
  | fail hchosen hunstarted htime =>
      exact ((Later.onward hchosen.later).trans hunstarted.onward).trans (.of_ok htime)
  | kill hjob hrunning hkill htime =>
      obtain ⟨procs, w', htended, hsame⟩ :=
        handled_of_path ((killJob_handled _).returns trivial hkill).1
      cases hsame
      exact htended.onward.trans (.of_ok htime)
  | clear hjob hrunning hdead hscope htime =>
      exact ((hprobe hdead).trans (hscopes hscope)).trans (.of_ok htime)
  | save => exact .refl _

/-- So does a turn that breaks off. -/
theorem Wreck.onward (h : Wreck site gated s s') : Onward s.world s'.world := by
  cases h with
  | lost hfile hstarts hseen => exact Seen.onward hseen
  | unstarted hchosen hunstarted hfile hstarts hlater =>
      exact ((Later.onward hchosen.later).trans hunstarted.onward).trans (Later.onward hlater)
  | started hchosen hstarted hfile hstarts hlater =>
      exact ((Later.onward hchosen.later).trans hstarted.onward).trans (Later.onward hlater)
  | killed hjob hrunning hfile hstarts hworld => exact hworld.onward

theorem onward_of_path {kinds : Label → Bool}
    (hpath : ReflTransGen (Step site gated kinds) s s') : Onward s.world s'.world := by
  induction hpath with
  | refl => exact .refl _
  | tail _ hlast ih =>
      obtain ⟨label, -, hmove⟩ := hlast
      exact ih.trans hmove.onward

end Moves

/-! ## The jobs after a turn -/

/-- A job of a rewritten list is an old one, or the one that was rewritten. -/
theorem getElem?_modify_cases {jobs : List Job} {i k : ℕ} {f : Job → Job} {b : Job}
    (h : (jobs.modify i f)[k]? = some b) :
    (k ≠ i ∧ jobs[k]? = some b) ∨ ∃ a, k = i ∧ jobs[i]? = some a ∧ b = f a := by
  rw [List.getElem?_modify] at h
  obtain ⟨a, ha, rfl⟩ := Option.map_eq_some_iff.mp h
  by_cases hk : i = k
  · subst hk
    exact .inr ⟨a, rfl, ha, if_pos rfl⟩
  · rw [if_neg hk]
    exact .inl ⟨Ne.symm hk, ha⟩

/-- What a rewriting leaves alone is the same for every job of the list. -/
theorem map_modify_of_eq {β : Type} {jobs : List Job} {i : ℕ} {f : Job → Job} {g : Job → β}
    (hf : ∀ job, g (f job) = g job) : (jobs.modify i f).map g = jobs.map g := by
  apply List.ext_getElem?
  intro k
  rw [List.getElem?_map, List.getElem?_map, List.getElem?_modify]
  cases jobs[k]? with
  | none => rfl
  | some job => by_cases hk : i = k <;> simp [hk, hf]

theorem mem_modify {jobs : List Job} {i : ℕ} {f : Job → Job} {b : Job} (h : b ∈ jobs.modify i f) :
    b ∈ jobs ∨ ∃ a, jobs[i]? = some a ∧ b = f a := by
  obtain ⟨k, hk⟩ := List.mem_iff_getElem?.mp h
  rcases getElem?_modify_cases hk with ⟨-, hold⟩ | ⟨a, -, ha, rfl⟩
  · exact .inl (List.mem_of_getElem? hold)
  · exact .inr ⟨a, ha, rfl⟩

theorem getElem?_modify_of_ne {jobs : List Job} {i k : ℕ} {f : Job → Job} (hne : k ≠ i) :
    (jobs.modify k f)[i]? = jobs[i]? := by
  rw [List.getElem?_modify]
  simp [hne]

/-- Rewriting a job so that it does not run takes it off the running jobs, if it was there. -/
theorem running_modify_sublist {jobs : List Job} {i : ℕ} {f : Job → Job}
    (hstop : ∀ job, jobs[i]? = some job → (f job).status ≠ .running) :
    (running (jobs.modify i f)).Sublist (running jobs) := by
  induction jobs generalizing i with
  | nil => simp [running]
  | cons job rest ih =>
      cases i with
      | zero =>
          have hidle := hstop job rfl
          simp only [running, List.modify_zero_cons]
          rw [List.filter_cons_of_neg (by simpa using hidle)]
          exact (List.sublist_cons_self job rest).filter _
      | succ i =>
          simp only [running, List.modify_succ_cons, List.filter_cons]
          have hrest := ih (i := i) fun job' hjob' => hstop job' hjob'
          split
          · exact hrest.cons_cons _
          · exact hrest

/-- Rewriting a job that runs neither before nor after leaves the running jobs as they were. -/
theorem running_modify_idle {jobs : List Job} {i : ℕ} {job : Job} {f : Job → Job}
    (hjob : jobs[i]? = some job) (hidle : job.status ≠ .running)
    (hstop : (f job).status ≠ .running) : running (jobs.modify i f) = running jobs := by
  induction jobs generalizing i with
  | nil => cases hjob
  | cons first rest ih =>
      cases i with
      | zero =>
          cases hjob
          simp only [running, List.modify_zero_cons]
          rw [List.filter_cons_of_neg (by simpa using hstop),
            List.filter_cons_of_neg (by simpa using hidle)]
      | succ i =>
          have hrest : running (rest.modify i f) = running rest := ih hjob
          simp only [running] at hrest
          simp only [running, List.modify_succ_cons, List.filter_cons, hrest]

/-- Rewriting a job so that it runs puts it on the running jobs. -/
theorem running_modify_perm {jobs : List Job} {i : ℕ} {job : Job} {f : Job → Job}
    (hjob : jobs[i]? = some job) (hidle : job.status ≠ .running)
    (hstart : (f job).status = .running) :
    (running (jobs.modify i f)).Perm (f job :: running jobs) := by
  induction jobs generalizing i with
  | nil => cases hjob
  | cons first rest ih =>
      cases i with
      | zero =>
          cases hjob
          simp only [running, List.modify_zero_cons]
          rw [List.filter_cons_of_pos (by simpa using hstart),
            List.filter_cons_of_neg (by simpa using hidle)]
      | succ i =>
          simp only [running, List.modify_succ_cons, List.filter_cons]
          have hrest := ih (i := i) hjob
          split
          · exact (hrest.cons first).trans (.swap _ _ _)
          · exact hrest

/-! ## Declarations -/

/-- Two places of a list with unique ids hold different ids. -/
theorem id_ne_of_ne {jobs : List Job} (hids : (jobs.map Job.id).Nodup) {i j : ℕ} {a b : Job}
    (ha : jobs[i]? = some a) (hb : jobs[j]? = some b) (hne : i ≠ j) : a.id ≠ b.id := by
  intro hid
  apply hne
  have hget : (jobs.map Job.id)[i]? = (jobs.map Job.id)[j]? := by
    rw [List.getElem?_map, List.getElem?_map, ha, hb, Option.map_some, Option.map_some, hid]
  have hi : i < (jobs.map Job.id).length := by
    rw [List.length_map]
    exact (List.getElem?_eq_some_iff.mp ha).1
  exact (List.getElem?_inj hi hids).mp hget

/-- The declared fields two jobs share. -/
structure SameDeclaration (a b : Job) : Prop where
  id : a.id = b.id
  cores : a.cores = b.cores
  ramGb : a.ramGb = b.ramGb
  dependsOn : a.dependsOn = b.dependsOn
  exclusive : a.exclusive = b.exclusive

theorem SameDeclaration.refl (a : Job) : SameDeclaration a a :=
  ⟨rfl, rfl, rfl, rfl, rfl⟩

/-- A turn rewrites at most one job, and nothing it declares. -/
theorem Turn.rewrites {site : Site} {gated : Bool} {label : Label} {jobs jobs' : List Job}
    (h : Turn site gated label jobs jobs') :
    ∃ i f, jobs' = jobs.modify i f ∧ ∀ job, SameDeclaration job (f job) := by
  have hkept : ∃ i f, jobs = jobs.modify i f ∧ ∀ job, SameDeclaration job (f job) :=
    ⟨0, id, (List.modify_id 0 jobs).symm, fun job => .refl job⟩
  cases h with
  | ask => exact hkept
  | save => exact hkept
  | spare => exact hkept
  | reap => exact ⟨_, _, rfl, fun _ => ⟨rfl, rfl, rfl, rfl, rfl⟩⟩
  | skip => exact ⟨_, _, rfl, fun _ => ⟨rfl, rfl, rfl, rfl, rfl⟩⟩
  | launch => exact ⟨_, _, rfl, fun _ => ⟨rfl, rfl, rfl, rfl, rfl⟩⟩
  | fail => exact ⟨_, _, rfl, fun _ => ⟨rfl, rfl, rfl, rfl, rfl⟩⟩
  | kill => exact ⟨_, _, rfl, fun _ => ⟨rfl, rfl, rfl, rfl, rfl⟩⟩
  | clear => exact ⟨_, _, rfl, fun _ => ⟨rfl, rfl, rfl, rfl, rfl⟩⟩

theorem Turn.sameDeclaration {site : Site} {gated : Bool} {label : Label} {jobs jobs' : List Job}
    (h : Turn site gated label jobs jobs') {i : ℕ} {job' : Job} (hjob' : jobs'[i]? = some job') :
    ∃ job, jobs[i]? = some job ∧ SameDeclaration job job' := by
  obtain ⟨k, f, rfl, hf⟩ := h.rewrites
  rw [List.getElem?_modify] at hjob'
  obtain ⟨job, hjob, rfl⟩ := Option.map_eq_some_iff.mp hjob'
  refine ⟨job, hjob, ?_⟩
  split
  · exact hf job
  · exact .refl job

end Nodepilot
