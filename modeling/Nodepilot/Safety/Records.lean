import Nodepilot.Safety.Cooldown
import Nodepilot.Safety.Orders
import Nodepilot.Steps.Idle

/-!
# What the records tell

All that is known of a job when it has ended is what stands in its runtime fields.  They
are written at eight places of the scheduler, and a field that one place leaves alone is
read with what an earlier one left in it.  `Entry` says what a single move may write into
a job, and when; `History` says how the record of a job has come about from its entry in
the queue, and is kept by every entry (`History.entry`).  From it one reads off, for the
records in memory and in the state file alike, what each status goes with: whether the
job was started, where and when it ran, with which exit code it ended and why it failed
(`records_tell`).  No time is written that lies in the future, and no job ends before it
was started, as long as the clock does not go back.
-/

namespace Nodepilot

open Obeys Relation

variable {W : Type} [Host W]

/-! ## Reasons -/

/-- The failure reason and the exit code that are recorded for a process that has failed. -/
inductive Explains : String → Option ℤ → Prop
  | oomUnseen : Explains "oom_killed" none
  | oomKilled : Explains "oom_killed" (some 137)
  | killedSignal : Explains "killed_signal" (some 137)
  | signal {code : ℤ} (hsignal : 128 < code) (hother : code ≠ 137) :
      Explains ("signal_" ++ String.ofList (intText (code - 128))) (some code)
  | exit {code : ℤ} (hpos : 0 < code) (hplain : code ≤ 128) :
      Explains ("exit_" ++ String.ofList (intText code)) (some code)

/-- The exit code of a reap is the process's, with a signal's death above 128. -/
theorem normalise_nonneg (rc : ℤ) : 0 ≤ normalise rc := by
  unfold normalise
  split
  · assumption
  · omega

theorem returncode_nonneg {job : Job} {s s' : Sys W} {code : ℤ}
    (h : returncode job s = .ok (some code) s') : 0 ≤ code := by
  unfold returncode at h
  cases htracked : tracked job.session with
  | pid digits =>
      simp only [htracked] at h
      obtain ⟨pid, s₁, -, h⟩ := bind_eq_ok.mp h
      obtain ⟨s₂, s₃, hget, h⟩ := bind_eq_ok.mp h
      cases hproc : s₂.procs.lookup pid with
      | none =>
          simp only [hproc] at h
          cases h
      | some proc =>
          simp only [hproc] at h
          obtain ⟨rc, s₄, -, hpure⟩ := bind_eq_ok.mp h
          cases rc with
          | none => cases hpure
          | some rc =>
              cases hpure
              exact normalise_nonneg rc
  | _ =>
      simp only [htracked] at h
      cases h

/-- A process is recorded as done with exit code zero or with none, and otherwise as failed for a
reason that goes with the exit code. -/
theorem classify_explains (hint : Bool) {rc : Option ℤ} (hrc : ∀ code, rc = some code → 0 ≤ code) :
    ((classify rc hint).status = .done ∧ (classify rc hint).reason = "" ∧
      ((classify rc hint).exitCode = none ∨ (classify rc hint).exitCode = some 0)) ∨
    ((classify rc hint).status = .failed ∧
      Explains (classify rc hint).reason (classify rc hint).exitCode) := by
  cases rc with
  | none =>
      cases hint with
      | true => exact .inr ⟨rfl, .oomUnseen⟩
      | false => exact .inl ⟨rfl, rfl, .inl rfl⟩
  | some code =>
      have hnonneg : 0 ≤ code := hrc code rfl
      unfold classify
      by_cases hkilled : code = 137
      · subst hkilled
        cases hint with
        | true => exact .inr ⟨rfl, .oomKilled⟩
        | false => exact .inr ⟨rfl, .killedSignal⟩
      · by_cases hzero : code = 0
        · subst hzero
          exact .inl ⟨rfl, rfl, .inr rfl⟩
        · simp only [if_neg hkilled, if_neg hzero]
          by_cases hsignal : 128 < code
          · rw [if_pos hsignal]
            exact .inr ⟨rfl, .signal hsignal hkilled⟩
          · rw [if_neg hsignal]
            exact .inr ⟨rfl, .exit (by omega) (by omega)⟩

/-! ## Entries -/

/-- A placement that the allocator has given a job. -/
def Given (site : Site) (job : Job) (placement : Placement) : Prop :=
  ∃ occupied, allocate job.cores occupied site.numaNodes (allocateOptions site job) =
    .ok (some placement)

/-- A process that the host has started for a job. -/
def Spawned (W : Type) [Host W] (jobId : String) (proc : Popen) : Prop :=
  ∃ (job : Job) (argv : List String) (workdir : String) (w w' : W), job.id = jobId ∧
    Host.answer (.popen job argv workdir job.env) w = .ok proc w'

/-- A session is the runner's for a job: its tmux session, or the pid of a process of its own. -/
def Tracks (W : Type) [Host W] (site : Site) (jobId session : String) : Prop :=
  if site.config.runner = "tmux" then session = "tmux:" ++ sessionName jobId
  else ∃ proc, Spawned W jobId proc ∧ session = "pid:" ++ String.ofList (intText proc.pid)

/-- What one move writes into a job at an instant. -/
inductive Entry (W : Type) [Host W] (site : Site) (now : ℚ) (job : Job) : Job → Prop
  | skip {dep b : String} (hpending : job.status = .pending) (hdep : dep ∈ job.dependsOn)
      (hblocker : b = dep ∨ b = dep ++ " (unknown)") : Entry W site now job (job.skip b now)
  | unstarted {placement : Placement} {message : String} (hpending : job.status = .pending)
      (hgiven : Given site job placement) :
      Entry W site now job ((job.place placement).fail ("launch_error: " ++ message) now)
  | start {placement : Placement} {session : String} (hpending : job.status = .pending)
      (hgiven : Given site job placement) (hsession : Tracks W site job.id session) :
      Entry W site now job (job.launch placement session now)
  | reap {rc : Option ℤ} {hint : Bool} (hrunning : job.status = .running)
      (hrc : ∀ code, rc = some code → 0 ≤ code) : Entry W site now job (job.finish (classify rc hint) now)
  | kill (hrunning : job.status = .running) : Entry W site now job (job.fail "killed_by_user" now)
  | clear (hrunning : job.status = .running) : Entry W site now job (job.clear now)

omit [Host W] in
/-- A job is named in the reason it blocks another one for. -/
theorem blocker_eq_some {jobs : List Job} {deps : List String} {b : String}
    (h : blocker jobs deps = some b) : ∃ dep ∈ deps, b = dep ∨ b = dep ++ " (unknown)" := by
  induction deps with
  | nil => cases h
  | cons dep rest ih =>
      unfold blocker at h
      cases hfound : byId jobs dep with
      | none =>
          simp only [hfound, Option.some.injEq] at h
          exact ⟨dep, List.mem_cons_self .., .inr h.symm⟩
      | some upstream =>
          simp only [hfound] at h
          split at h
          · cases h
            exact ⟨b, List.mem_cons_self .., .inl rfl⟩
          · obtain ⟨other, hother, hreason⟩ := ih h
            exact ⟨other, List.mem_cons_of_mem _ hother, hreason⟩

/-- A process that has been started is tracked by its session. -/
theorem Started.tracks {site : Site} {i : ℕ} {job : Job} {argv : List String} {s s' : Sys W}
    (h : Started site i job argv s s') :
    ∃ session, Tracks W site job.id session ∧ s'.jobs = s.jobs.modify i (Job.track session) := by
  cases h with
  | @subprocess workdir proc w₁ w₂ w₃ hrunner hbefore hpopen hafter =>
      refine ⟨_, ?_, rfl⟩
      rw [Tracks, if_neg hrunner]
      exact ⟨proc, ⟨job, argv, workdir, w₁, w₂, rfl, hpopen⟩, rfl⟩
  | tmux hrunner hbefore hkill hnew =>
      refine ⟨_, ?_, rfl⟩
      rw [Tracks, if_pos hrunner]

/-- A move leaves the jobs as they are, or it makes one entry, at an instant while it is made. -/
theorem Move.entry (clock : Clock W) {site : Site} {gated : Bool} {label : Label} {s s' : Sys W}
    (h : Move site gated label s s') :
    s'.jobs = s.jobs ∨ ∃ i f job now, s'.jobs = s.jobs.modify i f ∧ s.jobs[i]? = some job ∧
      clock.reading s.world ≤ now ∧ now ≤ clock.reading s'.world ∧ Entry W site now job (f job) := by
  cases h with
  | ask hask => exact .inl rfl
  | probe hjob hrunning halive => exact .inl rfl
  | spare hjob hrunning hdead hscope => exact .inl rfl
  | save => exact .inl rfl
  | @reap _ i job outcome w₁ w₂ w₃ w₄ now cooldown hjob hrunning hdead hreap htime hcooled =>
      obtain ⟨v₁, hseen, hsame⟩ := (looking_isAlive job).of_ok hdead
      cases hsame
      obtain ⟨rc, v₂, hint, v₃, hrc, hseen', hlater, hsame, rfl, -⟩ := reap_eq_ok hreap
      cases hsame
      have hbefore : Onward s.world w₂ :=
        ((Seen.onward hseen).trans (Seen.onward hseen')).trans (Later.onward hlater)
      obtain ⟨hlow, hhigh⟩ := clock.read htime
      refine .inr ⟨i, _, job, now, rfl, hjob, (clock.onward hbefore).trans hlow,
        hhigh.trans (clock.onward hcooled.onward), .reap hrunning fun code hcode => ?_⟩
      subst hcode
      exact returncode_nonneg hrc
  | @skip _ i job b w now hjob hpending hblocker htime =>
      obtain ⟨dep, hdep, hreason⟩ := blocker_eq_some hblocker
      obtain ⟨hlow, hhigh⟩ := clock.read htime
      exact .inr ⟨i, _, job, now, rfl, hjob, hlow, hhigh, .skip hpending hdep hreason⟩
  | @launch _ s₁ i job placement argv w w₂ now hchosen hstarted htime =>
      obtain ⟨occupied, -, hplaced⟩ := hchosen.placed
      obtain ⟨session, hsession, hjobs⟩ := hstarted.tracks
      obtain ⟨hlow, hhigh⟩ := clock.read htime
      have hbefore : Onward s.world s₁.world := (Later.onward hchosen.later).trans hstarted.onward
      refine .inr ⟨i, Job.launch placement session now, job, now, ?_, hchosen.found,
        (clock.onward hbefore).trans hlow, hhigh, .start hchosen.pending ⟨occupied, hplaced⟩ hsession⟩
      simp only [hjobs, placing, List.modify_modify_eq]
      rfl
  | @fail _ i job placement argv e w w₁ w₂ now hchosen hunstarted htime =>
      obtain ⟨occupied, -, hplaced⟩ := hchosen.placed
      obtain ⟨hlow, hhigh⟩ := clock.read htime
      have hbefore : Onward s.world w₁ := (Later.onward hchosen.later).trans hunstarted.onward
      exact .inr ⟨i, _, job, now, rfl, hchosen.found, (clock.onward hbefore).trans hlow, hhigh,
        .unstarted hchosen.pending ⟨occupied, hplaced⟩⟩
  | @kill _ i job procs w₁ w₂ now hjob hrunning hkill htime =>
      obtain ⟨procs', w', htended, hsame⟩ :=
        handled_of_path ((killJob_handled _).returns trivial hkill).1
      cases hsame
      obtain ⟨hlow, hhigh⟩ := clock.read htime
      exact .inr ⟨i, _, job, now, rfl, hjob, (clock.onward htended.onward).trans hlow, hhigh,
        .kill hrunning⟩
  | @clear _ i job w₁ w₂ w₃ now hjob hrunning hdead hscope htime =>
      obtain ⟨v₁, hseen, hsame⟩ := (looking_isAlive job).of_ok hdead
      cases hsame
      obtain ⟨v₂, hlater, hsame⟩ := (quiet_aliveScope site job).of_ok hscope
      cases hsame
      obtain ⟨hlow, hhigh⟩ := clock.read htime
      have hbefore : Onward s.world w₂ := (Seen.onward hseen).trans (Later.onward hlater)
      exact .inr ⟨i, _, job, now, rfl, hjob, (clock.onward hbefore).trans hlow, hhigh, .clear hrunning⟩

/-! ## Histories -/

/-- How the record of a job that was queued has come about, by an instant. -/
inductive History (W : Type) [Host W] (site : Site) (queued : Job) (now : ℚ) : Job → Prop
  | queued : History W site queued now queued
  | skipped {dep b : String} {t : ℚ} (htime : t ≤ now) (hdep : dep ∈ queued.dependsOn)
      (hblocker : b = dep ∨ b = dep ++ " (unknown)") : History W site queued now (queued.skip b t)
  | unstarted {placement : Placement} {message : String} {t : ℚ} (htime : t ≤ now)
      (hgiven : Given site queued placement) :
      History W site queued now ((queued.place placement).fail ("launch_error: " ++ message) t)
  | running {placement : Placement} {session : String} {start : ℚ} (htime : start ≤ now)
      (hgiven : Given site queued placement) (hsession : Tracks W site queued.id session) :
      History W site queued now (queued.launch placement session start)
  | ended {placement : Placement} {session : String} {start t : ℚ} {rc : Option ℤ} {hint : Bool}
      (hstart : start ≤ t) (htime : t ≤ now) (hgiven : Given site queued placement)
      (hsession : Tracks W site queued.id session) (hrc : ∀ code, rc = some code → 0 ≤ code) :
      History W site queued now ((queued.launch placement session start).finish (classify rc hint) t)
  | killed {placement : Placement} {session : String} {start t : ℚ} (hstart : start ≤ t)
      (htime : t ≤ now) (hgiven : Given site queued placement)
      (hsession : Tracks W site queued.id session) :
      History W site queued now ((queued.launch placement session start).fail "killed_by_user" t)
  | lost {placement : Placement} {session : String} {start t : ℚ} (hstart : start ≤ t)
      (htime : t ≤ now) (hsession : Tracks W site queued.id session) :
      History W site queued now ((queued.launch placement session start).clear t)

section Histories

variable {site : Site} {queued job job' : Job} {now later t : ℚ}

/-- What has come about by an instant has come about by a later one. -/
theorem History.mono (h : History W site queued now job) (hle : now ≤ later) :
    History W site queued later job := by
  cases h with
  | queued => exact .queued
  | skipped htime hdep hblocker => exact .skipped (htime.trans hle) hdep hblocker
  | unstarted htime hgiven => exact .unstarted (htime.trans hle) hgiven
  | running htime hgiven hsession => exact .running (htime.trans hle) hgiven hsession
  | ended hstart htime hgiven hsession hrc =>
      exact .ended hstart (htime.trans hle) hgiven hsession hrc
  | killed hstart htime hgiven hsession => exact .killed hstart (htime.trans hle) hgiven hsession
  | lost hstart htime hsession => exact .lost hstart (htime.trans hle) hsession

/-- Only the queue's own job is waiting. -/
theorem History.pending (h : History W site queued now job) (hpending : job.status = .pending) :
    job = queued := by
  cases h with
  | queued => rfl
  | @ended placement session start t rc hint =>
      rcases classify_status rc hint with hdone | hfailed
      · rw [Job.finish_status, hdone] at hpending
        cases hpending
      · rw [Job.finish_status, hfailed] at hpending
        cases hpending
  | _ => cases hpending

/-- A running job has been started and no more. -/
theorem History.running_inv (h : History W site queued now job) (hqueued : queued.status ≠ .running)
    (hrunning : job.status = .running) : ∃ placement session start, start ≤ now ∧
      Given site queued placement ∧ Tracks W site queued.id session ∧
      job = queued.launch placement session start := by
  cases h with
  | queued => exact absurd hrunning hqueued
  | running htime hgiven hsession => exact ⟨_, _, _, htime, hgiven, hsession, rfl⟩
  | @ended placement session start t rc hint =>
      rcases classify_status rc hint with hdone | hfailed
      · rw [Job.finish_status, hdone] at hrunning
        cases hrunning
      · rw [Job.finish_status, hfailed] at hrunning
        cases hrunning
  | _ => cases hrunning

/-- An entry goes on with the history of its job. -/
theorem History.entry (h : History W site queued now job) (hqueued : queued.status ≠ .running)
    (hentry : Entry W site t job job') (hbefore : now ≤ t) (hafter : t ≤ later) :
    History W site queued later job' := by
  cases hentry with
  | skip hpending hdep hblocker =>
      rw [h.pending hpending] at hdep ⊢
      exact .skipped hafter hdep hblocker
  | unstarted hpending hgiven =>
      rw [h.pending hpending] at hgiven ⊢
      exact .unstarted hafter hgiven
  | start hpending hgiven hsession =>
      rw [h.pending hpending] at hgiven hsession ⊢
      exact .running hafter hgiven hsession
  | reap hrunning hrc =>
      obtain ⟨placement, session, start, hstart, hgiven, hsession, rfl⟩ :=
        h.running_inv hqueued hrunning
      exact .ended (hstart.trans hbefore) hafter hgiven hsession hrc
  | kill hrunning =>
      obtain ⟨placement, session, start, hstart, hgiven, hsession, rfl⟩ :=
        h.running_inv hqueued hrunning
      exact .killed (hstart.trans hbefore) hafter hgiven hsession
  | clear hrunning =>
      obtain ⟨placement, session, start, hstart, hgiven, hsession, rfl⟩ :=
        h.running_inv hqueued hrunning
      exact .lost (hstart.trans hbefore) hafter hsession

end Histories

/-! ## Runs -/

/-- The states of the runs of a site, restarts included, on a host whose clock does not go back. -/
inductive Dated (clock : Clock W) (site : Site) (gated : Bool) : Sys W → Prop
  | fresh (w : W) : Dated clock site gated (fresh site w)
  /-- The world moves on its own. -/
  | world {s : Sys W} (w : W) (h : Dated clock site gated s)
      (hclock : clock.reading s.world ≤ clock.reading w) : Dated clock site gated { s with world := w }
  | op {s s' : Sys W} (op : Op) (h : Dated clock site gated s) (hallowed : op.allowed gated s)
      (hop : op.program site s = .ok () s') : Dated clock site gated s'
  /-- The process stops between two operations, and the next one loads the state file. -/
  | resume {s s' : Sys W} (h : Dated clock site gated s) (hload : fromQueue site s = .ok () s') :
      Dated clock site gated s'
  /-- An operation raises, which ends the process. -/
  | crash {s s₁ s' : Sys W} {e : Exc} (op : Op) (h : Dated clock site gated s)
      (hallowed : op.allowed gated s) (hop : op.program site s = .error e s₁)
      (hload : fromQueue site s₁ = .ok () s') : Dated clock site gated s'

/-- The records of a list of jobs have come about from the queue. -/
structure Histories (W : Type) [Host W] (site : Site) (now : ℚ) (jobs : List Job) : Prop where
  length : jobs.length = site.queue.length
  each : ∀ (i : ℕ) (queued job : Job), site.queue[i]? = some queued → jobs[i]? = some job →
    History W site queued now job

section Runs

variable {clock : Clock W} {site : Site} {gated : Bool} {s s' : Sys W} {now later : ℚ} {jobs : List Job}

theorem Histories.queue (site : Site) (now : ℚ) : Histories W site now site.queue where
  length := rfl
  each i queued job hqueued hjob := by
    rw [hqueued] at hjob
    cases hjob
    exact .queued

theorem Histories.mono (h : Histories W site now jobs) (hle : now ≤ later) :
    Histories W site later jobs where
  length := h.length
  each i queued job hqueued hjob := (h.each i queued job hqueued hjob).mono hle

/-- One entry in a list of records. -/
theorem Histories.modify (h : Histories W site now jobs) (hqueue : AllIdle site.queue) {i : ℕ}
    {f : Job → Job} {job : Job} {t : ℚ} (hjob : jobs[i]? = some job)
    (hentry : Entry W site t job (f job)) (hbefore : now ≤ t) (hafter : t ≤ later) :
    Histories W site later (jobs.modify i f) where
  length := by
    rw [List.length_modify]
    exact h.length
  each k queued job' hqueued hjob' := by
    rcases getElem?_modify_cases hjob' with ⟨-, hsame⟩ | ⟨old, rfl, hold, rfl⟩
    · exact (h.each k queued job' hqueued hsame).mono (hbefore.trans hafter)
    · rw [hjob] at hold
      cases hold
      exact (h.each k queued job hqueued hjob).entry (hqueue queued (List.mem_of_getElem? hqueued))
        hentry hbefore hafter

/-- One move. -/
theorem Move.histories {label : Label} (hmove : Move site gated label s s')
    (hqueue : AllIdle site.queue) (h : Histories W site (clock.reading s.world) s.jobs) :
    Histories W site (clock.reading s'.world) s'.jobs := by
  rcases hmove.entry clock with hsame | ⟨i, f, job, now, hjobs, hjob, hbefore, hafter, hentry⟩
  · rw [hsame]
    exact h.mono (clock.onward hmove.onward)
  · rw [hjobs]
    exact h.modify hqueue hjob hentry hbefore hafter

/-- What the queue has at any time, what stays so as time goes on and what every move keeps holds of
the jobs in memory and in the state file over a whole run. -/
theorem Dated.kept {J : ℚ → List Job → Prop} (h : Dated clock site gated s)
    (hqueue : ∀ now, J now site.queue)
    (hmono : ∀ now later jobs, now ≤ later → J now jobs → J later jobs)
    (hmove : ∀ (label : Label) (s s' : Sys W), Move site gated label s s' →
      J (clock.reading s.world) s.jobs → J (clock.reading s'.world) s'.jobs) :
    J (clock.reading s.world) s.jobs ∧
      ∀ saved, s.stateFile = some saved → J (clock.reading s.world) saved := by
  -- loading the state file, or the queue where there is none
  have hload : ∀ {s s' : Sys W}, (∀ saved, s.stateFile = some saved → J (clock.reading s.world) saved) →
      fromQueue site s = .ok () s' → J (clock.reading s'.world) s'.jobs ∧
        ∀ saved, s'.stateFile = some saved → J (clock.reading s'.world) saved := by
    intro s s' hfile hload
    obtain ⟨w, hlater, rfl⟩ := fromQueue_eq_ok hload
    have hle : clock.reading s.world ≤ clock.reading w := clock.onward (Later.onward hlater)
    constructor
    · cases hsaved : s.stateFile with
      | none => exact hqueue _
      | some saved => exact hmono _ _ _ hle (hfile saved hsaved)
    · exact fun saved hsaved => hmono _ _ _ hle (hfile saved hsaved)
  have hstep : ∀ s s' : Sys W, Step site gated Label.any s s' →
      (J (clock.reading s.world) s.jobs ∧
        ∀ saved, s.stateFile = some saved → J (clock.reading s.world) saved) →
      J (clock.reading s'.world) s'.jobs ∧
        ∀ saved, s'.stateFile = some saved → J (clock.reading s'.world) saved := by
    rintro s s' ⟨label, -, hmoved⟩ ⟨hjobs, hfile⟩
    have hle : clock.reading s.world ≤ clock.reading s'.world := clock.onward hmoved.onward
    refine ⟨hmove label s s' hmoved hjobs, fun saved hsaved => ?_⟩
    rw [hmoved.stateFile_eq] at hsaved
    split at hsaved
    · cases hsaved
      exact hmono _ _ _ hle hjobs
    · exact hmono _ _ _ hle (hfile saved hsaved)
  induction h with
  | fresh w => exact ⟨hqueue _, fun saved hsaved => by cases hsaved⟩
  | world w h hclock ih =>
      exact ⟨hmono _ _ _ hclock ih.1, fun saved hsaved => hmono _ _ _ hclock (ih.2 saved hsaved)⟩
  | op op h hallowed hop ih =>
      exact invariant_of_path hstep ((op.obeys site gated).returns hallowed hop).1 ih
  | resume h hloaded ih => exact hload ih.2 hloaded
  | crash op h hallowed hop hloaded ih =>
      obtain ⟨mid, hpath, hwreck⟩ := (op.obeys site gated).raises hallowed hop
      have hmid := invariant_of_path hstep hpath ih
      refine hload (fun saved hsaved => ?_) hloaded
      rw [hwreck.stateFile_eq] at hsaved
      exact hmono _ _ _ (clock.onward hwreck.onward) (hmid.2 saved hsaved)

end Runs

/-! ## Reading a record -/

/-- The job was started: in a session of its own, on a node of the topology, on as many of the
node's CPUs as it asks for. -/
structure Begun (W : Type) [Host W] (site : Site) (queued job : Job) : Prop where
  session : Tracks W site queued.id job.session
  block : 0 < queued.cores → ∃ spec nodeCores block, (job.numaNode, spec) ∈ site.numaNodes ∧
    parseCpuList spec = .ok nodeCores ∧ parseCpuList job.cpuList = .ok block ∧
    (block.card : ℤ) = queued.cores ∧ block ⊆ nodeCores

/-- What the record of a job says, next to its entry in the queue. -/
structure RecordTells (W : Type) [Host W] (site : Site) (now : ℚ) (queued job : Job) : Prop where
  declared : job.declared = queued.declared
  waiting : job.status = .pending ∨ job.status = .dormant → job = queued
  skipped : job.status = .skipped → (∃ dep ∈ queued.dependsOn,
      job.failureReason = "dependency_failed: " ++ dep ∨
      job.failureReason = "dependency_failed: " ++ (dep ++ " (unknown)")) ∧
    job.session = "" ∧ job.startTime = 0 ∧ job.exitCode = none
  running : job.status = .running → Begun W site queued job ∧ job.endTime = 0 ∧
    job.failureReason = "" ∧ job.exitCode = none
  done : job.status = .done → Begun W site queued job ∧ job.startTime ≤ job.endTime ∧
    job.failureReason = "" ∧ (job.exitCode = none ∨ job.exitCode = some 0)
  failed : job.status = .failed →
    ((∃ message, job.failureReason = "launch_error: " ++ message) ∧ job.session = "" ∧
      job.startTime = 0 ∧ job.exitCode = none) ∨
    (Begun W site queued job ∧ job.startTime ≤ job.endTime ∧
      (Explains job.failureReason job.exitCode ∨
        (job.failureReason = "killed_by_user" ∧ job.exitCode = none))) ∨
    (Tracks W site queued.id job.session ∧ job.startTime ≤ job.endTime ∧ job.cpuList = "" ∧
      job.failureReason = "zombie_at_restart" ∧ job.exitCode = none)
  past : (job.startTime = 0 ∨ job.startTime ≤ now) ∧ (job.endTime = 0 ∨ job.endTime ≤ now)
  hours : 0 ≤ job.runtimeHours

section Reading

variable {site : Site} {queued job : Job} {now : ℚ}

theorem runtimeHours_nonneg (h : job.startTime = 0 ∨ job.endTime = 0 ∨ job.startTime ≤ job.endTime) :
    0 ≤ job.runtimeHours := by
  unfold Job.runtimeHours
  split
  · rename_i hset
    rcases h with hstart | hend | hle
    · exact absurd hstart hset.1
    · exact absurd hend hset.2
    · exact div_nonneg (sub_nonneg.mpr hle) (by norm_num)
  · exact le_rfl

/-- A placed job has what the allocator has given it. -/
theorem Begun.of_given {placement : Placement} {session : String} {start : ℚ}
    (hgiven : Given site queued placement) (hsession : Tracks W site queued.id session) :
    Begun W site queued (queued.launch placement session start) where
  session := hsession
  block hpos := by
    obtain ⟨occupied, hplaced⟩ := hgiven
    obtain ⟨spec, nodeCores, block, hnode, hspec, hblock, hcard, hinside, -⟩ :=
      allocate_spec hpos hplaced
    exact ⟨spec, nodeCores, block, hnode, hspec, hblock, hcard, hinside⟩

/-- A job as it stands in the queue. -/
theorem RecordTells.of_queued (hqueued : queued.status = .pending ∨ queued.status = .dormant)
    (hfresh : queued.freshRuntime) : RecordTells W site now queued queued where
  declared := rfl
  waiting _ := rfl
  skipped h := by rcases hqueued with hs | hs <;> rw [hs] at h <;> cases h
  running h := by rcases hqueued with hs | hs <;> rw [hs] at h <;> cases h
  done h := by rcases hqueued with hs | hs <;> rw [hs] at h <;> cases h
  failed h := by rcases hqueued with hs | hs <;> rw [hs] at h <;> cases h
  past := ⟨.inl hfresh.2.2.2.1, .inl hfresh.2.2.2.2.1⟩
  hours := runtimeHours_nonneg (.inl hfresh.2.2.2.1)

/-- A job that ends after it was started: it has failed or is done. -/
theorem RecordTells.of_finish {placement : Placement} {session : String} {start t : ℚ}
    {outcome : Outcome} (hstart : start ≤ t) (htime : t ≤ now) (hgiven : Given site queued placement)
    (hsession : Tracks W site queued.id session)
    (hend : (outcome.status = .done ∧ outcome.reason = "" ∧
        (outcome.exitCode = none ∨ outcome.exitCode = some 0)) ∨
      (outcome.status = .failed ∧ (Explains outcome.reason outcome.exitCode ∨
        (outcome.reason = "killed_by_user" ∧ outcome.exitCode = none)))) :
    RecordTells W site now queued ((queued.launch placement session start).finish outcome t) := by
  have hlaunched : Begun W site queued (queued.launch placement session start) :=
    .of_given hgiven hsession
  have hbegun : Begun W site queued ((queued.launch placement session start).finish outcome t) :=
    ⟨hsession, hlaunched.block⟩
  have hstatus : ∀ status, status ≠ .done → status ≠ .failed → outcome.status ≠ status := by
    intro status hdone hfailed heq
    rcases hend with ⟨h, -⟩ | ⟨h, -⟩
    · exact hdone (heq.symm.trans h)
    · exact hfailed (heq.symm.trans h)
  constructor
  · rfl
  · rintro (h | h)
    · exact absurd h (hstatus _ (by decide) (by decide))
    · exact absurd h (hstatus _ (by decide) (by decide))
  · exact fun h => absurd h (hstatus _ (by decide) (by decide))
  · exact fun h => absurd h (hstatus _ (by decide) (by decide))
  · intro h
    rcases hend with ⟨-, hreason, hcode⟩ | ⟨hfailed, -⟩
    · exact ⟨hbegun, hstart, hreason, hcode⟩
    · cases hfailed.symm.trans h
  · intro h
    rcases hend with ⟨hdone, -⟩ | ⟨-, hwhy⟩
    · cases hdone.symm.trans h
    · exact .inr (.inl ⟨hbegun, hstart, hwhy⟩)
  · exact ⟨.inr (hstart.trans htime), .inr htime⟩
  · exact runtimeHours_nonneg (.inr (.inr hstart))

/-- What the record of a job says is what has happened to it. -/
theorem History.tells (h : History W site queued now job)
    (hqueued : queued.status = .pending ∨ queued.status = .dormant) (hfresh : queued.freshRuntime) :
    RecordTells W site now queued job := by
  have hwaiting : RecordTells W site now queued queued := .of_queued hqueued hfresh
  obtain ⟨hsession, hcpus, hnode, hstart, hend, hreason, hcode⟩ := hfresh
  cases h with
  | queued => exact hwaiting
  | @skipped dep b t htime hdep hblocker =>
      constructor
      · rfl
      · rintro (h | h) <;> cases h
      · refine fun _ => ⟨⟨dep, hdep, ?_⟩, hsession, hstart, hcode⟩
        rcases hblocker with rfl | rfl
        · exact .inl rfl
        · exact .inr rfl
      · exact fun h => by cases h
      · exact fun h => by cases h
      · exact fun h => by cases h
      · exact ⟨.inl hstart, .inr htime⟩
      · exact runtimeHours_nonneg (.inl hstart)
  | @unstarted placement message t htime hgiven =>
      constructor
      · rfl
      · rintro (h | h) <;> cases h
      · exact fun h => by cases h
      · exact fun h => by cases h
      · exact fun h => by cases h
      · exact fun _ => .inl ⟨⟨message, rfl⟩, hsession, hstart, hcode⟩
      · exact ⟨.inl hstart, .inr htime⟩
      · exact runtimeHours_nonneg (.inl hstart)
  | @running placement session start htime hgiven htracks =>
      constructor
      · rfl
      · rintro (h | h) <;> cases h
      · exact fun h => by cases h
      · exact fun _ => ⟨.of_given hgiven htracks, hend, hreason, hcode⟩
      · exact fun h => by cases h
      · exact fun h => by cases h
      · exact ⟨.inr htime, .inl hend⟩
      · exact runtimeHours_nonneg (.inr (.inl hend))
  | @ended placement session start t rc hint hle htime hgiven htracks hrc =>
      refine .of_finish hle htime hgiven htracks ?_
      rcases classify_explains hint hrc with hdone | ⟨hfailed, hwhy⟩
      · exact .inl hdone
      · exact .inr ⟨hfailed, .inl hwhy⟩
  | @killed placement session start t hle htime hgiven htracks =>
      -- a kill leaves the exit code as the launch found it
      have hsame : (queued.launch placement session start).fail "killed_by_user" t =
          (queued.launch placement session start).finish ⟨.failed, "killed_by_user", none⟩ t := by
        show ({ (queued.launch placement session start) with
          status := .failed, failureReason := "killed_by_user", endTime := t } : Job) = _
        rw [← hcode]
        rfl
      rw [hsame]
      exact .of_finish hle htime hgiven htracks (.inr ⟨rfl, .inr ⟨rfl, rfl⟩⟩)
  | @lost placement session start t hle htime htracks =>
      constructor
      · rfl
      · rintro (h | h) <;> cases h
      · exact fun h => by cases h
      · exact fun h => by cases h
      · exact fun h => by cases h
      · exact fun _ => .inr (.inr ⟨htracks, hle, rfl, rfl, hcode⟩)
      · exact ⟨.inr (hle.trans htime), .inr htime⟩
      · exact runtimeHours_nonneg (.inr (.inr hle))

end Reading

/-- In every run of a queue, restarts and ticks that break off included, every record in memory and
in the state file tells what has become of its job: a waiting one is as it was queued, one that is
not was either skipped for one of its dependencies, or failed to start, or was started on as many
CPUs as it asks for and has not ended before, with an exit code that goes with its reason. -/
theorem records_tell (clock : Clock W) (site : Site) (gated : Bool) (s : Sys W)
    (hqueue : ∀ job ∈ site.queue, (job.status = .pending ∨ job.status = .dormant) ∧ job.freshRuntime)
    (h : Dated clock site gated s) (jobs : List Job)
    (hjobs : jobs = s.jobs ∨ s.stateFile = some jobs) :
    jobs.length = site.queue.length ∧ ∀ (i : ℕ) (queued job : Job), site.queue[i]? = some queued →
      jobs[i]? = some job → RecordTells W site (clock.reading s.world) queued job := by
  have hidle : AllIdle site.queue := by
    intro job hjob hrunning
    rcases (hqueue job hjob).1 with hs | hs
    · cases hs.symm.trans hrunning
    · cases hs.symm.trans hrunning
  have hkept := h.kept (J := Histories W site) (fun now => .queue site now)
    (fun _ _ _ hle hhistories => hhistories.mono hle)
    fun _ _ _ hmove hhistories => hmove.histories hidle hhistories
  have hhistories : Histories W site (clock.reading s.world) jobs := by
    rcases hjobs with rfl | hsaved
    · exact hkept.1
    · exact hkept.2 jobs hsaved
  refine ⟨hhistories.length, fun i queued job hqueued hjob => ?_⟩
  obtain ⟨hstatus, hfresh⟩ := hqueue queued (List.mem_of_getElem? hqueued)
  exact (hhistories.each i queued job hqueued hjob).tells hstatus hfresh

/-- A job that fails, one that goes on, and one that depends on the first. -/
def recordJobs : List Job :=
  [{ id := "a", command := "false" }, { id := "b", command := "true" },
   { id := "c", command := "true", dependsOn := ["a"] }]

def recordSite : Site :=
  smallSite recordJobs smallConfig reserved_smallConfig

/-- The first of three jobs after it has failed. -/
def failedFirst : List Job → Bool
  | a :: _ => a.status == .failed && a.failureReason == "exit_3" && a.exitCode == some 3 &&
      a.startTime == 100 && a.endTime == 110
  | [] => false

/-- The state file of the first session tells the second one why a job has failed. -/
theorem records_tell_session : ∃ (s : Sys World) (a : Job), s.jobs[0]? = some a ∧
    a.failureReason = "exit_3" ∧ a.exitCode = some 3 ∧ a.startTime = 100 ∧ a.endTime = 110 ∧
    s.jobs.map Job.status = [.failed, .running, .skipped] ∧
    RecordTells World recordSite (wallClock.reading s.world) { id := "a", command := "false" } a := by
  obtain ⟨⟨⟩, s, hrun, hhoped⟩ := of_returns (show returns ((do
      let _ ← tick recordSite
      happens [.elapse 10, .exit 0 3]
      let _ ← tick recordSite
      saveState
      fromQueue recordSite) (fresh recordSite { clock := 100 })) (fun s =>
        s.jobs.map Job.status == [.failed, .running, .skipped] && failedFirst s.jobs) = true by
      decide +kernel)
  obtain ⟨changed₁, s₁, htick₁, hrun⟩ := bind_eq_ok.mp hrun
  obtain ⟨⟨⟩, s₂, hhappens, hrun⟩ := bind_eq_ok.mp hrun
  obtain ⟨changed₂, s₃, htick₂, hrun⟩ := bind_eq_ok.mp hrun
  obtain ⟨⟨⟩, s₄, hsave, hload⟩ := bind_eq_ok.mp hrun
  cases hhappens
  have hop : ∀ {s s' : Sys World} {changed : Bool}, Dated wallClock recordSite true s →
      tick recordSite s = .ok changed s' → Dated wallClock recordSite true s' :=
    fun hs h => .op .tick hs trivial (bind_eq_ok.mpr ⟨_, _, h, rfl⟩)
  have hdated : Dated wallClock recordSite true s :=
    .resume (.op .saveState (hop (.world _ (hop (.fresh _) htick₁) (clock_events _ _)) htick₂) trivial
      hsave) hload
  obtain ⟨hstatuses, hfirst⟩ := Bool.and_eq_true_iff.mp hhoped
  rw [beq_iff_eq] at hstatuses
  have htells := (records_tell wallClock recordSite true s (by decide) hdated s.jobs
    (.inl rfl)).2
  cases hjobs : s.jobs with
  | nil =>
      rw [hjobs] at hfirst
      cases hfirst
  | cons a rest =>
      rw [hjobs] at hfirst
      simp only [failedFirst, Bool.and_eq_true, beq_iff_eq] at hfirst
      obtain ⟨⟨⟨⟨-, hreason⟩, hcode⟩, hstart⟩, hend⟩ := hfirst
      refine ⟨s, a, by rw [hjobs]; rfl, hreason, hcode, hstart, hend, hstatuses, ?_⟩
      exact htells 0 _ a rfl (by rw [hjobs, List.getElem?_cons_zero])

end Nodepilot
