import Nodepilot.Steps.Quiet

/-!
# The moves of the scheduler

What the scheduler can do to its state and to the world, said once: a `Move` is
one turn of one of its loops, with everything that decided it and everything it
left.  `Wreck` is what is found after a turn that never came to its end, because
an exception escaped or the process died: memory is lost, and what counts is the
state file, the world and the log of starts.

That each function of the loop only makes such moves is proved in `Refine`; the
properties of the scheduler are proved of the moves.
-/

namespace Nodepilot

variable {W : Type} [Host W]

/-! ## What the turns write into a job -/

namespace Job

/-- `_reap_finished` writes the outcome. -/
def finish (outcome : Outcome) (now : ℚ) (job : Job) : Job :=
  { job with status := outcome.status, failureReason := outcome.reason,
             exitCode := outcome.exitCode, endTime := now }

/-- `_mark_dead_dependents` skips the job. -/
def skip (blocker : String) (now : ℚ) (job : Job) : Job :=
  { job with status := .skipped, failureReason := "dependency_failed: " ++ blocker,
             endTime := now }

/-- `Runner.start` says how the job is tracked. -/
def track (session : String) (job : Job) : Job :=
  { job with session := session }

/-- `_launch` after a start. -/
def begin (now : ℚ) (job : Job) : Job :=
  { job with status := .running, startTime := now }

/-- A job that ends without having been reaped: killed, or never started. -/
def fail (reason : String) (now : ℚ) (job : Job) : Job :=
  { job with status := .failed, failureReason := reason, endTime := now }

/-- `_reconcile_zombies` gives the cores back. -/
def clear (now : ℚ) (job : Job) : Job :=
  { job with status := .failed, failureReason := "zombie_at_restart", endTime := now,
             cpuList := "" }

@[simp] theorem finish_status (outcome : Outcome) (now : ℚ) (job : Job) :
    (finish outcome now job).status = outcome.status := rfl

@[simp] theorem skip_status (b : String) (now : ℚ) (job : Job) :
    (skip b now job).status = .skipped := rfl

@[simp] theorem track_status (session : String) (job : Job) :
    (track session job).status = job.status := rfl

@[simp] theorem begin_status (now : ℚ) (job : Job) : (begin now job).status = .running := rfl

@[simp] theorem fail_status (reason : String) (now : ℚ) (job : Job) :
    (fail reason now job).status = .failed := rfl

@[simp] theorem clear_status (now : ℚ) (job : Job) : (clear now job).status = .failed := rfl

end Job

/-- The handles left when a job has been forgotten. -/
def forgotten (job : Job) (procs : List (ℤ × Popen)) : List (ℤ × Popen) :=
  match tracked job.session with
  | .pid digits =>
      match pyInt digits with
      | .ok pid => popProc procs pid
      | .error _ => procs
  | _ => procs

/-! ## Starting a job -/

/-- `Runner.start` came back: what it did to a state. -/
inductive Started (site : Site) (i : ℕ) (job : Job) (argv : List String) (s : Sys W) :
    Sys W → Prop
  | subprocess {workdir : String} {proc : Popen} {w₁ w₂ w₃ : W}
      (hrunner : site.config.runner ≠ "tmux") (hbefore : Later s.world w₁)
      (hpopen : Host.answer (.popen job argv workdir job.env) w₁ = .ok proc w₂)
      (hafter : Later w₂ w₃) :
      Started site i job argv s
        { s with
          jobs := s.jobs.modify i (Job.track ("pid:" ++ String.ofList (intText proc.pid)))
          procs := setProc s.procs proc
          starts := i :: s.starts
          world := w₃ }
  | tmux {commandLine : String} {rc : ℤ} {w₁ w₂ w₃ : W}
      (hrunner : site.config.runner = "tmux") (hbefore : Later s.world w₁)
      (hkill : Host.answer (.tmuxKillSession (sessionName job.id)) w₁ = .ok rc w₂)
      (hnew : Host.answer (.tmuxNewSession job (sessionName job.id) commandLine job.env) w₂ =
        .ok () w₃) :
      Started site i job argv s
        { s with
          jobs := s.jobs.modify i (Job.track ("tmux:" ++ sessionName job.id))
          starts := i :: s.starts
          world := w₃ }

/-- `Runner.start` raised before the command ran: how the world was left. -/
inductive Unstarted (site : Site) (job : Job) (argv : List String) (w : W) (e : Exc) : W → Prop
  | getcwd {w₁ : W} (hbefore : Later w w₁) : Unstarted site job argv w e w₁
  | popen {workdir : String} {w₁ w₂ : W} (hrunner : site.config.runner ≠ "tmux")
      (hbefore : Later w w₁)
      (hpopen : Host.answer (.popen job argv workdir job.env) w₁ = .error e w₂) :
      Unstarted site job argv w e w₂
  | killSession {w₁ w₂ : W} (hrunner : site.config.runner = "tmux") (hbefore : Later w w₁)
      (hkill : Host.answer (.tmuxKillSession (sessionName job.id)) w₁ = .error e w₂) :
      Unstarted site job argv w e w₂
  | newSession {commandLine : String} {rc : ℤ} {w₁ w₂ w₃ : W}
      (hrunner : site.config.runner = "tmux") (hbefore : Later w w₁)
      (hkill : Host.answer (.tmuxKillSession (sessionName job.id)) w₁ = .ok rc w₂)
      (hnew : Host.answer (.tmuxNewSession job (sessionName job.id) commandLine job.env) w₂ =
        .error e w₃) :
      Unstarted site job argv w e w₃

/-- The job at an index is about to be started on a placement, the world being `w` by
then.  With the gate its dependencies are done and admission control has let it pass. -/
structure Chosen (site : Site) (gated : Bool) (i : ℕ) (job : Job) (placement : Placement)
    (s : Sys W) (w : W) : Prop where
  found : s.jobs[i]? = some job
  pending : job.status = .pending
  deps : gated = true → depsSatisfied s.jobs job = true
  admitted : gated = true → ∃ decision w₁,
    canLaunch site.config job s.jobs s = .ok decision { s with world := w₁ } ∧
      decision.ok = true ∧ Later w₁ w
  placed : ∃ occupied, occupiedCores site s.jobs = .ok occupied ∧
    allocate job.cores occupied site.numaNodes (allocateOptions site job) = .ok (some placement)
  later : Later s.world w

/-- The state in which a chosen job is started: its placement is written. -/
def placing (s : Sys W) (i : ℕ) (placement : Placement) (w : W) : Sys W :=
  { s with jobs := s.jobs.modify i (Job.place placement), world := w }

/-! ## Moves -/

/-- What a move is about. -/
inductive Label
  | ask
  | spare (i : ℕ)
  | reap (i : ℕ)
  | skip (i : ℕ)
  | launch (i : ℕ)
  | fail (i : ℕ)
  | kill (i : ℕ)
  | clear (i : ℕ)
  | save
  deriving DecidableEq, Repr

/-- The cooldown after a job has been reaped. -/
inductive Cooled (config : Config) (outcome : Outcome) (cooldownUntil : ℚ) (w : W) : ℚ → W → Prop
  | keep (h : outcome.status = .done ∨ outcome.reason ≠ "oom_killed") :
      Cooled config outcome cooldownUntil w cooldownUntil w
  | arm {now : ℚ} {w' : W} (h : outcome.status ≠ .done ∧ outcome.reason = "oom_killed")
      (htime : Host.answer .time w = .ok now w') :
      Cooled config outcome cooldownUntil w (now + config.oomCooldownSeconds) w'

/-- One turn of one of the scheduler's loops. -/
inductive Move (site : Site) (gated : Bool) : Label → Sys W → Sys W → Prop
  | ask {s : Sys W} {w : W} (hask : Asks s.world w) :
      Move site gated .ask s { s with world := w }
  | probe {s : Sys W} {i : ℕ} {job : Job} {w : W} (hjob : s.jobs[i]? = some job)
      (hrunning : job.status = .running) (halive : isAlive job s = .ok true { s with world := w }) :
      Move site gated .ask s { s with world := w }
  | spare {s : Sys W} {i : ℕ} {job : Job} {w₁ w₂ : W} (hjob : s.jobs[i]? = some job)
      (hrunning : job.status = .running) (hdead : isAlive job s = .ok false { s with world := w₁ })
      (hscope : aliveScope site job { s with world := w₁ } = .ok true { s with world := w₂ }) :
      Move site gated (.spare i) s { s with world := w₂ }
  | reap {s : Sys W} {i : ℕ} {job : Job} {outcome : Outcome} {w₁ w₂ w₃ w₄ : W} {now cooldown : ℚ}
      (hjob : s.jobs[i]? = some job) (hrunning : job.status = .running)
      (hdead : isAlive job s = .ok false { s with world := w₁ })
      (hreap : Nodepilot.reap job { s with world := w₁ } =
        .ok outcome { s with procs := forgotten job s.procs, world := w₂ })
      (htime : Host.answer .time w₂ = .ok now w₃)
      (hcooled : Cooled site.config outcome s.cooldownUntil w₃ cooldown w₄) :
      Move site gated (.reap i) s
        { s with
          jobs := s.jobs.modify i (Job.finish outcome now)
          cooldownUntil := cooldown
          procs := forgotten job s.procs
          world := w₄ }
  | skip {s : Sys W} {i : ℕ} {job : Job} {b : String} {w : W} {now : ℚ}
      (hjob : s.jobs[i]? = some job) (hpending : job.status = .pending)
      (hblocker : blocker s.jobs job.dependsOn = some b)
      (htime : Host.answer .time s.world = .ok now w) :
      Move site gated (.skip i) s
        { s with jobs := s.jobs.modify i (Job.skip b now), world := w }
  | launch {s s₁ : Sys W} {i : ℕ} {job : Job} {placement : Placement} {argv : List String}
      {w w₂ : W} {now : ℚ} (hchosen : Chosen site gated i job placement s w)
      (hstarted : Started site i (job.place placement) argv (placing s i placement w) s₁)
      (htime : Host.answer .time s₁.world = .ok now w₂) :
      Move site gated (.launch i) s
        { s₁ with jobs := s₁.jobs.modify i (Job.begin now), world := w₂ }
  | fail {s : Sys W} {i : ℕ} {job : Job} {placement : Placement} {argv : List String} {e : Exc}
      {w w₁ w₂ : W} {now : ℚ} (hchosen : Chosen site gated i job placement s w)
      (hunstarted : Unstarted site (job.place placement) argv w e w₁)
      (htime : Host.answer .time w₁ = .ok now w₂) :
      Move site gated (.fail i) s
        { s with
          jobs := s.jobs.modify i fun j =>
            Job.fail ("launch_error: " ++ e.message) now (Job.place placement j)
          world := w₂ }
  | kill {s : Sys W} {i : ℕ} {job : Job} {procs : List (ℤ × Popen)} {w₁ w₂ : W} {now : ℚ}
      (hjob : s.jobs[i]? = some job) (hrunning : job.status = .running)
      (hkill : killJob job s = .ok () { s with procs := procs, world := w₁ })
      (htime : Host.answer .time w₁ = .ok now w₂) :
      Move site gated (.kill i) s
        { s with
          jobs := s.jobs.modify i (Job.fail "killed_by_user" now)
          procs := procs
          world := w₂ }
  | clear {s : Sys W} {i : ℕ} {job : Job} {w₁ w₂ w₃ : W} {now : ℚ}
      (hjob : s.jobs[i]? = some job) (hrunning : job.status = .running)
      (hdead : isAlive job s = .ok false { s with world := w₁ })
      (hscope : aliveScope site job { s with world := w₁ } = .ok false { s with world := w₂ })
      (htime : Host.answer .time w₂ = .ok now w₃) :
      Move site gated (.clear i) s
        { s with jobs := s.jobs.modify i (Job.clear now), world := w₃ }
  | save {s : Sys W} : Move site gated .save s { s with stateFile := some s.jobs }

/-- The moves that only find something out. -/
def Label.inAsk : Label → Bool
  | ask => true
  | _ => false

/-- The moves that neither start nor end a process. -/
def Label.looks : Label → Bool
  | launch _ | fail _ | kill _ => false
  | _ => true

/-- The moves of a reap. -/
def Label.inReap : Label → Bool
  | ask | reap _ => true
  | _ => false

/-- The moves of the passes over the dependents. -/
def Label.inSkip : Label → Bool
  | ask | skip _ => true
  | _ => false

/-- The moves of a launch pass. -/
def Label.inPass : Label → Bool
  | ask | launch _ | fail _ => true
  | _ => false

/-- The moves of a tick. -/
def Label.inTick : Label → Bool
  | ask | reap _ | skip _ | launch _ | fail _ => true
  | _ => false

/-- The moves of the search for zombies. -/
def Label.inReconcile : Label → Bool
  | ask | spare _ | clear _ => true
  | _ => false

/-- The moves of a save. -/
def Label.inSave : Label → Bool
  | ask | save => true
  | _ => false

/-- The moves of a start-up. -/
def Label.inStartUp : Label → Bool
  | ask | spare _ | clear _ | save => true
  | _ => false

/-- The moves of a kill. -/
def Label.inKill : Label → Bool
  | ask | kill _ | save => true
  | _ => false

/-- The moves of a round of the loop. -/
def Label.inRound (label : Label) : Bool :=
  label.inTick || label.inSave

/-- One move of a certain kind. -/
def Step (site : Site) (gated : Bool) (kinds : Label → Bool) (s s' : Sys W) : Prop :=
  ∃ label, kinds label = true ∧ Move site gated label s s'

theorem Step.mono {site : Site} {gated : Bool} {kinds kinds' : Label → Bool}
    (hkinds : ∀ label, kinds label = true → kinds' label = true) {s s' : Sys W}
    (h : Step site gated kinds s s') : Step site gated kinds' s s' := by
  obtain ⟨label, hlabel, hmove⟩ := h
  exact ⟨label, hkinds label hlabel, hmove⟩

/-! ## Wrecks -/

/-- What is found where a turn broke off.  Nothing is said of the memory of the process. -/
inductive Wreck (site : Site) (gated : Bool) (s s' : Sys W) : Prop
  | lost (hfile : s'.stateFile = s.stateFile) (hstarts : s'.starts = s.starts)
      (hseen : Seen s.world s'.world)
  | unstarted {i : ℕ} {job : Job} {placement : Placement} {argv : List String} {e : Exc}
      {w w₁ : W} (hchosen : Chosen site gated i job placement s w)
      (hunstarted : Unstarted site (job.place placement) argv w e w₁)
      (hfile : s'.stateFile = s.stateFile) (hstarts : s'.starts = s.starts)
      (hlater : Later w₁ s'.world)
  | started {s₁ : Sys W} {i : ℕ} {job : Job} {placement : Placement} {argv : List String}
      {w : W} (hchosen : Chosen site gated i job placement s w)
      (hstarted : Started site i (job.place placement) argv (placing s i placement w) s₁)
      (hfile : s'.stateFile = s.stateFile) (hstarts : s'.starts = s₁.starts)
      (hlater : Later s₁.world s'.world)
  | killed {i : ℕ} {job : Job} (hjob : s.jobs[i]? = some job) (hrunning : job.status = .running)
      (hfile : s'.stateFile = s.stateFile) (hstarts : s'.starts = s.starts)
      (hworld : Tended s.world s'.world)

end Nodepilot
