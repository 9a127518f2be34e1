import Nodepilot.Model.Admission
import Nodepilot.Model.Runner

/-!
# The scheduling loop

`orchestrator.py`.  Each loop over the jobs is a sweep over their indices whose
body keeps its own definition: it reads the job it is at, so that what earlier
turns did to it is seen.  Log lines are left out.
-/

namespace Nodepilot

open Obeys

variable {W : Type} [Host W]

/-! ## State persistence -/

/-- `save_state`. -/
def saveState : M W Unit := do
  let _ ← call .time
  call .writeState
  modify fun s => { s with stateFile := some s.jobs }

/-- `Orchestrator.from_queue`: the jobs of the state file if there is one, else those of
the queue; no cooldown, no handles. -/
def fromQueue (site : Site) : M W Unit := do
  modify fun s =>
    { s with jobs := s.stateFile.getD site.queue, cooldownUntil := 0, procs := [] }
  if site.config.runner = "tmux" then
    if ← call (.which "tmux") then pure ()
    else throw ⟨.runtimeError, "runner='tmux' but tmux is not on PATH"⟩

/-! ## Helpers -/

/-- The loop of `_occupied_cores`. -/
def occupiedFrom (occ : Finset ℤ) : List Job → Except Exc (Finset ℤ)
  | [] => .ok occ
  | j :: rest =>
      if j.status = .running ∧ j.cpuList ≠ "" then do
        let cores ← parseCpuList j.cpuList
        occupiedFrom (occ ∪ cores) rest
      else occupiedFrom occ rest

/-- `_occupied_cores`. -/
def occupiedCores (site : Site) (jobs : List Job) : Except Exc (Finset ℤ) :=
  occupiedFrom site.reserved jobs

/-- `by_id.get(dep)`: of several jobs with one id the dictionary keeps the last. -/
def byId (jobs : List Job) (dep : String) : Option Job :=
  jobs.reverse.find? fun j => j.id == dep

/-- `_deps_satisfied`. -/
def depsSatisfied (jobs : List Job) (job : Job) : Bool :=
  job.dependsOn.all fun dep =>
    match byId jobs dep with
    | none => false
    | some upstream => upstream.status == .done

/-- `_is_drained`. -/
def isDrained (jobs : List Job) : Bool :=
  !jobs.any fun j => j.status == .pending || j.status == .running

/-! ## Reaping -/

/-- The body of the loop of `_reap_finished`. -/
def reapJob (site : Site) (i : ℕ) : M W Bool := do
  let s ← get
  match s.jobs[i]? with
  | none => pure false
  | some job =>
      if job.status ≠ .running then pure false
      else if ← isAlive job then pure false
      else
        let outcome ← reap job
        setJob i fun j =>
          { j with status := outcome.status, failureReason := outcome.reason,
                   exitCode := outcome.exitCode }
        let now ← call .time
        setJob i fun j => { j with endTime := now }
        if outcome.status ≠ .done ∧ outcome.reason = "oom_killed" then
          triggerOomCooldown site.config
        pure true

/-- `_reap_finished`. -/
def reapFinished (site : Site) : M W Bool := do
  let s ← get
  sweep (reapJob site) (List.range s.jobs.length)

/-! ## Dead dependents -/

/-- The loop over the dependencies in `_mark_dead_dependents`. -/
def blocker (jobs : List Job) : List String → Option String
  | [] => none
  | dep :: rest =>
      match byId jobs dep with
      | none => some (dep ++ " (unknown)")
      | some upstream => if upstream.status.dead then some dep else blocker jobs rest

/-- The body of the loop over the jobs in `_mark_dead_dependents`. -/
def markJob (i : ℕ) : M W Bool := do
  let s ← get
  match s.jobs[i]? with
  | none => pure false
  | some job =>
      if job.status ≠ .pending then pure false
      else
        match blocker s.jobs job.dependsOn with
        | none => pure false
        | some blocker =>
            setJob i fun j =>
              { j with status := .skipped, failureReason := "dependency_failed: " ++ blocker }
            let now ← call .time
            setJob i fun j => { j with endTime := now }
            pure true

/-- `while True` of `_mark_dead_dependents`; the first argument bounds the passes. -/
def markPasses : ℕ → M W Bool
  | 0 => pure false
  | fuel + 1 => do
      let s ← get
      if ← sweep markJob (List.range s.jobs.length) then
        let _ ← markPasses fuel
        pure true
      else pure false

/-- `_mark_dead_dependents`: every pass but the last skips a job. -/
def markDeadDependents : M W Bool := do
  let s ← get
  markPasses (s.jobs.length + 1)

/-! ## Pins -/

/-- The body of the loop of `_enforce_pins`. -/
def enforceJob (i : ℕ) : M W Bool := do
  let s ← get
  match s.jobs[i]? with
  | none => pure false
  | some job =>
      if job.status = .running ∧ job.cpuList ≠ "" then
        tryExcept (enforcePin job) ExcClass.isOSError fun _ => pure false
      else pure false

/-- `_enforce_pins`. -/
def enforcePins : M W Unit := do
  let s ← get
  let _ ← sweep enforceJob (List.range s.jobs.length)

/-! ## Launching -/

/-- The options `_launch` calls `allocate` with. -/
def allocateOptions (site : Site) (job : Job) : AllocateOptions :=
  { ramGb := job.ramGb
    interleaveThresholdGb := site.config.interleaveThresholdGb
    smtSecondary := site.smtSecondary }

/-- The job with its placement written into it. -/
def Job.place (placement : Placement) (job : Job) : Job :=
  { job with cpuList := placement.cpuList, numaNode := placement.node }

/-- `_launch` of the job at an index. -/
def launch (site : Site) (i : ℕ) : M W Bool := do
  let s ← get
  match s.jobs[i]? with
  | none => pure false
  | some job =>
      let occupied ← liftExcept (occupiedCores site s.jobs)
      match ← liftExcept
          (allocate job.cores occupied site.numaNodes (allocateOptions site job)) with
      | none => pure false
      | some placement =>
          setJob i (Job.place placement)
          let argv ← buildCommand site (job.place placement) placement
          let failure ← tryExcept
            (do
              start site i (job.place placement) argv
              pure none)
            (fun cls => cls.isOSError || cls == .runtimeError)
            fun e => pure (some e)
          match failure with
          | some e =>
              setJob i fun j =>
                { j with status := .failed, failureReason := "launch_error: " ++ e.message }
              let now ← call .time
              setJob i fun j => { j with endTime := now }
              pure true
          | none =>
              setJob i fun j => { j with status := .running }
              let now ← call .time
              setJob i fun j => { j with startTime := now }
              pure true

/-- `sorted` of the pending jobs by `(priority, id)`, as indices. -/
def pendingOrder (jobs : List Job) : List ℕ :=
  ((jobs.zipIdx.filter fun entry => entry.1.status == .pending).insertionSort fun a b =>
    a.1.priority < b.1.priority ∨ (a.1.priority = b.1.priority ∧ a.1.id ≤ b.1.id)).map Prod.snd

/-- The body of the loop of `_launch_pending`. -/
def launchCandidate (site : Site) (i : ℕ) : M W Bool := do
  let s ← get
  match s.jobs[i]? with
  | none => pure false
  | some job =>
      if depsSatisfied s.jobs job then
        let decision ← canLaunch site.config job s.jobs
        if decision.ok then launch site i else pure false
      else pure false

/-- `_launch_pending`. -/
def launchPending (site : Site) : M W Bool := do
  let s ← get
  sweep (launchCandidate site) (pendingOrder s.jobs)

/-! ## The loop -/

/-- `_tick`. -/
def tick (site : Site) : M W Bool := do
  let reaped ← reapFinished site
  let marked ← markDeadDependents
  enforcePins
  let launched ← launchPending site
  pure (reaped || marked || launched)

/-- `alive_scope` of `_reconcile_zombies`. -/
def aliveScope (site : Site) (job : Job) : M W Bool :=
  if site.config.memorySlice = "" then pure false
  else scopeIsActive site job.id site.config.memorySlice

/-- The body of the loop of `_reconcile_zombies`. -/
def reconcileJob (site : Site) (i : ℕ) : M W Bool := do
  let s ← get
  match s.jobs[i]? with
  | none => pure false
  | some job =>
      if job.status ≠ .running then pure false
      else
        let proc ← isAlive job
        let scope ← aliveScope site job
        if !proc && !scope then
          setJob i fun j => { j with status := .failed, failureReason := "zombie_at_restart" }
          let now ← call .time
          setJob i fun j => { j with endTime := now, cpuList := "" }
          pure true
        else pure false

/-- `_reconcile_zombies`. -/
def reconcileZombies (site : Site) : M W Unit := do
  let s ← get
  if ← sweep (reconcileJob site) (List.range s.jobs.length) then saveState

/-- One turn of the loop of `run`: a tick, saved if it changed something. -/
def round (site : Site) : M W Unit := do
  if ← tick site then saveState

/-- `while True` of `run` from a given tick number on, at most `fuel` rounds of it: whether
one of its two exits was reached. -/
def runLoop (site : Site) (maxTicks : Option ℕ) : ℕ → ℕ → M W Bool
  | _, 0 => pure false
  | tick, fuel + 1 => do
      round site
      let s ← get
      if isDrained s.jobs then pure true
      else if maxTicks.any (· ≤ tick) then pure true
      else
        call (.sleep site.config.pollInterval)
        runLoop site maxTicks (tick + 1) fuel

/-- What `run` does before its loop. -/
def startUp (site : Site) : M W Unit := do
  let _ ← setSelfOomScoreAdj site.config.orchestratorOomScoreAdj
  reconcileZombies site

/-- `run`. -/
def run (site : Site) (maxTicks : Option ℕ) (fuel : ℕ) : M W Bool := do
  startUp site
  runLoop site maxTicks 1 fuel

/-! ## Killing -/

/-- The job `kill` picks: the first running one with the id. -/
def killTarget (jobs : List Job) (jobId : String) : Option ℕ :=
  jobs.findIdx? fun j => j.id == jobId && j.status == .running

/-- What `kill` writes into the job. -/
def markKilled (i : ℕ) : M W Unit := do
  setJob i fun j => { j with status := .failed, failureReason := "killed_by_user" }
  let now ← call .time
  setJob i fun j => { j with endTime := now }

/-- `kill`. -/
def kill (jobId : String) : M W Bool := do
  let s ← get
  match killTarget s.jobs jobId with
  | none => pure false
  | some i =>
      match s.jobs[i]? with
      | none => pure false
      | some job =>
          killJob job
          markKilled i
          saveState
          pure true

end Nodepilot
