import Nodepilot.Model.Cgroups

/-!
# Admission control

`admission.py`: whether a pending job may start now.  The checks run in the order
of the source and stop at the first that fails; the reason is its text.
-/

namespace Nodepilot

variable {W : Type} [Host W]

/-- `Decision`. -/
structure Decision where
  ok : Bool
  reason : String
  deriving DecidableEq, Repr

/-- `[j for j in jobs if j.status == JobStatus.RUNNING]`. -/
def running (jobs : List Job) : List Job :=
  jobs.filter fun j => j.status == .running

/-- `running_cores`. -/
def runningCores (jobs : List Job) : ℤ :=
  ((running jobs).map Job.cores).sum

/-- `running_ram_gb`. -/
def runningRamGb (jobs : List Job) : ℚ :=
  ((running jobs).map Job.ramGb).sum

/-- `needed_gb` of `maxcore_sane`. -/
def neededGb (job : Job) (factor : ℚ := 13 / 10) : ℚ :=
  job.maxcore * job.effectiveNprocs * factor / 1024

/-- `maxcore_sane`. -/
def maxcoreSane (job : Job) (factor : ℚ := 13 / 10) : Bool :=
  if job.maxcore ≤ 0 then true else decide (neededGb job factor ≤ job.ramGb)

/-- The loop of `_free_ram_gb` and of `_host_total_ram_gb` over the lines of `/proc/meminfo`: the
amount on the first one with the label. -/
def firstGb (label : String) : List (List Char) → Except Exc (Option ℚ)
  | [] => .ok none
  | line :: rest =>
      if label.toList.isPrefixOf line then
        match (Text.words line)[1]? with
        | none => .error ⟨.indexError, "list index out of range"⟩
        | some word => do
            let kb ← pyInt word
            .ok (some (kb / (1024 * 1024)))
      else firstGb label rest

/-- `_free_ram_gb`. -/
def freeRamGb : M W (Option ℚ) :=
  tryExcept
    (do
      let text ← call (.readText "/proc/meminfo")
      liftExcept (firstGb "MemAvailable:" (text.toList.splitOn '\n')))
    (fun cls => cls.isOSError || cls == .valueError)
    fun _ => pure none

/-! ## The cooldown -/

/-- `trigger_oom_cooldown`. -/
def triggerOomCooldown (config : Config) : M W Unit := do
  let now ← call .time
  modify fun s => { s with cooldownUntil := now + config.oomCooldownSeconds }

/-- `in_cooldown`: the seconds left. -/
def inCooldown : M W ℚ := do
  let now ← call .time
  let s ← get
  pure (max 0 (s.cooldownUntil - now))

/-! ## The decision -/

def rejected (reason : String) : Decision :=
  ⟨false, reason⟩

/-- The live branch of `_check_ram`. -/
def checkSliceRam (config : Config) (job : Job) (used cap : ℚ) : Decision :=
  let safeCap := cap - config.ramSafetyGb
  if safeCap < used + job.ramGb then
    rejected ("slice RAM: " ++ formatFixed 0 used ++ "GB used + " ++ formatGeneral job.ramGb ++
      "GB > " ++ formatFixed 0 safeCap ++ "GB safe cap (hard " ++ formatFixed 0 cap ++ "GB)")
  else ⟨true, "ok"⟩

/-- The defence in depth of `_check_ram`. -/
def checkFreeRam (config : Config) (job : Job) (freeNow : Option ℚ) : Decision :=
  match freeNow with
  | none => ⟨true, "ok"⟩
  | some free =>
      if free < job.ramGb + config.ramSafetyGb then
        rejected ("live RAM tight: " ++ formatFixed 0 free ++ "GB free, need " ++
          formatGeneral job.ramGb ++ "+" ++ formatGeneral config.ramSafetyGb ++ "GB")
      else ⟨true, "ok"⟩

/-- `_slice_used_gb`. -/
def sliceUsedGb (config : Config) : M W (Option ℚ) :=
  if config.memorySlice = "" then pure none else usedGb config.memorySlice

/-- `_slice_cap_gb`. -/
def sliceCapGb (config : Config) : M W (Option ℚ) :=
  if config.memorySlice = "" then pure none else maxGb config.memorySlice

/-- `_check_ram`. -/
def checkRam (config : Config) (job : Job) (running : List Job) : M W Decision := do
  match ← sliceUsedGb config with
  | some used =>
      let cap ← sliceCapGb config
      pure (checkSliceRam config job used (cap.getD config.ramBudgetGb))
  | none =>
      let declared := (running.map Job.ramGb).sum
      if config.ramBudgetGb < declared + job.ramGb then
        pure (rejected ("declared RAM: need " ++ formatGeneral job.ramGb ++ "GB, " ++
          formatFixed 0 (config.ramBudgetGb - declared) ++ "GB of " ++
          formatFixed 0 config.ramBudgetGb ++ "GB free"))
      else
        let freeNow ← freeRamGb
        pure (checkFreeRam config job freeNow)

/-- The pause sentinel of `can_launch`. -/
def paused (config : Config) : M W Bool :=
  if config.pauseFile = "" then pure false else call (.pathExists config.pauseFile)

/-- The checks of `can_launch` that only count: mutex, concurrency cap, core budget.
`none` where all pass. -/
def checkCounts (config : Config) (job : Job) (running : List Job) : Option Decision :=
  match running.find? Job.exclusive with
  | some owner => some (rejected ("exclusive job running (" ++ owner.id ++ ")"))
  | none =>
      if job.exclusive && !running.isEmpty then
        some (rejected "job is exclusive but others are running")
      else if config.maxConcurrent ≤ running.length then
        some (rejected ("concurrency cap reached (" ++ toString running.length ++ "/" ++
          String.ofList (intText config.maxConcurrent) ++ ")"))
      else if config.coreBudget < (running.map Job.cores).sum + job.cores then
        some (rejected ("core budget: need " ++ String.ofList (intText job.cores) ++ ", " ++
          String.ofList (intText (config.coreBudget - (running.map Job.cores).sum)) ++
          " free of " ++ String.ofList (intText config.coreBudget)))
      else none

/-- The last check of `can_launch`, which never blocks. -/
def advise (job : Job) : Decision :=
  if maxcoreSane job then ⟨true, "ok"⟩
  else ⟨true, "ok (warning: ram_gb=" ++ formatGeneral job.ramGb ++ " < maxcore*nprocs*1.3 = " ++
    formatFixed 1 (neededGb job) ++ "GB)"⟩

/-- `can_launch`. -/
def canLaunch (config : Config) (job : Job) (jobs : List Job) : M W Decision := do
  if ← paused config then
    pure (rejected ("paused (" ++ config.pauseFile ++ " present)"))
  else
    let remaining ← inCooldown
    if 0 < remaining then
      pure (rejected ("OOM cooldown (" ++ String.ofList (intText ⌊remaining⌋) ++ "s remaining)"))
    else
      match checkCounts config job (running jobs) with
      | some decision => pure decision
      | none =>
          let ramDecision ← checkRam config job (running jobs)
          if !ramDecision.ok then pure ramDecision else pure (advise job)

end Nodepilot
