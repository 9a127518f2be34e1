import Nodepilot.Model.Python

/-!
# Jobs and tunables

The data classes of `config.py`.  A `Job` keeps its declaration and its runtime
fields in one record, as the source does; `metadata`, which no other module
reads, is left out.  A `Config` keeps the tunables the scheduler reads.
-/

namespace Nodepilot

/-- `JobStatus`: the values a job's `status` may hold. -/
inductive JobStatus
  | pending
  | running
  | done
  | failed
  | skipped
  | dormant
  deriving DecidableEq, Repr

namespace JobStatus

/-- `JobStatus.TERMINAL`. -/
def terminal (status : JobStatus) : Bool :=
  status == done || status == failed || status == skipped

/-- The statuses that doom a dependent: `(FAILED, SKIPPED)` of `_mark_dead_dependents`. -/
def dead (status : JobStatus) : Bool :=
  status == failed || status == skipped

end JobStatus

/-- A unit of work. -/
structure Job where
  id : String
  command : String
  cores : ℤ := 1
  ramGb : ℚ := 4
  maxcore : ℤ := 0
  nprocs : ℤ := 0
  dependsOn : List String := []
  priority : ℤ := 100
  exclusive : Bool := false
  workdir : String := ""
  env : List (String × String) := []
  status : JobStatus := .pending
  session : String := ""
  cpuList : String := ""
  numaNode : ℤ := -1
  startTime : ℚ := 0
  endTime : ℚ := 0
  failureReason : String := ""
  exitCode : Option ℤ := none
  deriving DecidableEq

namespace Job

/-- `effective_nprocs`. -/
def effectiveNprocs (job : Job) : ℤ :=
  if 0 < job.nprocs then job.nprocs else job.cores

/-- `runtime_hours`. -/
def runtimeHours (job : Job) : ℚ :=
  if job.startTime ≠ 0 ∧ job.endTime ≠ 0 then (job.endTime - job.startTime) / 3600 else 0

/-- The runtime fields as the constructor leaves them. -/
def freshRuntime (job : Job) : Prop :=
  job.session = "" ∧ job.cpuList = "" ∧ job.numaNode = -1 ∧ job.startTime = 0 ∧
    job.endTime = 0 ∧ job.failureReason = "" ∧ job.exitCode = none

instance (job : Job) : Decidable job.freshRuntime := by
  unfold freshRuntime
  infer_instance

end Job

/-- The global tunables, budgets resolved. -/
structure Config where
  maxConcurrent : ℤ := 4
  ramBudgetGb : ℚ
  coreBudget : ℤ
  ramSafetyGb : ℚ := 20
  reservedCores : String := ""
  interleaveThresholdGb : ℚ := 0
  memorySlice : String := "nodepilot.slice"
  orchestratorOomScoreAdj : ℤ := -800
  jobOomScoreAdj : ℤ := 500
  oomCooldownSeconds : ℚ := 300
  runner : String := "subprocess"
  pollInterval : ℚ := 10
  statePath : String := "nodepilot_state.json"
  pauseFile : String := ".nodepilot.pause"

end Nodepilot
