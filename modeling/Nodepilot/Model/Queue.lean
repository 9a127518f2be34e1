import Nodepilot.Model.Job
import Nodepilot.Model.Values

/-!
# Queue files

`load_queue` of `config.py`, from the value `yaml.safe_load` returns.  No field of
a job or a config is checked against its annotation, so that a record holds
whatever value the queue declares.
-/

namespace Nodepilot

open Trees

/-! ## Fields -/

/-- The fields of `Job`. -/
inductive JobField
  | id
  | command
  | cores
  | ramGb
  | maxcore
  | nprocs
  | dependsOn
  | priority
  | exclusive
  | workdir
  | env
  | status
  | session
  | cpuList
  | numaNode
  | startTime
  | endTime
  | failureReason
  | exitCode
  | metadata
  deriving DecidableEq

namespace JobField

/-- `fields(Job)`. -/
def all : List JobField :=
  [id, command, cores, ramGb, maxcore, nprocs, dependsOn, priority, exclusive, workdir, env,
    status, session, cpuList, numaNode, startTime, endTime, failureReason, exitCode, metadata]

def name : JobField → String
  | id => "id"
  | command => "command"
  | cores => "cores"
  | ramGb => "ram_gb"
  | maxcore => "maxcore"
  | nprocs => "nprocs"
  | dependsOn => "depends_on"
  | priority => "priority"
  | exclusive => "exclusive"
  | workdir => "workdir"
  | env => "env"
  | status => "status"
  | session => "session"
  | cpuList => "cpu_list"
  | numaNode => "numa_node"
  | startTime => "start_time"
  | endTime => "end_time"
  | failureReason => "failure_reason"
  | exitCode => "exit_code"
  | metadata => "metadata"

/-- The default of a field.  `id` and `command` have none: the constructor is called with both. -/
def default : JobField → Value
  | id => .leaf .none
  | command => .leaf .none
  | cores => .leaf (.int 1)
  | ramGb => .leaf (.float (.finite 4))
  | maxcore => .leaf (.int 0)
  | nprocs => .leaf (.int 0)
  | dependsOn => .list []
  | priority => .leaf (.int 100)
  | exclusive => .leaf (.bool false)
  | workdir => .leaf (.str "")
  | env => .dict []
  | status => .leaf (.str "pending")
  | session => .leaf (.str "")
  | cpuList => .leaf (.str "")
  | numaNode => .leaf (.int (-1))
  | startTime => .leaf (.float (.finite 0))
  | endTime => .leaf (.float (.finite 0))
  | failureReason => .leaf (.str "")
  | exitCode => .leaf .none
  | metadata => .dict []

theorem mem_all (field : JobField) : field ∈ all := by
  cases field <;> decide

theorem nodup_names : (all.map name).Nodup := by
  decide

theorem name_injective {f g : JobField} (h : f.name = g.name) : f = g :=
  List.inj_on_of_nodup_map nodup_names (mem_all f) (mem_all g) h

end JobField

/-- A `Job` with whatever its fields hold. -/
structure JobRecord where
  get : JobField → Value

/-- The fields of `Config`. -/
inductive ConfigField
  | maxConcurrent
  | ramBudgetGb
  | coreBudget
  | ramSafetyGb
  | numaNodes
  | reservedCores
  | interleaveThresholdGb
  | memorySlice
  | orchestratorOomScoreAdj
  | jobOomScoreAdj
  | oomCooldownSeconds
  | runner
  | pollInterval
  | statePath
  | logPath
  | pauseFile
  deriving DecidableEq

namespace ConfigField

/-- `fields(Config)`. -/
def all : List ConfigField :=
  [maxConcurrent, ramBudgetGb, coreBudget, ramSafetyGb, numaNodes, reservedCores,
    interleaveThresholdGb, memorySlice, orchestratorOomScoreAdj, jobOomScoreAdj,
    oomCooldownSeconds, runner, pollInterval, statePath, logPath, pauseFile]

def name : ConfigField → String
  | maxConcurrent => "max_concurrent"
  | ramBudgetGb => "ram_budget_gb"
  | coreBudget => "core_budget"
  | ramSafetyGb => "ram_safety_gb"
  | numaNodes => "numa_nodes"
  | reservedCores => "reserved_cores"
  | interleaveThresholdGb => "interleave_threshold_gb"
  | memorySlice => "memory_slice"
  | orchestratorOomScoreAdj => "orchestrator_oom_score_adj"
  | jobOomScoreAdj => "job_oom_score_adj"
  | oomCooldownSeconds => "oom_cooldown_seconds"
  | runner => "runner"
  | pollInterval => "poll_interval"
  | statePath => "state_path"
  | logPath => "log_path"
  | pauseFile => "pause_file"

def default : ConfigField → Value
  | maxConcurrent => .leaf (.int 4)
  | ramBudgetGb => .leaf (.float (.finite 0))
  | coreBudget => .leaf (.int 0)
  | ramSafetyGb => .leaf (.float (.finite 20))
  | numaNodes => .dict []
  | reservedCores => .leaf (.str "")
  | interleaveThresholdGb => .leaf (.float (.finite 0))
  | memorySlice => .leaf (.str "nodepilot.slice")
  | orchestratorOomScoreAdj => .leaf (.int (-800))
  | jobOomScoreAdj => .leaf (.int 500)
  | oomCooldownSeconds => .leaf (.int 300)
  | runner => .leaf (.str "subprocess")
  | pollInterval => .leaf (.int 10)
  | statePath => .leaf (.str "nodepilot_state.json")
  | logPath => .leaf (.str "nodepilot.log")
  | pauseFile => .leaf (.str ".nodepilot.pause")

end ConfigField

/-- A `Config` with whatever its fields hold. -/
structure ConfigRecord where
  get : ConfigField → Value

/-- What the budgets left at zero are filled in from. -/
structure HostSize where
  /-- `_host_physical_cores()`. -/
  physicalCores : ℕ
  /-- `round(_host_total_ram_gb() * 0.85, 1)`. -/
  ramBudgetGb : ℚ

/-! ## Loading -/

section Loading

variable (py : Interpreter) (host : HostSize)

/-- `_job_from_dict`. -/
def jobFromDict (data : Value) : Except Exc JobRecord := do
  let items ← data.items
  let filtered := keepKnown (JobField.all.map JobField.name) items
  if (getKey "id" filtered).isNone || (getKey "command" filtered).isNone then
    throw (valueError
      ("job entry missing required 'id' and/or 'command': " ++ py.valueRepr data))
  pure ⟨fun field => (getKey field.name filtered).getD field.default⟩

/-- `Config.__post_init__`. -/
def ConfigRecord.postInit (config : ConfigRecord) : Except Exc ConfigRecord := do
  let coreBudget ←
    if ← (config.get .coreBudget).nonpositive then pure (.leaf (.int host.physicalCores))
    else pure (config.get .coreBudget)
  let ramBudgetGb ←
    if ← (config.get .ramBudgetGb).nonpositive then pure (.leaf (.float (.finite host.ramBudgetGb)))
    else pure (config.get .ramBudgetGb)
  pure ⟨fun
    | .coreBudget => coreBudget
    | .ramBudgetGb => ramBudgetGb
    | field => config.get field⟩

/-- `_config_from_global`. -/
def configFromGlobal (block : Option Value) : Except Exc ConfigRecord := do
  let block := block.getD (.leaf .none)
  let items ← if block.truthy then block.items else pure []
  let filtered := keepKnown (ConfigField.all.map ConfigField.name) items
  ConfigRecord.postInit host ⟨fun field => (getKey field.name filtered).getD field.default⟩

/-- The loop of `_validate_unique_ids`, with the ids it has seen. -/
def validateUniqueIdsFrom (seen : List Scalar) : List JobRecord → Except Exc Unit
  | [] => pure ()
  | job :: rest => do
      let id ← (job.get .id).hashable
      if seen.contains id.canonical then
        throw (valueError ("duplicate job id in queue: " ++ py.valueRepr (job.get .id)))
      validateUniqueIdsFrom (id.canonical :: seen) rest

/-- `_validate_unique_ids`. -/
def validateUniqueIds (jobs : List JobRecord) : Except Exc Unit :=
  validateUniqueIdsFrom py [] jobs

/-- `load_queue`, from the document on. -/
def loadQueue (doc : Value) : Except Exc (ConfigRecord × List JobRecord) := do
  let doc := if doc.truthy then doc else .dict []
  let (config, jobsRaw) ←
    match doc with
    | .list items => do pure (← configFromGlobal host none, items)
    | .dict items => do
        let config ← configFromGlobal host (getKey "global" items)
        match (getKey "jobs" items).getD (.list []) with
        | .list jobsRaw => pure (config, jobsRaw)
        | _ => throw (valueError "'jobs' must be a list")
    | v => throw (valueError ("queue must be a mapping or a list, got " ++ v.typeName))
  let jobs ← jobsRaw.mapM (jobFromDict py)
  validateUniqueIds py jobs
  pure (config, jobs)

end Loading

/-! ## Runtime fields -/

/-- An assignment to a field of a job that the orchestrator makes. -/
inductive Assignment
  | status (state : JobStatus)
  | session (name : PyStr)
  | cpuList (cpus : String)
  | numaNode (node : ℤ)
  | startTime (now : ℚ)
  | endTime (now : ℚ)
  | failureReason (reason : PyStr)
  | exitCode (rc : Option ℤ)

namespace JobStatus

/-- The constant a status is. -/
def text : JobStatus → String
  | pending => "pending"
  | running => "running"
  | done => "done"
  | failed => "failed"
  | skipped => "skipped"
  | dormant => "dormant"

end JobStatus

namespace Assignment

def field : Assignment → JobField
  | status _ => .status
  | session _ => .session
  | cpuList _ => .cpuList
  | numaNode _ => .numaNode
  | startTime _ => .startTime
  | endTime _ => .endTime
  | failureReason _ => .failureReason
  | exitCode _ => .exitCode

def value : Assignment → Scalar
  | status state => .str state.text
  | session name => name.scalar
  | cpuList cpus => .str cpus
  | numaNode node => .int node
  | startTime now => .float (.finite now)
  | endTime now => .float (.finite now)
  | failureReason reason => reason.scalar
  | exitCode rc => rc.elim .none .int

end Assignment

/-- A job after an assignment. -/
def JobRecord.set (job : JobRecord) (a : Assignment) : JobRecord where
  get := Function.update job.get a.field (.leaf a.value)

end Nodepilot
