import Nodepilot.Model.Allocate
import Nodepilot.Model.Cgroups

/-!
# Execution backends

`runner.py`: how a job's command is assembled and started, how its process or
session is probed, killed and reaped, and how processes that left their cores are
pinned again.  `job.session` is the text the source keeps in it, read back by
`tracked`.
-/

namespace Nodepilot

variable {W : Type} [Host W]

/-! ## The command -/

/-- `has_numactl`. -/
def hasNumactl : M W Bool :=
  call (.which "numactl")

/-- `placement_prefix`. -/
def placementPrefix (placement : Placement) : M W (List String) := do
  if placement.cpuList = "" then pure []
  else if ← hasNumactl then
    let mem :=
      if placement.interleave then "--interleave=all"
      else "--membind=" ++ String.ofList (intText placement.node)
    pure ["numactl", "--physcpubind=" ++ placement.cpuList, mem]
  else if ← call (.which "taskset") then pure ["taskset", "-c", placement.cpuList]
  else pure []

/-- `build_command`. -/
def buildCommand (site : Site) (job : Job) (placement : Placement) : M W (List String) := do
  let placed := (← placementPrefix placement) ++ ["bash", "-lc", job.command]
  if site.config.memorySlice = "" then pure placed
  else if ← systemdRunAvailable then
    pure (wrapScopeCommand site placed job.id job.ramGb site.config.memorySlice)
  else pure placed

/-- `shlex.quote`. -/
def shellQuote (text : String) : String :=
  let safe (c : Char) : Bool := c.isAlphanum || "_@%+=:,./-".toList.contains c
  if text = "" then "''"
  else if text.toList.all safe then text
  else "'" ++ String.ofList (text.toList.flatMap fun c =>
    if c = '\'' then "'\"'\"'".toList else [c]) ++ "'"

/-! ## Launching -/

/-- What `job.session` says the job is tracked by. -/
inductive Tracked
  | tmux (name : String)
  | pid (digits : List Char)
  | nothing
  deriving DecidableEq

/-- The `startswith` tests on `job.session`, with the rest of the text. -/
def tracked (session : String) : Tracked :=
  if "tmux:".toList.isPrefixOf session.toList then .tmux (String.ofList (session.toList.drop 5))
  else if "pid:".toList.isPrefixOf session.toList then .pid (session.toList.drop 4)
  else .nothing

/-- `self._procs[pid] = proc`. -/
def setProc (procs : List (ℤ × Popen)) (proc : Popen) : List (ℤ × Popen) :=
  (proc.pid, proc) :: procs.filter fun entry => entry.1 != proc.pid

/-- `self._procs.pop(pid, None)`. -/
def popProc (procs : List (ℤ × Popen)) (pid : ℤ) : List (ℤ × Popen) :=
  procs.filter fun entry => entry.1 != pid

/-- The log takes note that the command of a job has been started. -/
def noteStart (i : ℕ) : M W Unit :=
  modify fun s => { s with starts := i :: s.starts }

/-- `_start_subprocess`. -/
def startSubprocess (site : Site) (i : ℕ) (job : Job) (argv : List String) (workdir : String) :
    M W Unit := do
  let proc ← call (.popen job argv workdir job.env)
  noteStart i
  setJob i fun j => { j with session := "pid:" ++ String.ofList (intText proc.pid) }
  modify fun s => { s with procs := setProc s.procs proc }
  let _ ← setOomScoreAdj proc.pid site.config.jobOomScoreAdj

/-- The session name of a job. -/
def sessionName (jobId : String) : String :=
  "nodepilot_" ++ jobId

/-- `_start_tmux`. -/
def startTmux (i : ℕ) (job : Job) (argv : List String) (workdir : String) : M W Unit := do
  -- a stale session of the same name goes first, whatever the answer
  let _ ← call (.tmuxKillSession (sessionName job.id))
  let commandLine := "cd " ++ shellQuote workdir ++ " && exec " ++
    " ".intercalate (argv.map shellQuote)
  call (.tmuxNewSession job (sessionName job.id) commandLine job.env)
  noteStart i
  setJob i fun j => { j with session := "tmux:" ++ sessionName job.id }

/-- `job.workdir or os.getcwd()`. -/
def workdirOf (job : Job) : M W String :=
  if job.workdir ≠ "" then pure job.workdir else call .getcwd

/-- `Runner.start` of the job at an index. -/
def start (site : Site) (i : ℕ) (job : Job) (argv : List String) : M W Unit := do
  let workdir ← workdirOf job
  if site.config.runner = "tmux" then startTmux i job argv workdir
  else startSubprocess site i job argv workdir

/-! ## Liveness -/

/-- The signal-0 probe of `_pid_alive`: an answer, or nothing if the process may be
looked at. -/
def probe (pid : ℤ) : M W (Option Bool) :=
  tryExcept
    (do
      call (.kill0 pid)
      pure none)
    (fun cls => cls == .processLookupError || cls == .permissionError)
    fun e => pure (some (e.cls == .permissionError))

/-- Whether the third field of a stat text is not `Z`; a text without one counts as alive. -/
def statAlive (text : String) : Bool :=
  match (Text.words text.toList)[2]? with
  | some state => state != ['Z']
  | none => true

/-- `_pid_alive`. -/
def pidAlive (pid : ℤ) : M W Bool := do
  match ← probe pid with
  | some answer => pure answer
  | none =>
      tryExcept
        (do
          let text ← call (.procStat (String.ofList (intText pid)))
          pure (statAlive text))
        ExcClass.isOSError
        fun _ => pure true

/-- `_tmux_alive`. -/
def tmuxAlive (session : String) : M W Bool := do
  if ← call (.which "tmux") then
    let returncode ← call (.tmuxHasSession session)
    pure (returncode == 0)
  else pure false

/-- `Runner.is_alive`. -/
def isAlive (job : Job) : M W Bool :=
  match tracked job.session with
  | .tmux name => tmuxAlive name
  | .pid digits => do
      let pid ← liftExcept (pyInt digits)
      let s ← get
      match s.procs.lookup pid with
      | some proc =>
          let rc ← call (.poll proc)
          pure rc.isNone
      | none => pidAlive pid
  | .nothing => pure false

/-! ## Outcomes -/

/-- `Outcome`. -/
structure Outcome where
  status : JobStatus
  reason : String
  exitCode : Option ℤ
  deriving DecidableEq, Repr

/-- `Runner._forget`. -/
def forget (job : Job) : M W Unit :=
  match tracked job.session with
  | .pid digits => do
      let pid ← liftExcept (pyInt digits)
      modify fun s => { s with procs := popProc s.procs pid }
  | _ => pure ()

/-- Signal deaths as the shell reports them. -/
def normalise (rc : ℤ) : ℤ :=
  if 0 ≤ rc then rc else 128 - rc

/-- `Runner.returncode`. -/
def returncode (job : Job) : M W (Option ℤ) :=
  match tracked job.session with
  | .pid digits => do
      let pid ← liftExcept (pyInt digits)
      let s ← get
      match s.procs.lookup pid with
      | none => pure none
      | some proc =>
          let rc ← call (.poll proc)
          pure (rc.map normalise)
  | _ => pure none

/-- The classification of `reap`, with the kernel log's hint where it is consulted. -/
def classify (exitCode : Option ℤ) (oomHint : Bool) : Outcome :=
  match exitCode with
  | none => if oomHint then ⟨.failed, "oom_killed", none⟩ else ⟨.done, "", none⟩
  | some code =>
      if code = 137 then ⟨.failed, if oomHint then "oom_killed" else "killed_signal", some code⟩
      else if code = 0 then ⟨.done, "", some 0⟩
      else if 128 < code then
        ⟨.failed, "signal_" ++ String.ofList (intText (code - 128)), some code⟩
      else ⟨.failed, "exit_" ++ String.ofList (intText code), some code⟩

/-- `reap`. -/
def reap (job : Job) : M W Outcome := do
  let exitCode ← returncode job
  forget job
  if exitCode = some 137 ∨ exitCode = none then
    let oomHint ← journalReportsOom 5
    pure (classify exitCode oomHint)
  else pure (classify exitCode false)

/-! ## Killing -/

/-- The signal of `Runner.kill`; a process that is gone or not ours is passed over. -/
def signalGroup (pid : ℤ) : M W Unit :=
  tryExcept
    (do
      let pgid ← call (.getpgid pid)
      call (.killpg pgid))
    (fun cls => cls == .processLookupError || cls == .permissionError)
    fun _ => pure ()

/-- `Runner.kill`. -/
def killJob (job : Job) : M W Unit :=
  match tracked job.session with
  | .tmux name => do
      let _ ← call (.tmuxKillSession name)
  | .pid digits => do
      let pid ← liftExcept (pyInt digits)
      signalGroup pid
      let s ← get
      match s.procs.lookup pid with
      | none => pure ()
      | some proc =>
          -- the child is waited for, so that it does not stay behind as a zombie
          tryExcept (do let _ ← call (.wait proc))
            (fun cls => cls == .timeoutExpired || cls.isOSError) fun _ => pure ()
          modify fun s => { s with procs := popProc s.procs pid }
  | .nothing => pure ()

/-! ## Pins -/

/-- `str.isdigit` of a name or a word. -/
def isdigit (text : List Char) : Bool :=
  !text.isEmpty && text.all Char.isDigit

/-- The process group a stat text gives, if it has that field. -/
def statGroup (text : String) : Option ℤ :=
  ((Text.words text.toList)[4]?).bind Text.parseInt

/-- The loop of `_pids_for_job` over `/proc`. -/
def groupPids (pgid : ℤ) : List String → M W (List ℤ)
  | [] => pure []
  | entry :: rest =>
      if isdigit entry.toList then do
        let group ← tryExcept
          (do
            let text ← call (.procStat entry)
            pure (statGroup text))
          (fun cls => cls.isOSError || cls == .valueError)
          fun _ => pure none
        let later ← groupPids pgid rest
        if group = some pgid then pure ((Text.parseInt entry.toList).toList ++ later)
        else pure later
      else groupPids pgid rest

/-- `_pids_for_job`. -/
def pidsForJob (job : Job) : M W (List ℤ) :=
  match tracked job.session with
  | .pid digits => do
      let root ← liftExcept (pyInt digits)
      match ← tryExcept (some <$> call (.getpgid root)) (· == .processLookupError)
          (fun _ => pure none) with
      | none => pure []
      | some pgid =>
          let entries ← call .listProc
          groupPids pgid entries
  | _ => do
      if ← call (.which "pgrep") then
        let stdout ← call (.pgrep job.id)
        pure (((Text.words stdout.toList).filter isdigit).filterMap Text.parseInt)
      else pure []

/-- The loop of `_cpus_allowed` over the lines of a status text. -/
def allowedList : List (List Char) → Except Exc (Option (Finset ℤ))
  | [] => .ok none
  | line :: rest =>
      if "Cpus_allowed_list:".toList.isPrefixOf line then do
        let cores ← parseCpuList (String.ofList (Text.strip (line.drop 18)))
        .ok (some cores)
      else allowedList rest

/-- `_cpus_allowed`. -/
def cpusAllowed (pid : ℤ) : M W (Option (Finset ℤ)) :=
  tryExcept
    (do
      let text ← call (.procStatus pid)
      liftExcept (allowedList (text.toList.splitOn '\n')))
    ExcClass.isOSError
    fun _ => pure none

/-- The body of the loop of `enforce_pin`. -/
def repin (job : Job) (expected : Finset ℤ) (pid : ℤ) : M W Bool := do
  match ← tryExcept (some <$> call (.procComm pid)) ExcClass.isOSError (fun _ => pure none) with
  | none => pure false
  | some comm =>
      if "tmux".toList.isPrefixOf (Text.strip comm.toList) then pure false
      else
        match ← cpusAllowed pid with
        | none => pure false
        | some current =>
            if current = ∅ ∨ ¬ current ⊆ expected then
              let _ ← call (.taskset job.cpuList pid)
              pure true
            else pure false

/-- `enforce_pin`; the count is told apart from zero only. -/
def enforcePin (job : Job) : M W Bool := do
  if job.cpuList = "" ∨ job.id = "" then pure false
  else if ← call (.which "taskset") then
    let expected ← liftExcept (parseCpuList job.cpuList)
    let pids ← pidsForJob job
    Obeys.sweep (repin job expected) pids
  else pure false

end Nodepilot
