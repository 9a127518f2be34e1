import Nodepilot.Lib.Obeys
import Nodepilot.Model.CpuList
import Nodepilot.Model.Job

/-!
# The host and the orchestrator process

Everything the scheduler learns or does outside its own memory goes through one
operation of the standard library: a clock, a file, a signal, a child process, a
command run to completion.  A `Syscall` names the operation with its arguments, a
`Host` is any world that answers them.  Nothing is assumed of the answers but
which exceptions an operation can raise; the death of the orchestrator process is
one of them at every operation, so that a run may end between any two effects.

`Sys` is the orchestrator process and what outlives it: the state file, the
world, and a log of the jobs it has started.
-/

namespace Nodepilot

/-- A `subprocess.Popen` object; `serial` is its identity. -/
structure Popen where
  pid : ℤ
  serial : ℕ
  deriving DecidableEq, Repr

/-- The operations of the host.  `popen` and `tmuxNewSession` also say on whose behalf
they are made; no answer may depend on more than the arguments after it. -/
inductive Syscall : Type → Type
  | time : Syscall ℚ
  | sleep (seconds : ℚ) : Syscall Unit
  | getcwd : Syscall String
  | getuid : Syscall ℕ
  | which (program : String) : Syscall Bool
  /-- `os.environ.get("XDG_RUNTIME_DIR")`. -/
  | runtimeDir : Syscall (Option String)
  | pathExists (path : String) : Syscall Bool
  | isDir (path : String) : Syscall Bool
  | readText (path : String) : Syscall String
  /-- The text of `/proc/<entry>/stat`. -/
  | procStat (entry : String) : Syscall String
  /-- The text of `/proc/<pid>/comm`. -/
  | procComm (pid : ℤ) : Syscall String
  /-- The text of `/proc/<pid>/status`. -/
  | procStatus (pid : ℤ) : Syscall String
  /-- The names in `/proc`. -/
  | listProc : Syscall (List String)
  /-- Writing `/proc/<pid>/oom_score_adj`. -/
  | writeOomScoreAdj (pid value : ℤ) : Syscall Unit
  | getpid : Syscall ℤ
  /-- `os.kill(pid, 0)`. -/
  | kill0 (pid : ℤ) : Syscall Unit
  | getpgid (pid : ℤ) : Syscall ℤ
  /-- `os.killpg(pgid, signal.SIGTERM)`. -/
  | killpg (pgid : ℤ) : Syscall Unit
  | popen (job : Job) (argv : List String) (workdir : String) (env : List (String × String)) :
      Syscall Popen
  | poll (proc : Popen) : Syscall (Option ℤ)
  /-- `proc.wait(timeout=5)`. -/
  | wait (proc : Popen) : Syscall ℤ
  | tmuxHasSession (target : String) : Syscall ℤ
  | tmuxKillSession (target : String) : Syscall ℤ
  /-- `tmux new-session -d -s session bash -lc command_line`, with `check=True`. -/
  | tmuxNewSession (job : Job) (session commandLine : String) (env : List (String × String)) :
      Syscall Unit
  /-- `taskset -cp cpu_list pid`. -/
  | taskset (cpuList : String) (pid : ℤ) : Syscall ℤ
  /-- The output of `pgrep -f pattern`. -/
  | pgrep (pattern : String) : Syscall String
  /-- The output of `journalctl -k` over the last minutes. -/
  | journalctl (minutes : ℕ) : Syscall String
  /-- Writing the state file and moving it into place. -/
  | writeState : Syscall Unit

namespace Syscall

/-- The exceptions an operation can raise.  A text or an environment of the queue file that is
none is refused by the operation that is given it, with a `TypeError` or a `ValueError`. -/
def raises {α : Type} : Syscall α → List ExcClass
  | time | getuid | which _ | runtimeDir | getpid | poll _ => []
  | sleep _ => [.valueError, .overflowError]
  | getcwd | pathExists _ | isDir _ | listProc | writeOomScoreAdj _ _ => [.osError]
  | readText _ | procStat _ | procComm _ | procStatus _ => [.osError, .valueError]
  | kill0 _ | getpgid _ | killpg _ => [.processLookupError, .permissionError, .overflowError]
  | popen _ _ _ _ => [.osError, .valueError, .typeError]
  | wait _ => [.timeoutExpired]
  | tmuxHasSession _ | tmuxKillSession _ | taskset _ _ | pgrep _ => [.osError, .valueError]
  | tmuxNewSession _ _ _ _ => [.osError, .valueError, .typeError, .calledProcessError]
  | journalctl _ => [.osError, .valueError, .timeoutExpired]
  | writeState => [.osError, .valueError, .typeError]

/-- The operations that touch no process's life: `poll` and `wait` are not among them, since
they collect a child that has ended. -/
def harmless {α : Type} : Syscall α → Bool
  | killpg _ | popen _ _ _ _ | poll _ | wait _ | tmuxKillSession _ | tmuxNewSession _ _ _ _ => false
  | _ => true

end Syscall

/-- A world that answers the operations. -/
class Host (W : Type) where
  answer : {α : Type} → Syscall α → W → EStateM.Result Exc W α
  raises_only : ∀ {α : Type} (c : Syscall α) (w w' : W) (e : Exc),
    answer c w = .error e w' → e.cls = .died ∨ e.cls ∈ c.raises

/-- The orchestrator process with what outlives it. -/
structure Sys (W : Type) where
  jobs : List Job
  /-- `_cooldown_until` of the admission controller. -/
  cooldownUntil : ℚ := 0
  /-- `_procs` of the runner. -/
  procs : List (ℤ × Popen) := []
  /-- The jobs of the state file, if there is one. -/
  stateFile : Option (List Job) := none
  /-- The jobs whose commands were started, by index, latest first; no code reads it. -/
  starts : List ℕ := []
  world : W

/-- A program of the orchestrator. -/
abbrev M (W : Type) := EStateM Exc (Sys W)

/-- What one orchestrator is constructed with; all of it stays as it is over a run. -/
structure Site where
  config : Config
  /-- The jobs of the queue file. -/
  queue : List Job
  numaNodes : List (ℤ × String)
  nodes_nodup : (numaNodes.map Prod.fst).Nodup
  reserved : Finset ℤ
  reserved_eq : parseCpuList config.reservedCores = .ok reserved
  smtSecondary : Finset ℤ := ∅
  /-- `str.isalnum` of the characters outside ASCII. -/
  wideAlnum : Char → Bool := fun _ => false

/-! ## Programs -/

section Programs

variable {W α : Type}

/-- One operation of the host. -/
def call [Host W] (c : Syscall α) : M W α := fun s =>
  match Host.answer c s.world with
  | .ok a w => .ok a { s with world := w }
  | .error e w => .error e { s with world := w }

/-- `try: body except caught: handler`. -/
def tryExcept (body : M W α) (caught : ExcClass → Bool) (handler : Exc → M W α) : M W α := fun s =>
  match body s with
  | .ok a s' => .ok a s'
  | .error e s' => if caught e.cls then handler e s' else .error e s'

/-- A pure function that may raise. -/
def liftExcept (x : Except Exc α) : M W α :=
  match x with
  | .ok a => pure a
  | .error e => throw e

/-- Assigning attributes of the job at an index. -/
def setJob (i : ℕ) (f : Job → Job) : M W Unit :=
  modify fun s => { s with jobs := s.jobs.modify i f }

theorem call_eq_ok [Host W] {c : Syscall α} {s s' : Sys W} {a : α} :
    call c s = .ok a s' ↔ ∃ w, Host.answer c s.world = .ok a w ∧ s' = { s with world := w } := by
  unfold call
  cases h : Host.answer c s.world with
  | ok b w => grind
  | error e w => simp

theorem call_eq_error [Host W] {c : Syscall α} {s s' : Sys W} {e : Exc} :
    call c s = .error e s' ↔
      ∃ w, Host.answer c s.world = .error e w ∧ s' = { s with world := w } := by
  unfold call
  cases h : Host.answer c s.world with
  | ok b w => simp
  | error e w => grind

theorem tryExcept_eq_ok {body : M W α} {caught : ExcClass → Bool} {handler : Exc → M W α}
    {s s' : Sys W} {a : α} :
    tryExcept body caught handler s = .ok a s' ↔ body s = .ok a s' ∨
      ∃ e s₁, body s = .error e s₁ ∧ caught e.cls = true ∧ handler e s₁ = .ok a s' := by
  unfold tryExcept
  cases h : body s with
  | ok b s₁ => simp
  | error e s₁ => by_cases hcaught : caught e.cls = true <;> simp [hcaught]

theorem tryExcept_eq_error {body : M W α} {caught : ExcClass → Bool} {handler : Exc → M W α}
    {s s' : Sys W} {e : Exc} :
    tryExcept body caught handler s = .error e s' ↔
      (body s = .error e s' ∧ caught e.cls = false) ∨
      ∃ e₁ s₁, body s = .error e₁ s₁ ∧ caught e₁.cls = true ∧ handler e₁ s₁ = .error e s' := by
  unfold tryExcept
  cases h : body s with
  | ok b s₁ => simp
  | error e₁ s₁ => grind

theorem liftExcept_eq_ok {x : Except Exc α} {s s' : Sys W} {a : α} :
    (liftExcept x : M W α) s = .ok a s' ↔ x = .ok a ∧ s = s' := by
  cases x with
  | ok b => simp [liftExcept]
  | error e => simp [liftExcept]

theorem liftExcept_eq_error {x : Except Exc α} {s s' : Sys W} {e : Exc} :
    (liftExcept x : M W α) s = .error e s' ↔ x = .error e ∧ s = s' := by
  cases x with
  | ok b => simp [liftExcept]
  | error e => simp [liftExcept]

end Programs

end Nodepilot
