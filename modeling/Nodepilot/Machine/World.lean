import Nodepilot.Model.Runner

/-!
# A Linux host

A world in which processes live and die, for the properties that speak of them.
Its process table keeps every process the scheduler ever started, each with the
job it was started for.  What the world does on its own (a process ends, a file
changes, a pid goes to somebody else, an operation fails, the orchestrator is
killed) is an agenda written beforehand: one batch of events takes place before
each operation.  A statement about every agenda is one about every behaviour of
the host that matters to the life of a process; what does not (`pgrep`, `taskset`)
is answered in one way.

The table of processes follows the kernel: a pid is free again once its process
has ended and has been waited for.  `tmux` keeps its documented way with names:
`:` and `.` in a new session's name become `_`, and a target means the session of
that name, else the only session whose name begins with it.
-/

namespace Nodepilot

/-- How a process can be told from the others: its pid, or the name of its session. -/
inductive Track
  | pid (n : ℕ)
  | session (name : String)
  deriving DecidableEq

/-- A process the scheduler has started. -/
structure Proc where
  track : Track
  /-- The job it was started for, as the job was then. -/
  job : Job
  comm : String := "bash"
  /-- The return code of an ended process, negative for a signal. -/
  exit : Option ℤ := none
  /-- Its parent has waited for it. -/
  collected : Bool := false
  /-- Its parent is the present orchestrator; else it is the init process. -/
  child : Bool := true
  /-- The target of the `kill-session` that ended it. -/
  removedBy : Option String := none
  deriving DecidableEq

/-- A process the scheduler has nothing to do with. -/
structure Other where
  pid : ℕ
  /-- Whether the orchestrator may signal it. -/
  ours : Bool
  stat : String
  deriving DecidableEq

/-- A start, with the jobs of the processes that were alive when it was made. -/
structure Launch where
  job : Job
  alive : List Job
  deriving DecidableEq

/-- What can happen on the host between two operations. -/
inductive Event
  | exit (k : ℕ) (rc : ℤ)
  /-- The init process waits for an orphan. -/
  | collect (k : ℕ)
  | rename (k : ℕ) (comm : String)
  | lastPid (n : ℕ)
  | arrive (other : Other)
  | leave (pid : ℕ)
  | elapse (d : ℚ)
  | write (path text : String)
  | remove (path : String)
  | mkdir (path : String)
  | rmdir (path : String)
  | journal (text : String)
  /-- The next operation raises, if it can raise this for reasons of its own. -/
  | raise (e : Exc)
  deriving DecidableEq

/-- The end of the orchestrator process. -/
def Event.die : Event :=
  .raise ⟨.died, ""⟩

structure World where
  clock : ℚ := 0
  /-- Every process ever started, oldest first. -/
  procs : List Proc := []
  others : List Other := []
  lastPid : ℕ := 0
  files : List (String × String) := []
  dirs : List String := []
  programs : List String := []
  journal : String := ""
  /-- The starts so far, latest first; no answer depends on them. -/
  launches : List Launch := []
  agenda : List (List Event) := []

namespace World

/-! ## Pids -/

/-- Whether a process has a pid and has not been waited for. -/
def hasPid (pid : ℤ) (p : Proc) : Bool :=
  !p.collected && match p.track with
    | .pid n => (n : ℤ) == pid
    | .session _ => false

variable (w : World)

def pidInUse (n : ℕ) : Bool :=
  w.procs.any (hasPid n) || w.others.any fun o => o.pid == n

/-- A number above every pid. -/
def beyondPids : ℕ :=
  (w.procs.map fun p => match p.track with
    | .pid n => n + 1
    | .session _ => 0).sum + (w.others.map fun o => o.pid + 1).sum

/-- The pid of the next process. -/
def freshPid : ℕ :=
  if w.pidInUse (w.lastPid + 1) then w.beyondPids else w.lastPid + 1

/-- `/proc/<pid>/stat` of a process. -/
def statText (n : ℕ) (comm : String) (ended : Bool) : String :=
  let pid := String.ofList (intText n)
  pid ++ " (" ++ comm ++ ") " ++ (if ended then "Z" else "S") ++ " 1 " ++ pid

/-- The stat text of a process by its entry in `/proc`. -/
def statOf (entry : String) : Option String :=
  match w.procs.find? fun p => !p.collected && match p.track with
      | .pid n => String.ofList (intText n) == entry
      | .session _ => false with
  | some p =>
      match p.track with
      | .pid n => some (statText n p.comm p.exit.isSome)
      | .session _ => none
  | none => (w.others.find? fun o => String.ofList (intText o.pid) == entry).map Other.stat

/-! ## Sessions -/

/-- The name `new-session` gives a session. -/
def sessionText (name : String) : String :=
  String.ofList (name.toList.map fun c => if c = ':' ∨ c = '.' then '_' else c)

/-- The names of the sessions there are. -/
def sessions : List String :=
  w.procs.filterMap fun p => match p.track, p.exit with
    | .session name, none => some name
    | _, _ => none

/-- The session a target means. -/
def target (name : String) : Option String :=
  if name ∈ w.sessions then some name
  else
    match w.sessions.filter fun session => name.toList.isPrefixOf session.toList with
    | [session] => some session
    | _ => none

/-- The session of a name is ended by a `kill-session` with a target. -/
def endSession (name by_ : String) (p : Proc) : Proc :=
  if p.track = .session name ∧ p.exit = none then
    { p with exit := some 0, removedBy := some by_ }
  else p

/-! ## Starting a process -/

/-- A new process, logged with the jobs whose processes are alive. -/
def spawn (track : Track) (job : Job) : World :=
  { w with
    procs := w.procs ++ [{ track := track, job := job }]
    launches := ⟨job, (w.procs.filter fun p => p.exit == none).map Proc.job⟩ :: w.launches }

end World

/-! ## Events -/

namespace Event

/-- What an event does to the world. -/
def apply (w : World) : Event → World
  | exit k rc =>
      { w with procs := w.procs.modify k fun p =>
          if p.exit = none then { p with exit := some rc } else p }
  | collect k =>
      { w with procs := w.procs.modify k fun p =>
          if p.exit ≠ none ∧ p.child = false then { p with collected := true } else p }
  | rename k comm => { w with procs := w.procs.modify k fun p => { p with comm := comm } }
  | lastPid n => { w with lastPid := n }
  | arrive other => if w.pidInUse other.pid then w else { w with others := w.others ++ [other] }
  | leave pid => { w with others := w.others.filter fun o => o.pid != pid }
  | elapse d => { w with clock := w.clock + max 0 d }
  | write path text =>
      { w with files := (path, text) :: w.files.filter fun entry => entry.1 != path }
  | remove path => { w with files := w.files.filter fun entry => entry.1 != path }
  | mkdir path => { w with dirs := path :: w.dirs }
  | rmdir path => { w with dirs := w.dirs.filter (· != path) }
  | journal text => { w with journal := text }
  | raise _ => w

/-- The exception an event raises. -/
def failure : Event → Option Exc
  | raise e => some e
  | _ => none

end Event

namespace World

/-- The next batch of the agenda takes place. -/
def advance (w : World) : World :=
  match w.agenda with
  | [] => w
  | batch :: rest => batch.foldl Event.apply { w with agenda := rest }

/-- The exception the next batch raises. -/
def failure (w : World) : Option Exc :=
  match w.agenda with
  | [] => none
  | batch :: _ => batch.findSome? Event.failure

/-! ## Operations -/

def noFile : Exc :=
  ⟨.osError, "[Errno 2] No such file or directory"⟩

def noProcess : Exc :=
  ⟨.processLookupError, "[Errno 3] No such process"⟩

/-- An operation on a process group: the group of a process has its pid. -/
def signal (w : World) (pid : ℤ) : EStateM.Result Exc World Unit :=
  if w.procs.any (hasPid pid) then .ok () w
  else
    match w.others.find? fun o => (o.pid : ℤ) == pid with
    | some o =>
        if o.ours then .ok () w
        else .error ⟨.permissionError, "[Errno 1] Operation not permitted"⟩ w
    | none => .error noProcess w

/-- The answer to an operation, its batch of events having taken place. -/
def effect (w : World) : {α : Type} → Syscall α → EStateM.Result Exc World α
  | _, .time => .ok w.clock w
  | _, .sleep seconds =>
      if 2 ^ 63 ≤ |seconds| * 10 ^ 9 then
        .error ⟨.overflowError, "timestamp too large to convert to C PyTime_t"⟩ w
      else if seconds < 0 then .error ⟨.valueError, "sleep length must be non-negative"⟩ w
      else .ok () { w with clock := w.clock + seconds }
  | _, .getcwd => .ok "/" w
  | _, .getuid => .ok 1000 w
  | _, .which program => .ok (w.programs.contains program) w
  | _, .runtimeDir => .ok (some "/run/user/1000") w
  | _, .pathExists path => .ok (w.dirs.contains path || (w.files.lookup path).isSome) w
  | _, .isDir path => .ok (w.dirs.contains path) w
  | _, .readText path =>
      match w.files.lookup path with
      | some text => .ok text w
      | none => .error noFile w
  | _, .procStat entry =>
      match w.statOf entry with
      | some text => .ok text w
      | none => .error noFile w
  | _, .procComm pid =>
      match w.procs.find? (hasPid pid) with
      | some p => .ok p.comm w
      | none => .error noFile w
  | _, .procStatus pid =>
      match w.files.lookup ("/proc/" ++ String.ofList (intText pid) ++ "/status") with
      | some text => .ok text w
      | none => .error noFile w
  | _, .listProc =>
      .ok (w.procs.filterMap (fun p => match p.track with
          | .pid n => if p.collected then none else some (String.ofList (intText n))
          | .session _ => none) ++ w.others.map fun o => String.ofList (intText o.pid)) w
  | _, .writeOomScoreAdj _ _ => .ok () w
  | _, .getpid => .ok 1 w
  | _, .kill0 pid => w.signal pid
  | _, .getpgid pid =>
      match w.signal pid with
      | .ok _ w => .ok pid w
      | .error e w => if e.cls = .permissionError then .ok pid w else .error e w
  | _, .killpg pgid => w.signal pgid
  | _, .popen job _ _ _ =>
      .ok ⟨w.freshPid, w.procs.length⟩ { w.spawn (.pid w.freshPid) job with lastPid := w.freshPid }
  | _, .poll proc =>
      match w.procs[proc.serial]? with
      | none => .ok none w
      | some p =>
          match p.exit with
          | none => .ok none w
          | some rc =>
              .ok (some rc)
                { w with procs := w.procs.modify proc.serial fun p => { p with collected := true } }
  | _, .wait proc =>
      match (w.procs[proc.serial]?).bind Proc.exit with
      | none => .error ⟨.timeoutExpired, "timed out after 5 seconds"⟩ w
      | some rc =>
          .ok rc { w with procs := w.procs.modify proc.serial fun p => { p with collected := true } }
  | _, .tmuxHasSession name => .ok (if (w.target name).isSome then 0 else 1) w
  | _, .tmuxKillSession name =>
      match w.target name with
      | none => .ok 1 w
      | some session => .ok 0 { w with procs := w.procs.map (endSession session name) }
  | _, .tmuxNewSession job name _ _ =>
      if sessionText name ∈ w.sessions then
        .error ⟨.calledProcessError, "Command 'tmux' returned non-zero exit status 1."⟩ w
      else .ok () (w.spawn (.session (sessionText name)) job)
  | _, .taskset _ _ => .ok 0 w
  | _, .pgrep _ => .ok "" w
  | _, .journalctl _ => .ok w.journal w
  | _, .writeState => .ok () w

/-- The operations that fail for no other reason than the process they are about. -/
def certain {α : Type} : Syscall α → Bool
  | .sleep _ | .kill0 _ | .getpgid _ | .killpg _ => true
  | _ => false

/-- The answer to an operation. -/
def answer (w : World) {α : Type} (c : Syscall α) : EStateM.Result Exc World α :=
  match w.failure with
  | some e =>
      if e.cls = .died ∨ (e.cls ∈ c.raises ∧ certain c = false) then .error e w.advance
      else w.advance.effect c
  | none => w.advance.effect c

end World

end Nodepilot
