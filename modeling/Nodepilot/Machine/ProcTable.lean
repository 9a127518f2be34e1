import Nodepilot.Machine.Probes

/-!
# A table of processes

A second host, for what the scheduler reads in `/proc` and what it does to the
affinity of processes: each process has the fields of its `stat` text, a name, a
command line and the set of cores it may run on.  Processes neither start nor end
here; the one thing that changes is an affinity, by `taskset`.

A process may have any name.  The kernel writes it between parentheses into the
`stat` text as it is, blanks included.  A name outside ASCII makes a text of the
process one that `encoding="ascii"` refuses.
-/

namespace Nodepilot

/-- A process as `/proc` shows it. -/
structure Process where
  pid : ℕ
  comm : String
  state : Char
  state_letter : state.isAlpha = true
  ppid : ℤ
  pgrp : ℤ
  /-- The fields of the `stat` text after the process group. -/
  later : String := ""
  /-- The lines of the `status` text before the affinity. -/
  statusHead : List (List Char) := []
  statusHead_other : ∀ line ∈ statusHead,
    '\n' ∉ line ∧ "Cpus_allowed_list:".toList.isPrefixOf line = false := by simp
  statusTail : List Char := []
  commandLine : String := ""
  /-- The affinity. -/
  cpus : Finset ℤ := {0}
  /-- Whether the orchestrator may signal it. -/
  ours : Bool := true

namespace Process

variable (p : Process)

/-- The name of its directory in `/proc`. -/
def entry : String :=
  String.ofList (intText p.pid)

/-- `/proc/<pid>/stat`. -/
def statText : String :=
  String.ofList (intText p.pid ++ ' ' :: ('(' :: p.comm.toList ++ [')']) ++
    ' ' :: [p.state] ++ ' ' :: intText p.ppid ++ ' ' :: intText p.pgrp ++ ' ' :: p.later.toList)

/-- `/proc/<pid>/comm`. -/
def commText : String :=
  p.comm ++ "\n"

/-- `/proc/<pid>/status`. -/
def statusText : String :=
  String.ofList ((p.statusHead.flatMap fun line => line ++ ['\n']) ++
    ("Cpus_allowed_list:\t" ++ formatCpuList p.cpus).toList ++ '\n' :: p.statusTail)

/-- Whether its texts can be read. -/
def readable : Bool :=
  p.comm.toList.all fun c => c.toNat < 128

/-- The process with an affinity. -/
def setCpus (cores : Finset ℤ) : Process :=
  { p with cpus := cores }

end Process

/-- The processes of a host. -/
structure ProcTable where
  procs : List Process
  pids_nodup : (procs.map Process.pid).Nodup
  cpus_nonempty : ∀ p ∈ procs, p.cpus ≠ ∅
  cpus_nonneg : ∀ p ∈ procs, ∀ c ∈ p.cpus, 0 ≤ c
  /-- The names in `/proc` that are none of a process. -/
  otherNames : List String := []
  otherNames_spec : ∀ name ∈ otherNames, isdigit name.toList = false := by simp
  /-- Whether a command line contains a match of a pattern. -/
  search : String → String → Bool := fun _ _ => false

namespace ProcTable

variable (t : ProcTable)

/-- What an `open` with `encoding="ascii"` raises on a name outside it. -/
def undecodable : Exc :=
  ⟨.valueError, "'ascii' codec can't decode byte"⟩

/-- A text of a process that was looked for. -/
def read (found : Option Process) (text : Process → String) :
    EStateM.Result Exc ProcTable String :=
  match found with
  | some p => if p.readable then .ok (text p) t else .error undecodable t
  | none => .error ⟨.osError, "[Errno 2] No such file or directory"⟩ t

/-- The process of a pid. -/
def withPid (pid : ℤ) : Option Process :=
  t.procs.find? fun p => (p.pid : ℤ) == pid

/-- The process of a pid gets an affinity. -/
def pin (pid : ℤ) (cores : Finset ℤ) (hne : cores ≠ ∅) (hnonneg : ∀ c ∈ cores, 0 ≤ c) : ProcTable :=
  { t with
    procs := t.procs.map fun p => if (p.pid : ℤ) = pid then p.setCpus cores else p
    pids_nodup := by
      have hpids : (t.procs.map fun p => if (p.pid : ℤ) = pid then p.setCpus cores else p).map
          Process.pid = t.procs.map Process.pid := by
        rw [List.map_map]
        refine List.map_congr_left fun p _ => ?_
        simp only [Function.comp_apply]
        split <;> rfl
      rw [hpids]
      exact t.pids_nodup
    cpus_nonempty := by
      intro q hq
      obtain ⟨p, hp, rfl⟩ := List.mem_map.mp hq
      split
      · exact hne
      · exact t.cpus_nonempty p hp
    cpus_nonneg := by
      intro q hq
      obtain ⟨p, hp, rfl⟩ := List.mem_map.mp hq
      split
      · exact hnonneg
      · exact t.cpus_nonneg p hp }

/-- `taskset -cp <list> <pid>`: the status it returns, and the table after it.  No process
can be given an empty affinity. -/
def taskset (cpuList : String) (pid : ℤ) : ℤ × ProcTable :=
  match h : parseCpuList cpuList with
  | .ok cores =>
      if hne : cores = ∅ then (1, t) else (0, t.pin pid cores hne (nonneg_of_parseCpuList h))
  | .error _ => (1, t)

/-- The output of `pgrep -f pattern`. -/
def pgrep (pattern : String) : String :=
  String.ofList ((t.procs.filter fun p => t.search pattern p.commandLine).flatMap fun p =>
    intText p.pid ++ ['\n'])

/-- The answer to an operation. -/
def answer : {α : Type} → Syscall α → ProcTable → EStateM.Result Exc ProcTable α
  | _, .procStat entry, t => t.read (t.procs.find? fun p => p.entry == entry) Process.statText
  | _, .procComm pid, t => t.read (t.withPid pid) Process.commText
  | _, .procStatus pid, t => t.read (t.withPid pid) Process.statusText
  | _, .listProc, t => .ok (t.procs.map Process.entry ++ t.otherNames) t
  | _, .kill0 pid, t =>
      match t.withPid pid with
      | some p =>
          if p.ours then .ok () t
          else .error ⟨.permissionError, "[Errno 1] Operation not permitted"⟩ t
      | none => .error ⟨.processLookupError, "[Errno 3] No such process"⟩ t
  | _, .getpgid pid, t =>
      match t.withPid pid with
      | some p => .ok p.pgrp t
      | none => .error ⟨.processLookupError, "[Errno 3] No such process"⟩ t
  | _, .taskset cpuList pid, t => .ok (t.taskset cpuList pid).1 (t.taskset cpuList pid).2
  | _, .pgrep pattern, t => .ok (t.pgrep pattern) t
  | _, .which _, t => .ok true t
  -- what the parts of the scheduler that read the table do not ask
  | _, .time, t => .ok 0 t
  | _, .sleep _, t => .ok () t
  | _, .getcwd, t => .ok "/" t
  | _, .getuid, t => .ok 1000 t
  | _, .runtimeDir, t => .ok none t
  | _, .pathExists _, t => .ok false t
  | _, .isDir _, t => .ok false t
  | _, .readText _, t => .error ⟨.osError, "[Errno 2] No such file or directory"⟩ t
  | _, .writeOomScoreAdj _ _, t => .ok () t
  | _, .getpid, t => .ok 1 t
  | _, .killpg _, t => .ok () t
  | _, .popen _ _ _ _, t => .ok ⟨0, 0⟩ t
  | _, .poll _, t => .ok none t
  | _, .wait _, t => .ok 0 t
  | _, .tmuxHasSession _, t => .ok 0 t
  | _, .tmuxKillSession _, t => .ok 0 t
  | _, .tmuxNewSession _ _ _ _, t => .ok () t
  | _, .journalctl _, t => .ok "" t
  | _, .writeState, t => .ok () t

theorem read_eq_error {t t' : ProcTable} {found : Option Process} {text : Process → String} {e : Exc}
    (h : t.read found text = .error e t') : e.cls = .osError ∨ e.cls = .valueError := by
  unfold read at h
  split at h
  · split at h
    · cases h
    · cases h
      exact .inr rfl
  · cases h
    exact .inl rfl

end ProcTable

instance : Host ProcTable where
  answer c t := t.answer c
  raises_only c t t' e h := by
    right
    cases c with
    | procStat entry => simpa [Syscall.raises] using ProcTable.read_eq_error h
    | procComm pid => simpa [Syscall.raises] using ProcTable.read_eq_error h
    | procStatus pid => simpa [Syscall.raises] using ProcTable.read_eq_error h
    | readText path =>
        cases h
        simp [Syscall.raises]
    | kill0 pid =>
        simp only [ProcTable.answer] at h
        split at h
        · split at h <;> cases h
          simp [Syscall.raises]
        · cases h
          simp [Syscall.raises]
    | getpgid pid =>
        simp only [ProcTable.answer] at h
        split at h <;> cases h
        simp [Syscall.raises]
    | _ => cases h

namespace ProcTable

/-! ## Looking a process up -/

variable {t : ProcTable} {p q : Process}

theorem eq_of_pid (hp : p ∈ t.procs) (hq : q ∈ t.procs) (h : p.pid = q.pid) : p = q :=
  List.inj_on_of_nodup_map t.pids_nodup hp hq h

/-- What only the process of a pid can satisfy finds it. -/
theorem find_eq (hp : p ∈ t.procs) {sought : Process → Bool} (hfound : sought p = true)
    (hunique : ∀ q, sought q = true → q.pid = p.pid) : t.procs.find? sought = some p := by
  cases hfind : t.procs.find? sought with
  | none =>
      have hnone := List.find?_eq_none.mp hfind p hp
      exact absurd hfound hnone
  | some q =>
      have hq := List.mem_of_find?_eq_some hfind
      rw [eq_of_pid hq hp (hunique q (List.find?_some hfind))]

theorem withPid_eq (hp : p ∈ t.procs) : t.withPid p.pid = some p :=
  find_eq hp (beq_self_eq_true _) fun q hq => by simpa using hq

theorem find_entry_eq (hp : p ∈ t.procs) :
    (t.procs.find? fun q => q.entry == p.entry) = some p := by
  refine find_eq hp (beq_self_eq_true _) fun q hq => ?_
  rw [beq_iff_eq, Process.entry, Process.entry, String.ofList_inj] at hq
  exact intText_injective hq

end ProcTable

end Nodepilot
