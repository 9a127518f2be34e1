import Nodepilot.Model.Host

/-!
# Memory containment

`cgroups.py`: the scope a job is wrapped in, the readings of the slice that
holds the scopes, and the kernel log's hint of an out-of-memory kill.
-/

namespace Nodepilot

variable {W : Type} [Host W]

/-- `base / name` of `pathlib`. -/
def joinPath (base name : String) : String :=
  if ['/'].isPrefixOf name.toList then name else base ++ "/" ++ name

/-! ## Scopes -/

/-- `_user_bus_socket_exists`. -/
def userBusSocketExists : M W Bool := do
  match ← call .runtimeDir with
  | some runtime =>
      if runtime ≠ "" then call (.pathExists (joinPath runtime "bus"))
      else
        let uid ← call .getuid
        call (.pathExists (joinPath ("/run/user/" ++ toString uid) "bus"))
  | none =>
      let uid ← call .getuid
      call (.pathExists (joinPath ("/run/user/" ++ toString uid) "bus"))

/-- `systemd_run_available`. -/
def systemdRunAvailable : M W Bool := do
  if ← call (.which "systemd-run") then
    match ← call .runtimeDir with
    | some runtime => if runtime ≠ "" then pure true else userBusSocketExists
    | none => userBusSocketExists
  else pure false

/-- `c.isalnum()`. -/
def isalnum (site : Site) (c : Char) : Bool :=
  if c.toNat < 128 then c.isAlphanum else site.wideAlnum c

/-- `scope_unit_name`. -/
def scopeUnitName (site : Site) (jobId : String) : String :=
  let safe := jobId.toList.map fun c => if isalnum site c || c == '-' || c == '_' then c else '_'
  "nodepilot-" ++ String.ofList safe ++ ".scope"

/-- `wrap_scope_command`. -/
def wrapScopeCommand (site : Site) (argv : List String) (jobId : String) (ramGb : ℚ)
    (sliceName : String) (swapMax : ℤ := 0) (highHeadroomGb : ℚ := 4) : List String :=
  let highGb := max 1 (ramGb - highHeadroomGb)
  ["systemd-run", "--user", "--scope", "--quiet", "--collect", "--no-block",
    "--slice=" ++ sliceName, "--unit=" ++ scopeUnitName site jobId,
    "-p", "MemoryMax=" ++ formatGeneral ramGb ++ "G",
    "-p", "MemorySwapMax=" ++ String.ofList (intText swapMax),
    "-p", "MemoryHigh=" ++ formatGeneral highGb ++ "G"] ++ argv

/-! ## The slice -/

/-- `_slice_dir_candidates`. -/
def sliceDirCandidates (uid : ℕ) (sliceName : String) : List String :=
  let root := "/sys/fs/cgroup"
  let base := root ++ "/user.slice/user-" ++ toString uid ++ ".slice/user@" ++ toString uid ++
    ".service"
  [joinPath base sliceName, joinPath (base ++ "/app.slice") sliceName, joinPath root sliceName]

/-- The loop of `cgroup_dir`. -/
def firstDir : List String → M W (Option String)
  | [] => pure none
  | cand :: rest => do
      if ← call (.isDir cand) then pure (some cand) else firstDir rest

/-- `SliceMonitor.cgroup_dir`. -/
def cgroupDir (sliceName : String) : M W (Option String) := do
  let uid ← call .getuid
  firstDir (sliceDirCandidates uid sliceName)

/-- `SliceMonitor._read_mem_raw`. -/
def readMemRaw (sliceName fname : String) : M W (Option (List Char)) := do
  match ← cgroupDir sliceName with
  | none => pure none
  | some cg =>
      tryExcept
        (do
          let text ← call (.readText (joinPath cg fname))
          pure (some (Text.strip text.toList)))
        ExcClass.isOSError
        fun _ => pure none

/-- A file of the slice in GiB; `_read_mem_file` and `max_gb` are this with their file. -/
def readMemGb (sliceName fname : String) : M W (Option ℚ) := do
  match ← readMemRaw sliceName fname with
  | none => pure none
  | some raw =>
      if raw = "max".toList then pure none
      else pure ((Text.parseInt raw).map fun bytes => (bytes : ℚ) / 1024 ^ 3)

/-- `SliceMonitor.used_gb`. -/
def usedGb (sliceName : String) : M W (Option ℚ) :=
  readMemGb sliceName "memory.current"

/-- `SliceMonitor.max_gb`. -/
def maxGb (sliceName : String) : M W (Option ℚ) :=
  readMemGb sliceName "memory.max"

/-- `scope_is_active`. -/
def scopeIsActive (site : Site) (jobId sliceName : String) : M W Bool := do
  match ← cgroupDir sliceName with
  | none => pure false
  | some cg => call (.isDir (joinPath cg (scopeUnitName site jobId)))

/-! ## The killer of processes -/

/-- `set_oom_score_adj`. -/
def setOomScoreAdj (pid value : ℤ) : M W Bool :=
  tryExcept
    (do
      call (.writeOomScoreAdj pid (max (-1000) (min 1000 value)))
      pure true)
    ExcClass.isOSError
    fun _ => pure false

/-- `set_self_oom_score_adj`. -/
def setSelfOomScoreAdj (value : ℤ) : M W Bool := do
  let pid ← call .getpid
  setOomScoreAdj pid value

/-- `journal_reports_oom`. -/
def journalReportsOom (withinMinutes : ℕ) : M W Bool := do
  if ← call (.which "journalctl") then
    match ← tryExcept (some <$> call (.journalctl withinMinutes))
        (fun cls => cls.isSubprocessError || cls.isOSError) (fun _ => pure none) with
    | none => pure false
    | some stdout =>
        let text := Text.lower stdout.toList
        pure (Text.occursIn "oom-kill".toList text || Text.occursIn "out of memory".toList text)
  else pure false

end Nodepilot
