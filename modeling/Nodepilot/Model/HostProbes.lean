import Nodepilot.Model.Admission
import Nodepilot.Model.Queue
import Nodepilot.Model.Topology

/-!
# Probing the host

What the defaults of the budgets and the memory gate of the allocator are taken from:
`_host_physical_cores` and `_host_total_ram_gb` of `config.py` and `node_memory_gb` of
`numa.py`.  A file is given as what comes of reading it.
-/

namespace Nodepilot

/-- `_host_total_ram_gb`. -/
def hostTotalRamGb (meminfo : Except Exc String) : Except Exc ℚ :=
  match meminfo >>= fun text => firstGb "MemTotal:" (text.toList.splitOn '\n') with
  | .ok gb => .ok (gb.getD 0)
  | .error e => if e.cls.isOSError || e.cls == .valueError then .ok 0 else .error e

/-- `_host_physical_cores`. -/
def hostPhysicalCores (sys : SysFs) : Except Exc ℕ :=
  match sys.affinity with
  | .ok cpus => .ok cpus.card
  | .error e =>
      if e.cls == .attributeError || e.cls.isOSError then
        -- `os.cpu_count() or 1`
        .ok (max 1 (sys.cpuCount.getD 1))
      else .error e

/-- What `__post_init__` has for the budgets; `budgetOf total` is the float that
`round(total * 0.85, 1)` is. -/
def hostSize (budgetOf : ℚ → ℚ) (sys : SysFs) (meminfo : Except Exc String) : Except Exc HostSize := do
  let physicalCores ← hostPhysicalCores sys
  let totalRamGb ← hostTotalRamGb meminfo
  .ok ⟨physicalCores, budgetOf totalRamGb⟩

/-! ## The memory of a node -/

/-- The counters of the loop of `node_memory_gb`. -/
structure NodeCounters where
  activeAnon : ℤ := 0
  inactiveAnon : ℤ := 0
  freeKb : ℤ := 0
  deriving DecidableEq

/-- The value of a key the loop looks for. -/
def NodeCounters.assign (n : NodeCounters) (key : String) (val : ℤ) : NodeCounters :=
  if key = "MemFree" then { n with freeKb := val }
  else if key = "Active(anon)" then { n with activeAnon := val }
  else if key = "Inactive(anon)" then { n with inactiveAnon := val }
  else n

/-- The loop of `node_memory_gb` over the lines. -/
def countersFrom (n : NodeCounters) : List (List Char) → Except Exc NodeCounters
  | [] => .ok n
  | line :: rest =>
      match Text.words line with
      | _ :: _ :: key :: value :: _ => do
          let val ← pyInt value
          -- `parts[2].rstrip(":")`
          countersFrom (n.assign (String.ofList (key.rdropWhile (· == ':'))) val) rest
      | _ => countersFrom n rest

/-- `node_memory_gb`. -/
def nodeMemoryGb (meminfo : Except Exc String) : Except Exc (Option ℚ × Option ℚ) :=
  match meminfo >>= fun text => countersFrom {} (text.toList.splitOn '\n') with
  | .ok n =>
      .ok (some ((n.activeAnon + n.inactiveAnon : ℤ) / (1024 * 1024)), some (n.freeKb / (1024 * 1024)))
  | .error e => if e.cls.isOSError || e.cls == .valueError then .ok (none, none) else .error e

example : nodeMemoryGb (.ok "Node 0 MemFree: 1048576 kB\nNode 0 Active(anon): 524288 kB\n") =
    .ok (some (1 / 2), some 1) := by decide +kernel

end Nodepilot
