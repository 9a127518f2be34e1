import Nodepilot.Lib.Trees
import Nodepilot.Model.Host
import Nodepilot.Model.Siblings

/-!
# The topology of the machine

`detect` of `numa.py`, `Config.numa_nodes_resolved` and `Orchestrator.__init__`: where
the NUMA nodes of a `Site` come from when the queue file names none.  What the kernel
shows of the machine is given as what comes of reading it.
-/

namespace Nodepilot

open Runs Trees

/-- What the kernel shows of the machine's CPUs. -/
structure SysFs where
  /-- The entries of `/sys/devices/system/node`, each with what comes of reading its `cpulist`. -/
  nodes : Option (List (String × Except Exc String))
  /-- What comes of reading the `thread_siblings_list` of each `cpu<N>`. -/
  siblings : Option (List (Except Exc String))
  /-- `os.sched_getaffinity(0)`. -/
  affinity : Except Exc (Finset ℤ)
  /-- `os.cpu_count()`. -/
  cpuCount : Option ℕ

/-- `glob("node[0-9]*")`. -/
def isNodeEntry (name : String) : Bool :=
  match name.toList with
  | 'n' :: 'o' :: 'd' :: 'e' :: c :: _ => c.isDigit
  | _ => false

/-- The loop of `detect`. -/
def nodesFrom (nodes : List (ℤ × String)) :
    List (String × Except Exc String) → Except Exc (List (ℤ × String))
  | [] => .ok nodes
  | (name, content) :: rest =>
      match pyInt (name.toList.drop 4) with
      | .error _ => nodesFrom nodes rest
      | .ok idx =>
          match content with
          | .error e => if e.cls.isOSError then nodesFrom nodes rest else .error e
          | .ok text =>
              let spec := String.ofList (Text.strip text.toList)
              if spec = "" then nodesFrom nodes rest
              else nodesFrom (insert idx spec nodes) rest

/-- The CPUs of the node that stands for a machine without NUMA information. -/
def fallbackCpus (sys : SysFs) : Except Exc (Finset ℤ) :=
  match sys.affinity with
  | .ok cpus => .ok cpus
  | .error e =>
      if e.cls == .attributeError || e.cls.isOSError then
        -- `range(os.cpu_count() or 1)`
        .ok (span 0 (max 1 (sys.cpuCount.getD 1) - 1)).toFinset
      else .error e

/-- What `detect` collects from the directory of the nodes, if there is one. -/
def listedNodes (sys : SysFs) : Except Exc (List (ℤ × String)) :=
  match sys.nodes with
  | none => .ok []
  | some entries =>
      nodesFrom [] ((entries.filter fun entry => isNodeEntry entry.1).insertionSort
        fun a b => a.1 ≤ b.1)

/-- `detect`. -/
def detect (sys : SysFs) : Except Exc (List (ℤ × String)) := do
  let nodes ← listedNodes sys
  if nodes ≠ [] then .ok nodes
  else do
    let cpus ← fallbackCpus sys
    .ok [(0, formatCpuList cpus)]

/-- `numa_nodes_resolved`, with what `numa_nodes` configures. -/
def numaNodesResolved (configured : List (ℤ × String)) (sys : SysFs) :
    Except Exc (List (ℤ × String)) :=
  if configured ≠ [] then .ok (dictOf configured) else detect sys

/-! ## No node twice -/

theorem nodup_nodesFrom {entries : List (String × Except Exc String)}
    {nodes found : List (ℤ × String)} (hnodes : (nodes.map Prod.fst).Nodup)
    (h : nodesFrom nodes entries = .ok found) : (found.map Prod.fst).Nodup := by
  induction entries generalizing nodes with
  | nil =>
      cases h
      exact hnodes
  | cons entry rest ih =>
      obtain ⟨name, content⟩ := entry
      unfold nodesFrom at h
      split at h
      · exact ih hnodes h
      · rename_i idx hidx
        cases content with
        | error e =>
            simp only at h
            split at h
            · exact ih hnodes h
            · cases h
        | ok text =>
            simp only at h
            split at h
            · exact ih hnodes h
            · exact ih (nodup_insert hnodes idx _) h

theorem nodup_detect {sys : SysFs} {nodes : List (ℤ × String)} (h : detect sys = .ok nodes) :
    (nodes.map Prod.fst).Nodup := by
  obtain ⟨listed, hlisted, h⟩ := except_bind_eq_ok.mp h
  have hnodup : (listed.map Prod.fst).Nodup := by
    unfold listedNodes at hlisted
    split at hlisted
    · cases hlisted
      exact List.nodup_nil
    · refine nodup_nodesFrom ?_ hlisted
      exact List.nodup_nil
  split at h
  · cases h
    exact hnodup
  · obtain ⟨cpus, -, h⟩ := except_bind_eq_ok.mp h
    cases h
    exact List.nodup_singleton 0

theorem nodup_numaNodesResolved {configured nodes : List (ℤ × String)} {sys : SysFs}
    (h : numaNodesResolved configured sys = .ok nodes) : (nodes.map Prod.fst).Nodup := by
  unfold numaNodesResolved at h
  split at h
  · cases h
    exact nodup_dictOf configured
  · exact nodup_detect h

/-! ## Construction -/

/-- `Orchestrator.__init__`, with `which` for what is on the path. -/
def construct (config : Config) (queue : List Job) (configured : List (ℤ × String))
    (which : String → Bool) (wideAlnum : Char → Bool) (sys : SysFs) : Except Exc Site :=
  if config.runner = "tmux" ∧ which "tmux" = false then
    .error ⟨.runtimeError, "runner='tmux' but tmux is not on PATH"⟩
  else
    match hnodes : numaNodesResolved configured sys, hreserved : parseCpuList config.reservedCores,
        detectSmtSecondary sys.siblings with
    | .error e, _, _ => .error e
    | .ok _, .error e, _ => .error e
    | .ok _, .ok _, .error e => .error e
    | .ok numaNodes, .ok reserved, .ok smtSecondary =>
        .ok
          { config := config
            queue := queue
            numaNodes := numaNodes
            nodes_nodup := nodup_numaNodesResolved hnodes
            reserved := reserved
            reserved_eq := hreserved
            smtSecondary := smtSecondary
            wideAlnum := wideAlnum }

end Nodepilot
