import Nodepilot.Lib.Layout
import Nodepilot.Model.CpuList

/-!
# MPI rank binding

`rank_binding_plan` and `openmpi_rankfile` of `mpi.py`: the CPUs of a block are dealt
out to the ranks of a job, and the plan is written as a rankfile.
-/

namespace Nodepilot

open Layout

/-- `RankBinding`. -/
structure RankBinding where
  rank : ℤ
  cores : List ℤ
  deriving DecidableEq, Repr

/-- `RankBinding.cpu_list`. -/
def RankBinding.cpuList (b : RankBinding) : String :=
  formatCpuList b.cores.toFinset

/-- The loop of `rank_binding_plan`. -/
def rankBindings (cores : List ℤ) (nprocs stride width : ℕ) : List RankBinding :=
  (List.range nprocs).map fun i =>
    let start := i * stride
    { rank := i
      -- the last rank absorbs what is left over
      cores := if i + 1 = nprocs then cores.drop start else slice cores start width }

/-- `rank_binding_plan`. -/
def rankBindingPlan (cpuList : String) (nprocs : ℤ) (threadsPerRank : Option ℤ := none) :
    Except Exc (List RankBinding) :=
  if nprocs < 1 then .error (valueError "nprocs must be >= 1")
  else do
    let cores := sorted (← parseCpuList cpuList)
    if (cores.length : ℤ) < nprocs then
      .error (valueError ("cannot place " ++ String.ofList (intText nprocs) ++ " ranks on " ++
        String.ofList (intText cores.length) ++ " cores ('" ++ cpuList ++
        "'): need at least one core per rank"))
    else
      let stride := (cores.length : ℤ) / nprocs
      let width := max 1 (threadsPerRank.getD stride)
      .ok (rankBindings cores nprocs.toNat stride.toNat width.toNat)

/-- A line of the rankfile. -/
def rankLine (b : RankBinding) : String :=
  "rank " ++ String.ofList (intText b.rank) ++ "=localhost slot=" ++ b.cpuList

/-- `openmpi_rankfile`. -/
def openmpiRankfile (plan : List RankBinding) : String :=
  let lines := (plan.filter fun b => !b.cores.isEmpty).map rankLine
  "\n".intercalate lines ++ (if lines.isEmpty then "" else "\n")

example : (rankBindingPlan "0-4" 2).toOption = some [⟨0, [0, 1]⟩, ⟨1, [2, 3, 4]⟩] := by decide

end Nodepilot
