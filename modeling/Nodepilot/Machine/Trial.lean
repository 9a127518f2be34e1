import Nodepilot.Machine.Growth
import Nodepilot.Steps.Runs

/-!
# Trying the scheduler out on the machine

The machine computes, so the scheduler can be run on it.  A trial is such a run
from the queue of a small site with two nodes of four cores each; what it ends in
is decided by evaluation, and `of_returns` and `of_raises` turn the verdict into a
statement about the run.
-/

namespace Nodepilot

/-- Two nodes of four cores, no memory slice, budgets for eight cores. -/
def smallConfig : Config :=
  { ramBudgetGb := 100, coreBudget := 8, memorySlice := "", pauseFile := "" }

theorem reserved_smallConfig : parseCpuList smallConfig.reservedCores = .ok ∅ := by
  decide

/-- A site of two nodes. -/
def smallSite (queue : List Job) (config : Config := smallConfig)
    (hreserved : parseCpuList config.reservedCores = .ok ∅ := by decide) : Site where
  config := config
  queue := queue
  numaNodes := [(0, "0-3"), (1, "4-7")]
  nodes_nodup := by decide
  reserved := ∅
  reserved_eq := hreserved

/-- Two jobs that fit a node each. -/
def twoJobs : List Job :=
  [{ id := "a", command := "true", cores := 2 }, { id := "b", command := "true", cores := 3 }]

/-- What happens on the host between two programs. -/
def happens (events : List Event) : M World Unit :=
  modify fun s : Sys World => { s with world := events.foldl Event.apply s.world }

/-- The program returns in a state as hoped. -/
def returns {α : Type} (result : EStateM.Result Exc (Sys World) α) (hoped : Sys World → Bool) : Bool :=
  match result with
  | .ok _ s => hoped s
  | .error _ _ => false

/-- The program raises in a state as hoped. -/
def raises {α : Type} (result : EStateM.Result Exc (Sys World) α) (hoped : Sys World → Bool) : Bool :=
  match result with
  | .ok _ _ => false
  | .error _ s => hoped s

theorem of_returns {α : Type} {result : EStateM.Result Exc (Sys World) α} {hoped : Sys World → Bool}
    (h : returns result hoped = true) : ∃ a s, result = .ok a s ∧ hoped s = true := by
  cases result with
  | ok a s => exact ⟨a, s, rfl, h⟩
  | error e s => cases h

theorem of_raises {α : Type} {result : EStateM.Result Exc (Sys World) α} {hoped : Sys World → Bool}
    (h : raises result hoped = true) : ∃ e s, result = .error e s ∧ hoped s = true := by
  cases result with
  | ok a s => cases h
  | error e s => exact ⟨e, s, rfl, h⟩

/-- The program returns the answer, in a state as hoped. -/
def comesTo (result : EStateM.Result Exc (Sys World) Bool) (returned : Bool)
    (hoped : Sys World → Bool) : Bool :=
  match result with
  | .ok b s => b == returned && hoped s
  | .error _ _ => false

theorem of_comesTo {result : EStateM.Result Exc (Sys World) Bool} {returned : Bool}
    {hoped : Sys World → Bool} (h : comesTo result returned hoped = true) :
    ∃ s, result = .ok returned s ∧ hoped s = true := by
  cases result with
  | ok b s =>
      rw [comesTo, Bool.and_eq_true, beq_iff_eq] at h
      exact ⟨s, by rw [h.1], h.2⟩
  | error e s => cases h

/-- A tick from the queue is a run. -/
theorem reached_of_tick {site : Site} {gated : Bool} {w : World} {changed : Bool} {s : Sys World}
    (h : tick site (fresh site w) = .ok changed s) : Reached site gated s := by
  refine .op .tick (.fresh w) trivial ?_
  rw [Op.program, Obeys.bind_eq_ok]
  exact ⟨changed, s, h, rfl⟩

/-- A tick starts both of two jobs that fit a node each. -/
theorem reached_twoJobs (gated : Bool) : ∃ s : Sys World, Reached (smallSite twoJobs) gated s ∧
    s.jobs.map Job.status = [.running, .running] ∧ running s.jobs ≠ [] := by
  obtain ⟨changed, s, htick, hends⟩ := of_returns
    (show returns (tick (smallSite twoJobs) (fresh (smallSite twoJobs) {})) (fun s =>
      s.jobs.map Job.status == [.running, .running] && running s.jobs != []) = true by
        decide +kernel)
  rw [Bool.and_eq_true, beq_iff_eq, bne_iff_ne] at hends
  exact ⟨s, reached_of_tick htick, hends⟩

end Nodepilot
