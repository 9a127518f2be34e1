import Nodepilot.Machine.Trial
import Nodepilot.Steps.Runs
import Nodepilot.Steps.Saved

/-!
# The state file between two ticks

A process loads its jobs, looks for zombies, ticks, and may be told to kill a job;
in between the world moves as it likes.  Wherever it stands between two of these
(`Boundary`) the state file holds the jobs as they are in memory, or there is none
yet and they are as they were in the queue file (`Current`).  The save after a tick
hangs on one flag, so the other half of `state_file_current` is that the flag is
right: a tick returns `True` exactly if it has changed a job.
-/

namespace Nodepilot

open Obeys

variable {W : Type} [Host W]

/-- Where a process stands between two of its operations.  What was there before it, the state
file included, is left open. -/
inductive Boundary (site : Site) : Sys W → Prop
  | load {s s' : Sys W} (hload : fromQueue site s = .ok () s') : Boundary site s'
  | world {s : Sys W} (w : W) (h : Boundary site s) : Boundary site { s with world := w }
  | reconcile {s s' : Sys W} (h : Boundary site s) (hrun : reconcileZombies site s = .ok () s') :
      Boundary site s'
  /-- An iteration of the loop of `run`. -/
  | round {s s' : Sys W} (h : Boundary site s) (hrun : Nodepilot.round site s = .ok () s') :
      Boundary site s'
  | kill {s s' : Sys W} {killed : Bool} (jobId : String) (h : Boundary site s)
      (hrun : Nodepilot.kill jobId s = .ok killed s') : Boundary site s'

omit [Host W] in
/-- `load_state` gives the jobs back, or there is no state file and the jobs are those of the
queue. -/
def Current (site : Site) (s : Sys W) : Prop :=
  (s.stateFile = none ∧ s.jobs = site.queue) ∨ s.stateFile = some s.jobs

omit [Host W] in
theorem Saved.current {site : Site} {s : Sys W} (h : Saved site s) : Current site s := by
  cases hfile : s.stateFile with
  | none =>
      have heq : site.queue = s.jobs := by simpa [Saved, hfile] using h
      exact Or.inl ⟨hfile, heq.symm⟩
  | some saved =>
      have heq : saved = s.jobs := by simpa [Saved, hfile] using h
      exact Or.inr (by rw [hfile, heq])

theorem Boundary.saved {site : Site} {s : Sys W} (h : Boundary site s) : Saved site s := by
  induction h with
  | load hload =>
      obtain ⟨w, -, rfl⟩ := fromQueue_eq_ok hload
      rfl
  | world w _ ih => exact ih
  | reconcile _ hrun ih => exact reconcileZombies_saved hrun ih
  | round _ hrun ih => exact round_saved hrun ih
  | kill jobId _ hrun ih => exact kill_saved hrun ih

/-- What `run` returns from is a boundary, its own loop and its start-up included. -/
theorem Boundary.run {site : Site} {maxTicks : Option ℕ} {fuel : ℕ} {s s' : Sys W}
    {returned : Bool} (h : Boundary site s) (hrun : Nodepilot.run site maxTicks fuel s = .ok returned s') :
    Boundary site s' := by
  have hloop : ∀ {fuel tick : ℕ} {s s' : Sys W} {returned : Bool}, Boundary site s →
      runLoop site maxTicks tick fuel s = .ok returned s' → Boundary site s' := by
    intro fuel
    induction fuel with
    | zero =>
        intro tick s s' returned h hrun
        cases hrun
        exact h
    | succ fuel ih =>
        intro tick s s' returned h hrun
        obtain ⟨⟨⟩, s₁, hround, hrun⟩ := bind_eq_ok.mp hrun
        obtain ⟨s₂, s₃, hget, hrun⟩ := bind_eq_ok.mp hrun
        cases hget
        have hnext : Boundary site s₁ := .round h hround
        split at hrun
        · cases hrun
          exact hnext
        · split at hrun
          · cases hrun
            exact hnext
          · obtain ⟨⟨⟩, s₄, hsleep, hrun⟩ := bind_eq_ok.mp hrun
            obtain ⟨w, -, rfl⟩ := call_eq_ok.mp hsleep
            exact ih (.world w hnext) hrun
  obtain ⟨⟨⟩, s₁, hstart, hrun⟩ := bind_eq_ok.mp hrun
  obtain ⟨adjusted, s₂, hadjust, hstart⟩ := bind_eq_ok.mp hstart
  obtain ⟨w, -, rfl⟩ := (quiet_setSelfOomScoreAdj _).of_ok hadjust
  exact hloop (.reconcile (.world w h) hstart) hrun

/-- A tick that completes returns `True` exactly if it has changed a job, and between any two
operations of a process the state file is what is in memory. -/
theorem state_file_current (site : Site) :
    (∀ (s s' : Sys W) (changed : Bool), tick site s = .ok changed s' →
      (changed = true ↔ s'.jobs ≠ s.jobs)) ∧
    ∀ s : Sys W, Boundary site s → Current site s :=
  ⟨fun _ _ _ htick => (tick_tells htick).iff, fun _ h => h.saved.current⟩

/-- A tick that starts two jobs, and the state after the save. -/
theorem state_file_current_twoJobs :
    (∃ s s' : Sys World, tick (smallSite twoJobs) s = .ok true s' ∧ s'.jobs ≠ s.jobs) ∧
    ∃ s : Sys World, s.jobs.map Job.status = [.running, .running] ∧ Current (smallSite twoJobs) s := by
  have hfirst : returns (tick (smallSite twoJobs) (fresh (smallSite twoJobs) {})) (fun s =>
      s.jobs.map Job.status == [.running, .running]) = true := by
    decide +kernel
  have hsecond : returns ((do
      fromQueue (smallSite twoJobs)
      round (smallSite twoJobs)) (fresh (smallSite twoJobs) ({} : World))) (fun s =>
        s.jobs.map Job.status == [.running, .running]) = true := by
    decide +kernel
  obtain ⟨changed, s, htick, hends⟩ := of_returns hfirst
  obtain ⟨⟨⟩, s', hrun, hends'⟩ := of_returns hsecond
  rw [beq_iff_eq] at hends hends'
  obtain ⟨⟨⟩, s₁, hload, hround⟩ := bind_eq_ok.mp hrun
  have hstate := state_file_current (W := World) (smallSite twoJobs)
  have hchanged : s.jobs ≠ (fresh (smallSite twoJobs) ({} : World)).jobs := by
    intro heq
    rw [heq] at hends
    cases hends
  have hflag := (hstate.1 _ s changed htick).mpr hchanged
  rw [hflag] at htick
  exact ⟨⟨_, s, htick, hchanged⟩, s', hends', hstate.2 s' (.round (.load hload) hround)⟩

end Nodepilot
