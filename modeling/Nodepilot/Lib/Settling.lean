import Mathlib

/-!
# The outcome of a dependency graph

Tasks wait for others.  A task all of whose needs are done is run and succeeds or
fails as it will; one that needs an unknown task, or one that failed or was
skipped, is skipped.  `Settles` says what becomes of a task, with no mention of
when anything happens: whatever the order in which a scheduler goes about it, a
task that settles settles in one way (`Settles.unique`).

Cycles are allowed.  A task on one, and a task that waits for a task that takes no
part, settles in no way.
-/

namespace Settling

variable {ι : Type}

/-- Tasks with their needs, and which of them succeed when they are run. -/
@[ext] structure Graph (ι : Type) where
  known : ι → Prop
  /-- The tasks that take part. -/
  active : ι → Prop
  known_of_active : ∀ i, active i → known i
  needs : ι → ι → Prop
  good : ι → Prop

inductive Verdict
  | done
  | failed
  | skipped
  deriving DecidableEq

/-- What becomes of a task. -/
inductive Settles (g : Graph ι) : ι → Verdict → Prop
  | done {i : ι} (hactive : g.active i) (hneeds : ∀ j, g.needs i j → Settles g j .done)
      (hgood : g.good i) : Settles g i .done
  | failed {i : ι} (hactive : g.active i) (hneeds : ∀ j, g.needs i j → Settles g j .done)
      (hbad : ¬ g.good i) : Settles g i .failed
  | unknown {i j : ι} (hactive : g.active i) (hneed : g.needs i j) (hunknown : ¬ g.known j) :
      Settles g i .skipped
  | failedNeed {i j : ι} (hactive : g.active i) (hneed : g.needs i j) (h : Settles g j .failed) :
      Settles g i .skipped
  | skippedNeed {i j : ι} (hactive : g.active i) (hneed : g.needs i j) (h : Settles g j .skipped) :
      Settles g i .skipped

variable {g : Graph ι}

theorem Settles.active {i : ι} {v : Verdict} (h : Settles g i v) : g.active i := by
  cases h <;> assumption

theorem Settles.known {i : ι} {v : Verdict} (h : Settles g i v) : g.known i :=
  g.known_of_active i h.active

/-- A task that is run has all its needs done. -/
theorem Settles.needs_done {i j : ι} {v : Verdict} (h : Settles g i v) (hv : v ≠ .skipped)
    (hneed : g.needs i j) : Settles g j .done := by
  cases h with
  | done hactive hneeds hgood => exact hneeds j hneed
  | failed hactive hneeds hbad => exact hneeds j hneed
  | _ => exact absurd rfl hv

/-- A task settles in one way. -/
theorem Settles.unique {i : ι} {v v' : Verdict} (h : Settles g i v) (h' : Settles g i v') :
    v = v' := by
  -- by induction on the first derivation: a need that is done there is done here
  induction h generalizing v' with
  | @done i hactive hneeds hgood ih =>
      cases h' with
      | done => rfl
      | failed hactive' hneeds' hbad => exact absurd hgood hbad
      | unknown hactive' hneed hunknown => exact absurd (hneeds _ hneed).known hunknown
      | failedNeed hactive' hneed h => cases ih _ hneed h
      | skippedNeed hactive' hneed h => cases ih _ hneed h
  | @failed i hactive hneeds hbad ih =>
      cases h' with
      | done hactive' hneeds' hgood => exact absurd hgood hbad
      | failed => rfl
      | unknown hactive' hneed hunknown => exact absurd (hneeds _ hneed).known hunknown
      | failedNeed hactive' hneed h => cases ih _ hneed h
      | skippedNeed hactive' hneed h => cases ih _ hneed h
  | @unknown i j hactive hneed hunknown =>
      by_contra hne
      exact hunknown (h'.needs_done (Ne.symm hne) hneed).known
  | @failedNeed i j hactive hneed h ih =>
      by_contra hne
      cases ih (h'.needs_done (Ne.symm hne) hneed)
  | @skippedNeed i j hactive hneed h ih =>
      by_contra hne
      cases ih (h'.needs_done (Ne.symm hne) hneed)

end Settling
