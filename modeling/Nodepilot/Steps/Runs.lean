import Nodepilot.Steps.Turn

/-!
# Runs

A run calls the scheduler's operations in any order, the world moving as it likes
in between.  An operation may raise; the process is gone then, and what goes on is
a new one that loads the state file.  What one turn of the job list keeps holds of
every job list a run reaches and of every one it saves (`Reached.jobs`).
-/

namespace Nodepilot

open Obeys Relation

variable {W : Type} [Host W]

/-- The operations a run is made of. -/
inductive Op
  | reapFinished
  | markDeadDependents
  | enforcePins
  | launchPending
  /-- `_launch` of a single job, without the checks of `_launch_pending`. -/
  | launch (i : ℕ)
  | tick
  | saveState
  | reconcileZombies
  | kill (jobId : String)

namespace Op

/-- The program an operation runs. -/
def program (site : Site) : Op → M W Unit
  | reapFinished => do let _ ← Nodepilot.reapFinished site
  | markDeadDependents => do let _ ← Nodepilot.markDeadDependents
  | enforcePins => Nodepilot.enforcePins
  | launchPending => do let _ ← Nodepilot.launchPending site
  | launch i => do let _ ← Nodepilot.launch site i
  | tick => do let _ ← Nodepilot.tick site
  | saveState => Nodepilot.saveState
  | reconcileZombies => Nodepilot.reconcileZombies site
  | kill jobId => do let _ ← Nodepilot.kill jobId

/-- A single launch is for a waiting job, and not for runs that keep to the gate. -/
def allowed (gated : Bool) (s : Sys W) : Op → Prop
  | launch i => gated = false ∧ s.pendingAt i
  | _ => True

end Op

/-! ## Fewer conditions, more moves -/

theorem Chosen.ungate {site : Site} {i : ℕ} {job : Job} {placement : Placement} {s : Sys W} {w : W}
    (h : Chosen site true i job placement s w) (gated : Bool) :
    Chosen site gated i job placement s w :=
  ⟨h.found, h.pending, fun _ => h.deps rfl, fun _ => h.admitted rfl, h.placed, h.later⟩

theorem Step.ungate {site : Site} {kinds : Label → Bool} (gated : Bool) {s s' : Sys W}
    (h : Step site true kinds s s') : Step site gated kinds s s' := by
  obtain ⟨label, hlabel, hmove⟩ := h
  refine ⟨label, hlabel, ?_⟩
  cases hmove with
  | ask hask => exact .ask hask
  | probe hjob hrunning halive => exact .probe hjob hrunning halive
  | spare hjob hrunning hdead hscope => exact .spare hjob hrunning hdead hscope
  | reap hjob hrunning hdead hreap htime hcooled =>
      exact .reap hjob hrunning hdead hreap htime hcooled
  | skip hjob hpending hblocker htime => exact .skip hjob hpending hblocker htime
  | launch hchosen hstarted htime => exact .launch (hchosen.ungate gated) hstarted htime
  | fail hchosen hunstarted htime => exact .fail (hchosen.ungate gated) hunstarted htime
  | kill hjob hrunning hkill htime => exact .kill hjob hrunning hkill htime
  | clear hjob hrunning hdead hscope htime => exact .clear hjob hrunning hdead hscope htime
  | save => exact .save

theorem Wreck.ungate {site : Site} (gated : Bool) {s s' : Sys W} (h : Wreck site true s s') :
    Wreck site gated s s' := by
  cases h with
  | lost hfile hstarts hseen => exact .lost hfile hstarts hseen
  | unstarted hchosen hunstarted hfile hstarts hlater =>
      exact .unstarted (hchosen.ungate gated) hunstarted hfile hstarts hlater
  | started hchosen hstarted hfile hstarts hlater =>
      exact .started (hchosen.ungate gated) hstarted hfile hstarts hlater
  | killed hjob hrunning hfile hstarts hworld =>
      exact .killed hjob hrunning hfile hstarts hworld

/-- Every kind of move. -/
def Label.any (_ : Label) : Bool :=
  true

/-- Every operation makes only moves. -/
theorem Op.obeys (site : Site) (gated : Bool) (op : Op) :
    Obeys (Step site gated Label.any) (Wreck site gated) (fun s : Sys W => op.allowed gated s)
      (op.program site) fun _ _ => True := by
  have hopen : ∀ {α : Type} {m : M W α} {kinds : Label → Bool}, Makes site gated kinds m →
      Makes site gated Label.any m :=
    fun h => obeys_kinds h fun _ _ => rfl
  have hungate : ∀ {α : Type} {m : M W α} {kinds : Label → Bool}, Makes site true kinds m →
      Makes site gated Label.any m :=
    fun h => hopen (h.mono (fun _ _ => Step.ungate gated) fun _ _ => Wreck.ungate gated)
  have hdrop : ∀ {α : Type} {m : M W α}, Makes site gated Label.any m →
      Makes site gated Label.any (do let _ ← m) :=
    fun h => .bind h fun _ => .pure fun _ _ => trivial
  cases op with
  | reapFinished => exact hdrop (hopen (reapFinished_obeys site gated))
  | markDeadDependents => exact hdrop (hopen (markDeadDependents_obeys site gated))
  | enforcePins => exact quiet_enforcePins.obeys site gated rfl fun _ _ _ => trivial
  | launchPending => exact hdrop (hungate (launchPending_obeys site))
  | tick => exact hdrop (hungate (tick_obeys site))
  | saveState => exact hopen (saveState_obeys site gated)
  | reconcileZombies => exact hopen (reconcileZombies_obeys site gated)
  | kill jobId => exact hdrop (hopen (kill_obeys site gated jobId))
  | launch i =>
      cases gated with
      | true => exact ⟨fun hs _ => absurd hs.1 (by simp), fun hs _ => absurd hs.1 (by simp)⟩
      | false =>
          have hlaunch := (launch_obeys (W := W) site i).weaken
            (P := fun s => (Op.launch i).allowed false s) (fun s hs => hs.2) fun _ _ _ => trivial
          have hlaunch := @obeys_kinds _ _ _ _ _ _ _ Label.any _ _ hlaunch fun _ _ => rfl
          exact .bind hlaunch fun _ => .pure fun _ _ => trivial

/-! ## Reachable states -/

/-- An orchestrator of a site before it has done anything. -/
def fresh (site : Site) (w : W) : Sys W :=
  { jobs := site.queue, world := w }

/-- The states of the runs of a site. -/
inductive Reached (site : Site) (gated : Bool) : Sys W → Prop
  | fresh (w : W) : Reached site gated (fresh site w)
  /-- The world moves on its own. -/
  | world {s : Sys W} (w : W) (h : Reached site gated s) : Reached site gated { s with world := w }
  | op {s s' : Sys W} (op : Op) (h : Reached site gated s) (hallowed : op.allowed gated s)
      (hop : op.program site s = .ok () s') : Reached site gated s'
  /-- The process stops between two operations, and the next one loads the state file. -/
  | resume {s s' : Sys W} (h : Reached site gated s) (hload : fromQueue site s = .ok () s') :
      Reached site gated s'
  /-- An operation raises, which ends the process. -/
  | crash {s s₁ s' : Sys W} {e : Exc} (op : Op) (h : Reached site gated s)
      (hallowed : op.allowed gated s) (hop : op.program site s = .error e s₁)
      (hload : fromQueue site s₁ = .ok () s') : Reached site gated s'

theorem fromQueue_eq_ok {site : Site} {s s' : Sys W} (h : fromQueue site s = .ok () s') :
    ∃ w, Later s.world w ∧
      s' = { s with
        jobs := s.stateFile.getD site.queue, cooldownUntil := 0, procs := [], world := w } := by
  obtain ⟨⟨⟩, s₁, hmodify, h⟩ := bind_eq_ok.mp h
  cases hmodify
  split at h
  · obtain ⟨found, s₂, hwhich, h⟩ := bind_eq_ok.mp h
    obtain ⟨w, hanswer, rfl⟩ := call_eq_ok.mp hwhich
    cases found with
    | true =>
        cases h
        exact ⟨w, .of_ok rfl hanswer, rfl⟩
    | false => cases h
  · cases h
    exact ⟨_, .refl _, rfl⟩

/-- What a wreck leaves in the state file. -/
theorem Wreck.stateFile_eq {site : Site} {gated : Bool} {s s' : Sys W}
    (h : Wreck site gated s s') : s'.stateFile = s.stateFile := by
  cases h with
  | lost hfile => exact hfile
  | unstarted _ _ hfile => exact hfile
  | started _ _ hfile => exact hfile
  | killed _ _ hfile => exact hfile

/-- What every turn keeps holds of the jobs of every run, and of the jobs it saves. -/
theorem Reached.jobs {site : Site} {gated : Bool} {J : List Job → Prop} (hqueue : J site.queue)
    (hturn : ∀ label jobs jobs', Turn site gated label jobs jobs' → J jobs → J jobs')
    {s : Sys W} (h : Reached site gated s) :
    J s.jobs ∧ ∀ saved, s.stateFile = some saved → J saved := by
  have hstep : ∀ s s' : Sys W, Step site gated Label.any s s' →
      (J s.jobs ∧ ∀ saved, s.stateFile = some saved → J saved) →
      J s'.jobs ∧ ∀ saved, s'.stateFile = some saved → J saved := by
    rintro s s' ⟨label, -, hmove⟩ ⟨hjobs, hsaved⟩
    refine ⟨hturn _ _ _ hmove.turn hjobs, fun saved hfile => ?_⟩
    rw [hmove.stateFile_eq] at hfile
    split at hfile
    · cases hfile
      exact hjobs
    · exact hsaved saved hfile
  have hload : ∀ s s' : Sys W, (∀ saved, s.stateFile = some saved → J saved) →
      fromQueue site s = .ok () s' →
      J s'.jobs ∧ ∀ saved, s'.stateFile = some saved → J saved := by
    intro s s' hsaved hload
    obtain ⟨w, -, rfl⟩ := fromQueue_eq_ok hload
    refine ⟨?_, hsaved⟩
    cases hfile : s.stateFile with
    | none => exact hqueue
    | some saved => exact hsaved saved hfile
  induction h with
  | fresh w => exact ⟨hqueue, nofun⟩
  | world w h ih => exact ih
  | op op h hallowed hop ih =>
      exact invariant_of_path hstep ((op.obeys site gated).returns hallowed hop).1 ih
  | resume h hload' ih => exact hload _ _ ih.2 hload'
  | crash op h hallowed hop hload' ih =>
      obtain ⟨mid, hpath, hwreck⟩ := (op.obeys site gated).raises hallowed hop
      have hmid := invariant_of_path hstep hpath ih
      refine hload _ _ (fun saved hfile => hmid.2 saved ?_) hload'
      rw [← hwreck.stateFile_eq]
      exact hfile

end Nodepilot
