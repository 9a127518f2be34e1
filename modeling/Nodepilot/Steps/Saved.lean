import Nodepilot.Steps.Turn

/-!
# What a tick has changed is saved

Every loop of the scheduler says whether it has changed a job, and the state file
is written only if one has.  The loops do not lie (`Tells`): one that says it has
changed nothing has left every job as it was, and one that says it has changed
something has moved a status forward, which nothing later in the tick takes back.
So between two ticks the state file, or the queue file while there is none, holds
the jobs as they are (`round_saved`, `startUp_saved`).
-/

namespace Nodepilot

open Obeys Relation

variable {W : Type}

/-! ## How far the jobs have come -/

/-- How far along its life cycle a status is. -/
def JobStatus.rank : JobStatus → ℕ
  | pending | dormant => 0
  | running => 1
  | done | failed | skipped => 2

/-- How far the jobs of a list have come together. -/
def age (jobs : List Job) : ℕ :=
  (jobs.map fun j => j.status.rank).sum

theorem age_modify {jobs : List Job} {i : ℕ} {job : Job} {f : Job → Job}
    (hjob : jobs[i]? = some job) (hrank : job.status.rank < (f job).status.rank) :
    age jobs < age (jobs.modify i f) := by
  induction jobs generalizing i with
  | nil => cases hjob
  | cons j rest ih =>
      cases i with
      | zero =>
          cases hjob
          simp only [age, List.modify_zero_cons, List.map_cons, List.sum_cons]
          omega
      | succ i =>
          have hlater := ih (i := i) hjob
          simp only [age, List.modify_succ_cons, List.map_cons, List.sum_cons] at hlater ⊢
          omega

/-- What a loop says it has done to the jobs is what it has done. -/
structure Tells (changed : Bool) (jobs jobs' : List Job) : Prop where
  grows : changed = true → age jobs < age jobs'
  same : changed = false → jobs' = jobs

namespace Tells

variable {jobs jobs' jobs'' : List Job} {changed later : Bool}

theorem refl (jobs : List Job) : Tells false jobs jobs :=
  ⟨nofun, fun _ => rfl⟩

theorem age_le (h : Tells changed jobs jobs') : age jobs ≤ age jobs' := by
  cases changed with
  | true => exact (h.grows rfl).le
  | false => rw [h.same rfl]

theorem seq (h : Tells changed jobs jobs') (h' : Tells later jobs' jobs'') :
    Tells (changed || later) jobs jobs'' where
  grows htrue := by
    have hle := h.age_le
    have hle' := h'.age_le
    rcases Bool.or_eq_true_iff.mp htrue with hfirst | hlast
    · have := h.grows hfirst
      omega
    · have := h'.grows hlast
      omega
  same hfalse := by
    obtain ⟨hfirst, hlast⟩ := Bool.or_eq_false_iff.mp hfalse
    rw [h'.same hlast, h.same hfirst]

/-- The flag says whether the jobs are still what they were. -/
theorem iff (h : Tells changed jobs jobs') : changed = true ↔ jobs' ≠ jobs := by
  constructor
  · intro htrue heq
    have := h.grows htrue
    rw [heq] at this
    omega
  · intro hne
    by_contra hfalse
    exact hne (h.same (Bool.eq_false_iff.mpr hfalse))

theorem sweep {ι : Type} {body : ι → M W Bool} {I : List ι → Sys W → Prop}
    (hbody : ∀ i rest s b s', I (i :: rest) s → body i s = .ok b s' →
      Tells b s.jobs s'.jobs ∧ I rest s')
    {items : List ι} {s s' : Sys W} {b : Bool} (hI : I items s)
    (h : sweep body items s = .ok b s') : Tells b s.jobs s'.jobs := by
  have hsaid := @sweep_said _ _ _ body (fun rest said t => Tells said s.jobs t.jobs ∧ I rest t)
    (fun i rest said t changed t' ht hrun => ?_) items false b s s' ⟨.refl s.jobs, hI⟩ h
  · rw [Bool.false_or] at hsaid
    exact hsaid.1
  · obtain ⟨htells, hnext⟩ := hbody i rest t changed t' ht.2 hrun
    exact ⟨ht.1.seq htells, hnext⟩

end Tells

/-! ## The loops -/

variable [Host W]

/-- The moves that write into a job. -/
def Label.writes : Label → Bool
  | .ask | .spare _ | .save => false
  | _ => true

/-- Whatever writes into a job moves its status forward. -/
theorem Move.age_lt {site : Site} {gated : Bool} {label : Label} {s s' : Sys W}
    (h : Move site gated label s s') (hwrites : label.writes = true) :
    age s.jobs < age s'.jobs := by
  have hmoved := h.turn
  generalize s'.jobs = jobs' at hmoved
  cases hmoved with
  | reap hjob hrunning hend =>
      apply age_modify hjob
      rw [hrunning, Job.finish_status]
      rcases hend with hend | hend <;> rw [hend] <;> decide
  | skip hjob hpending hblocker =>
      apply age_modify hjob
      rw [hpending]
      exact Nat.zero_lt_two
  | launch hjob hpending hdeps hadmits hplaced =>
      apply age_modify hjob
      rw [hpending]
      exact Nat.zero_lt_one
  | fail hjob hpending hdeps =>
      apply age_modify hjob
      rw [hpending]
      exact Nat.zero_lt_two
  | kill hjob hrunning =>
      apply age_modify hjob
      rw [hrunning]
      exact Nat.one_lt_two
  | clear hjob hrunning =>
      apply age_modify hjob
      rw [hrunning]
      exact Nat.one_lt_two
  | _ => cases hwrites

theorem reapJob_tells {site : Site} {i : ℕ} {s s' : Sys W} {b : Bool}
    (h : reapJob site i s = .ok b s') : Tells b s.jobs s'.jobs := by
  rcases reapJob_turn true h with ⟨rfl, hmove⟩ | ⟨rfl, hasks, -⟩
  · exact ⟨fun _ => hmove.age_lt rfl, nofun⟩
  · exact ⟨nofun, fun _ => jobs_of_asks hasks⟩

theorem reapFinished_tells {site : Site} {s s' : Sys W} {b : Bool}
    (h : reapFinished site s = .ok b s') : Tells b s.jobs s'.jobs := by
  obtain ⟨s₀, s₁, hget, h⟩ := bind_eq_ok.mp h
  cases hget
  exact Tells.sweep (I := fun _ _ => True) (fun i _ _ _ _ _ h => ⟨reapJob_tells h, trivial⟩)
    trivial h

theorem markJob_tells (site : Site) {i : ℕ} {s s' : Sys W} {b : Bool}
    (h : markJob i s = .ok b s') : Tells b s.jobs s'.jobs := by
  have hturn := @markJob_turn _ _ site i s s' b true h
  rcases hturn with ⟨rfl, hmove⟩ | ⟨rfl, rfl, -⟩
  · exact ⟨fun _ => hmove.age_lt rfl, nofun⟩
  · exact .refl _

theorem markPasses_tells (site : Site) {fuel : ℕ} {s s' : Sys W} {b : Bool}
    (h : markPasses fuel s = .ok b s') : Tells b s.jobs s'.jobs := by
  induction fuel generalizing s b with
  | zero =>
      cases h
      exact .refl _
  | succ fuel ih =>
      obtain ⟨s₀, s₁, hget, h⟩ := bind_eq_ok.mp h
      cases hget
      obtain ⟨progressed, s₁, hsweep, h⟩ := bind_eq_ok.mp h
      have hfirst : Tells progressed s.jobs s₁.jobs :=
        Tells.sweep (I := fun _ _ => True)
          (fun i _ _ _ _ _ h => ⟨markJob_tells site h, trivial⟩) trivial hsweep
      cases progressed with
      | true =>
          obtain ⟨later, s₂, hrest, hpure⟩ := bind_eq_ok.mp h
          cases hpure
          have hboth := hfirst.seq (ih hrest)
          rwa [Bool.true_or] at hboth
      | false =>
          cases h
          exact hfirst

theorem markDeadDependents_tells (site : Site) {s s' : Sys W} {b : Bool}
    (h : markDeadDependents s = .ok b s') : Tells b s.jobs s'.jobs := by
  obtain ⟨s₀, s₁, hget, h⟩ := bind_eq_ok.mp h
  cases hget
  exact markPasses_tells site h

theorem launchCandidate_tells {site : Site} {i : ℕ} {s s' : Sys W} {b : Bool}
    (hpending : s.pendingAt i) (h : launchCandidate site i s = .ok b s') :
    Tells b s.jobs s'.jobs := by
  rcases launchCandidate_turn hpending h with ⟨rfl, hmove | hmove⟩ | ⟨rfl, hasks⟩
  · exact ⟨fun _ => hmove.age_lt rfl, nofun⟩
  · exact ⟨fun _ => hmove.age_lt rfl, nofun⟩
  · exact ⟨nofun, fun _ => jobs_of_asks hasks⟩

theorem launchPending_tells {site : Site} {s s' : Sys W} {b : Bool}
    (h : launchPending site s = .ok b s') : Tells b s.jobs s'.jobs := by
  obtain ⟨s₀, s₁, hget, h⟩ := bind_eq_ok.mp h
  cases hget
  refine Tells.sweep (I := fun rest s => (∀ j ∈ rest, s.pendingAt j) ∧ rest.Nodup)
    (fun i rest s b s' hI hrun => ?_)
    ⟨fun j hj => mem_pendingOrder.mp hj, nodup_pendingOrder _⟩ h
  exact ⟨launchCandidate_tells (hI.1 i (List.mem_cons_self ..)) hrun,
    ((launchCandidate_obeys site i rest).returns hI hrun).2⟩

theorem reconcileJob_tells {site : Site} {i : ℕ} {s s' : Sys W} {b : Bool}
    (h : reconcileJob site i s = .ok b s') : Tells b s.jobs s'.jobs := by
  rcases reconcileJob_turn true h with ⟨rfl, hmove⟩ | ⟨rfl, hsame, -⟩
  · exact ⟨fun _ => hmove.age_lt rfl, nofun⟩
  · exact ⟨nofun, fun _ => hsame⟩

/-- A tick says whether it has changed a job. -/
theorem tick_tells {site : Site} {s s' : Sys W} {b : Bool} (h : tick site s = .ok b s') :
    Tells b s.jobs s'.jobs := by
  obtain ⟨reaped, s₁, hreap, h⟩ := bind_eq_ok.mp h
  obtain ⟨marked, s₂, hmark, h⟩ := bind_eq_ok.mp h
  obtain ⟨⟨⟩, s₃, hpins, h⟩ := bind_eq_ok.mp h
  obtain ⟨launched, s₄, hlaunch, hpure⟩ := bind_eq_ok.mp h
  cases hpure
  obtain ⟨w, -, rfl⟩ := quiet_enforcePins.of_ok hpins
  have hbefore : Tells (reaped || marked) s.jobs s₂.jobs :=
    (reapFinished_tells hreap).seq (markDeadDependents_tells site hmark)
  have hpass := launchPending_tells hlaunch
  exact hbefore.seq hpass

/-! ## Saves -/

/-- The state file, or the queue file while there is none, holds the jobs as they are. -/
def Saved (site : Site) (s : Sys W) : Prop :=
  s.stateFile.getD site.queue = s.jobs

theorem saveState_saved (site : Site) {s s' : Sys W} (h : saveState s = .ok () s') : Saved site s' := by
  obtain ⟨now, s₁, -, h⟩ := bind_eq_ok.mp h
  obtain ⟨⟨⟩, s₂, -, h⟩ := bind_eq_ok.mp h
  cases h
  rfl

/-- The moves that do not save leave the state file alone. -/
theorem stateFile_of_path {site : Site} {gated : Bool} {kinds : Label → Bool} {s s' : Sys W}
    (hkinds : kinds .save = false) (hpath : ReflTransGen (Step site gated kinds) s s') :
    s'.stateFile = s.stateFile := by
  induction hpath with
  | refl => rfl
  | tail _ hlast ih =>
      obtain ⟨label, hlabel, hmove⟩ := hlast
      rw [hmove.stateFile_eq, ← ih]
      cases label with
      | save =>
          rw [hkinds] at hlabel
          cases hlabel
      | _ => rfl

/-- After a round everything is saved. -/
theorem round_saved {site : Site} {s s' : Sys W} (h : round site s = .ok () s')
    (hsaved : Saved site s) : Saved site s' := by
  obtain ⟨changed, s₁, htick, hrest⟩ := bind_eq_ok.mp h
  cases changed with
  | true => exact saveState_saved site hrest
  | false =>
      cases hrest
      have hfile := stateFile_of_path rfl ((tick_obeys site).returns trivial htick).1
      rw [Saved, hfile, (tick_tells htick).same rfl]
      exact hsaved

/-- After a search for zombies everything is saved. -/
theorem reconcileZombies_saved {site : Site} {s s' : Sys W}
    (h : reconcileZombies site s = .ok () s') (hsaved : Saved site s) : Saved site s' := by
  obtain ⟨s₂, s₃, hget, h⟩ := bind_eq_ok.mp h
  cases hget
  obtain ⟨cleared, s₄, hsweep, hrest⟩ := bind_eq_ok.mp h
  cases cleared with
  | true => exact saveState_saved site hrest
  | false =>
      cases hrest
      have hpath := ((sweep_inv (I := fun _ => True) fun i _ => reconcileJob_obeys site true i).returns
        trivial hsweep).1
      have htells : Tells false s.jobs s'.jobs :=
        Tells.sweep (I := fun _ _ => True) (fun i _ _ _ _ _ h => ⟨reconcileJob_tells h, trivial⟩)
          trivial hsweep
      rw [Saved, stateFile_of_path rfl hpath, htells.same rfl]
      exact hsaved

/-- After a start-up everything is saved. -/
theorem startUp_saved {site : Site} {s s' : Sys W} (h : startUp site s = .ok () s')
    (hsaved : Saved site s) : Saved site s' := by
  obtain ⟨adjusted, s₁, hadjust, h⟩ := bind_eq_ok.mp h
  obtain ⟨w, -, rfl⟩ := (quiet_setSelfOomScoreAdj _).of_ok hadjust
  exact reconcileZombies_saved h hsaved

/-- After a kill that has found its job everything is saved, and one that has not has changed
nothing. -/
theorem kill_saved {site : Site} {jobId : String} {s s' : Sys W} {killed : Bool}
    (h : kill jobId s = .ok killed s') (hsaved : Saved site s) : Saved site s' := by
  obtain ⟨s₀, s₁, hget, h⟩ := bind_eq_ok.mp h
  cases hget
  cases htarget : killTarget s.jobs jobId with
  | none =>
      simp only [htarget] at h
      cases h
      exact hsaved
  | some i =>
      obtain ⟨job, hjob, -⟩ := killTarget_eq_some htarget
      simp only [htarget, hjob] at h
      obtain ⟨⟨⟩, s₁, -, h⟩ := bind_eq_ok.mp h
      obtain ⟨⟨⟩, s₂, -, h⟩ := bind_eq_ok.mp h
      obtain ⟨⟨⟩, s₃, hsave, hpure⟩ := bind_eq_ok.mp h
      cases hpure
      exact saveState_saved site hsave

end Nodepilot
