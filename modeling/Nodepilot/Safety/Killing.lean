import Nodepilot.Machine.Restart
import Nodepilot.Safety.Exclusivity
import Nodepilot.Safety.LifeCycle
import Nodepilot.Steps.Idle

/-!
# Kills and cores

`kill` signals the process of a job, waits five seconds for it, and marks the job
as failed whatever the process has done: from then on its cores count as free.

As long as every process that lives has a running job that holds the same block
(`Pinned`), a launch is onto CPUs of the dead only, for the block is chosen outside
those of the running jobs.  A tick keeps this: a job is reaped only once its process
has ended.  A kill keeps it if the process has ended by the time it returns, or by the
time it raises if the job is marked already, as where the save fails.
-/

namespace Nodepilot

open Obeys Relation

/-! ## What a kill does -/

section Kill

variable {W : Type} [Host W] {s s' : Sys W}

/-- A kill has found a running job, signalled its process and marked the job as failed; the
save that comes after that may have been made or not. -/
inductive Marks (jobId : String) (s s' : Sys W) : Prop
  | mark {i : ℕ} {job : Job} {s₁ : Sys W} {f : Job → Job} (hjob : s.jobs[i]? = some job)
      (hid : job.id = jobId) (hrunning : job.status = .running)
      (hkilled : killJob job s = .ok () s₁) (hids : ∀ j, (f j).id = j.id)
      (hfailed : ∀ j, (f j).status = .failed) (hjobs : s'.jobs = s₁.jobs.modify i f)
      (hprocs : s'.procs = s₁.procs) (hlater : Later s₁.world s'.world)

/-- What a kill does once the process has been signalled. -/
theorem marks_of_signalled {jobId : String} {i : ℕ} {job : Job} {s₁ s₂ : Sys W}
    (hjob : s.jobs[i]? = some job) (hid : job.id = jobId) (hrunning : job.status = .running)
    (hkilled : killJob job s = .ok () s₁) (hmark : markKilled i s₁ = .ok () s₂)
    (hjobs : s'.jobs = s₂.jobs) (hprocs : s'.procs = s₂.procs) (hlater : Later s₂.world s'.world) :
    Marks jobId s s' := by
  obtain ⟨⟨⟩, s₃, hset, hmark⟩ := bind_eq_ok.mp hmark
  cases hset
  obtain ⟨now, s₄, hcall, hmark⟩ := bind_eq_ok.mp hmark
  obtain ⟨w₁, htime, rfl⟩ := call_eq_ok.mp hcall
  cases hmark
  have hbefore : Later s₁.world w₁ := .of_ok rfl htime
  refine .mark (f := Job.fail "killed_by_user" now) hjob hid hrunning hkilled (fun _ => rfl)
    (fun _ => rfl) ?_ hprocs (hbefore.trans hlater)
  rw [hjobs]
  simp only [List.modify_modify_eq]
  rfl

/-- What saving leaves as it is. -/
theorem saveState_eq_ok (h : saveState s = .ok () s') :
    s'.jobs = s.jobs ∧ s'.procs = s.procs ∧ Later s.world s'.world := by
  obtain ⟨now, s₁, hcall, h⟩ := bind_eq_ok.mp h
  obtain ⟨w₁, htime, rfl⟩ := call_eq_ok.mp hcall
  obtain ⟨⟨⟩, s₂, hcall, h⟩ := bind_eq_ok.mp h
  obtain ⟨w₂, hwrite, rfl⟩ := call_eq_ok.mp hcall
  cases h
  have hlater : Later s.world w₁ := .of_ok rfl htime
  exact ⟨rfl, rfl, hlater.trans (.of_ok rfl hwrite)⟩

/-- A save that raises leaves all of it. -/
theorem saveState_eq_error {e : Exc} (h : saveState s = .error e s') :
    s'.jobs = s.jobs ∧ s'.procs = s.procs ∧ Later s.world s'.world := by
  rcases bind_eq_error.mp h with h | ⟨now, s₁, hcall, h⟩
  · obtain ⟨w₁, htime, rfl⟩ := call_eq_error.mp h
    exact ⟨rfl, rfl, .of_error rfl htime⟩
  · obtain ⟨w₁, htime, rfl⟩ := call_eq_ok.mp hcall
    have hlater : Later s.world w₁ := .of_ok rfl htime
    rcases bind_eq_error.mp h with h | ⟨⟨⟩, s₂, -, h⟩
    · obtain ⟨w₂, hwrite, rfl⟩ := call_eq_error.mp h
      exact ⟨rfl, rfl, hlater.trans (.of_error rfl hwrite)⟩
    · cases h

/-- What a kill that has found a running job does. -/
theorem kill_eq_true {jobId : String} (h : kill jobId s = .ok true s') : Marks jobId s s' := by
  obtain ⟨s₀, s₁, hget, h⟩ := bind_eq_ok.mp h
  cases hget
  cases htarget : killTarget s.jobs jobId with
  | none =>
      simp only [htarget] at h
      cases h
  | some i =>
      obtain ⟨job, hjob, hid, hrunning⟩ := killTarget_eq_some htarget
      simp only [htarget, hjob] at h
      obtain ⟨⟨⟩, s₁, hkill, h⟩ := bind_eq_ok.mp h
      obtain ⟨⟨⟩, s₂, hmark, h⟩ := bind_eq_ok.mp h
      obtain ⟨⟨⟩, s₃, hsave, hpure⟩ := bind_eq_ok.mp h
      cases hpure
      obtain ⟨hjobs, hprocs, hlater⟩ := saveState_eq_ok hsave
      exact marks_of_signalled hjob hid hrunning hkill hmark hjobs hprocs hlater

/-- A kill that raises has raised while it signalled the process, and the job still runs for
the scheduler; or it has marked the job before. -/
theorem kill_eq_error {jobId : String} {e : Exc} (h : kill jobId s = .error e s') :
    (∃ (i : ℕ) (job : Job), s.jobs[i]? = some job ∧ job.status = .running ∧
      killJob job s = .error e s') ∨
      Marks jobId s s' := by
  rcases bind_eq_error.mp h with h | ⟨s₀, s₁, hget, h⟩
  · cases h
  cases hget
  cases htarget : killTarget s.jobs jobId with
  | none =>
      simp only [htarget] at h
      cases h
  | some i =>
      obtain ⟨job, hjob, hid, hrunning⟩ := killTarget_eq_some htarget
      simp only [htarget, hjob] at h
      rcases bind_eq_error.mp h with h | ⟨⟨⟩, s₁, hkill, h⟩
      · exact Or.inl ⟨i, job, hjob, hrunning, h⟩
      refine Or.inr ?_
      rcases bind_eq_error.mp h with h | ⟨⟨⟩, s₂, hmark, h⟩
      · -- the clock is read between the two assignments
        rcases bind_eq_error.mp h with h | ⟨⟨⟩, s₂, hset, h⟩
        · cases h
        cases hset
        rcases bind_eq_error.mp h with h | ⟨now, s₃, -, h⟩
        · obtain ⟨w, htime, rfl⟩ := call_eq_error.mp h
          refine .mark (f := fun j => { j with status := .failed, failureReason := "killed_by_user" })
            hjob hid hrunning hkill (fun _ => rfl) (fun _ => rfl) rfl rfl ?_
          exact Later.of_error rfl htime
        · cases h
      · rcases bind_eq_error.mp h with h | ⟨⟨⟩, s₃, -, h⟩
        · obtain ⟨hjobs, hprocs, hlater⟩ := saveState_eq_error h
          exact marks_of_signalled hjob hid hrunning hkill hmark hjobs hprocs hlater
        · cases h

/-- A kill that has found no running job has done nothing. -/
theorem kill_eq_false {jobId : String} (h : kill jobId s = .ok false s') : s' = s := by
  obtain ⟨s₀, s₁, hget, h⟩ := bind_eq_ok.mp h
  cases hget
  cases htarget : killTarget s.jobs jobId with
  | none =>
      simp only [htarget] at h
      cases h
      rfl
  | some i =>
      obtain ⟨job, hjob, -, -⟩ := killTarget_eq_some htarget
      simp only [htarget, hjob] at h
      obtain ⟨⟨⟩, s₁, -, h⟩ := bind_eq_ok.mp h
      obtain ⟨⟨⟩, s₂, -, h⟩ := bind_eq_ok.mp h
      obtain ⟨⟨⟩, s₃, -, hpure⟩ := bind_eq_ok.mp h
      cases hpure

/-- A program on the way of which nothing is started. -/
abbrev Tends {α : Type} (m : M W α) : Prop :=
  Obeys (fun s s' => Tended s.world s'.world) (· = ·) (fun _ => True) m fun _ _ => True

theorem tends_call {α : Type} {c : Syscall α} (hc : c.starts = false) : Tends (call c : M W α) :=
  (call_handled hc).mono (fun s s' h => by
    obtain ⟨procs, w, htended, rfl⟩ := h
    exact htended) fun _ _ h => h

theorem tends_modify {f : Sys W → Sys W} (hf : ∀ s, (f s).world = s.world) :
    Tends (modify f : M W Unit) := by
  refine .modify fun s _ => ⟨?_, trivial⟩
  rw [hf]
  exact .refl _

theorem tends_saveState : Tends (saveState (W := W)) :=
  .bind (tends_call rfl) fun _ => .bind (tends_call rfl) fun _ => tends_modify fun _ => rfl

/-- However it ends, a kill starts nothing. -/
theorem tends_kill (jobId : String) : Tends (kill (W := W) jobId) := by
  have hkillJob : ∀ job : Job, Tends (killJob (W := W) job) := fun job =>
    (killJob_handled job).mono (fun s s' h => by
      obtain ⟨procs, w, htended, rfl⟩ := h
      exact htended) fun _ _ h => h
  refine .get_bind fun s _ => ?_
  cases killTarget s.jobs jobId with
  | none => exact .pure fun _ _ => trivial
  | some i =>
      dsimp only
      cases s.jobs[i]? with
      | none => exact .pure fun _ _ => trivial
      | some job =>
          refine .bind ((hkillJob job).weaken (fun _ _ => trivial) fun _ _ _ => trivial) fun _ => ?_
          refine .bind (.bind (tends_modify fun _ => rfl) fun _ => .bind (tends_call rfl) fun now =>
            tends_modify fun _ => rfl) fun _ => ?_
          exact .bind tends_saveState fun _ => .pure fun _ _ => trivial

theorem kill_tended {jobId : String} {e : Exc} (h : kill jobId s = .error e s') :
    Tended s.world s'.world := by
  obtain ⟨mid, hpath, rfl⟩ := (tends_kill jobId).raises trivial h
  exact invariant_of_path (I := fun s₁ : Sys W => Tended s.world s₁.world)
    (fun _ _ hstep hbefore => hbefore.trans hstep) hpath (.refl _)

end Kill

/-! ## On the machine -/

theorem aged_of_path {waited : Set ℕ} {w w' : World} (h : ReflTransGen (Aged waited) w w') :
    Aged waited w w' := by
  induction h with
  | refl => exact .refl waited w
  | tail _ hlast ih => exact ih.trans hlast

theorem after_killpg_aged (pid : ℤ) (w : World) : Aged ∅ w (after (.killpg pid) w) := by
  cases hanswer : Host.answer (.killpg pid) w with
  | ok a w' =>
      rw [after_of_ok hanswer]
      have heffect := answer_ok hanswer
      have hsame : w' = w.advance := by
        rcases w.advance.signal_eq pid with heq | heq | heq <;>
          rw [show w.advance.effect (.killpg pid) = w.advance.signal pid from rfl, heq] at heffect <;>
          cases heffect
        rfl
      rw [hsame]
      exact w.advance_aged ∅
  | error e w' =>
      rw [after_of_error hanswer, answer_error hanswer]
      exact w.advance_aged ∅

/-- The signal itself ends nobody: what a process makes of it is up to the process. -/
theorem only_signalGroup (pid : ℤ) : Only (Aged ∅) (signalGroup (W := World) pid) := by
  refine .tryExcept (.bind (.of_after fun w => after_harmless_aged rfl w) fun pgid => ?_)
    fun _ => .pure _
  exact .of_after fun w => after_killpg_aged pgid w

theorem signalGroup_aged {pid : ℤ} {s s' : Sys World} (h : signalGroup pid s = .ok () s') :
    ∃ w, Aged ∅ s.world w ∧ s' = { s with world := w } := by
  obtain ⟨w, hpath, rfl⟩ := (only_signalGroup pid).of_ok h
  exact ⟨w, aged_of_path hpath, rfl⟩

/-- Waiting collects the child, if it ends in time. -/
theorem wait_aged (proc : Popen) (w : World) : Aged {proc.serial} w (after (.wait proc) w) := by
  cases hanswer : Host.answer (.wait proc) w with
  | error e w' =>
      rw [after_of_error hanswer, answer_error hanswer]
      exact w.advance_aged _
  | ok rc w' =>
      rw [after_of_ok hanswer]
      have heffect := answer_ok hanswer
      simp only [World.effect] at heffect
      split at heffect
      · cases heffect
      · rename_i rc' hexit
        cases heffect
        refine (w.advance_aged _).trans (.of_modify rfl rfl rfl fun p hp => ?_)
        rw [hp, Option.bind_some] at hexit
        refine ⟨⟨rfl, rfl, rfl, fun _ h => h, fun _ => rfl, fun _ => Or.inr ?_⟩, rfl, ?_⟩
        · rw [hexit]
          exact Option.some_ne_none _
        · exact fun hspared => absurd rfl hspared

/-- Killing a job that has a handle takes the handle away, and waits for no other process. -/
theorem killJob_handle_machine {job : Job} {n : ℕ} {s s' : Sys World} {proc : Popen}
    (hsession : job.session = pidSession n) (hproc : s.procs.lookup (n : ℤ) = some proc)
    (h : killJob job s = .ok () s') :
    ∃ w, Aged {proc.serial} s.world w ∧
      s' = { s with procs := popProc s.procs n, world := w } := by
  rw [killJob, hsession, tracked_pidSession] at h
  obtain ⟨pid, s₁, hlift, h⟩ := bind_eq_ok.mp h
  rw [pyInt_natText] at hlift
  cases hlift
  obtain ⟨⟨⟩, s₂, hsignal, h⟩ := bind_eq_ok.mp h
  obtain ⟨w₁, haged, rfl⟩ := signalGroup_aged hsignal
  obtain ⟨s₃, s₄, hget, h⟩ := bind_eq_ok.mp h
  cases hget
  simp only [hproc] at h
  obtain ⟨⟨⟩, s₅, hwait, h⟩ := bind_eq_ok.mp h
  cases h
  have honly : Only (Aged {proc.serial}) (tryExcept (do let _ ← call (.wait proc))
      (fun cls => cls == .timeoutExpired || cls.isOSError) fun _ => pure () : M World Unit) :=
    .tryExcept (.bind (.of_after (wait_aged proc)) fun _ => .pure _) fun _ => .pure _
  obtain ⟨w₂, hpath, rfl⟩ := honly.of_ok hwait
  exact ⟨w₂, (haged.mono (Set.empty_subset _)).trans (aged_of_path hpath), rfl⟩

/-- A killing that raises has waited for nobody and has kept the handle. -/
theorem killJob_handle_raises {job : Job} {n : ℕ} {s s' : Sys World} {proc : Popen} {e : Exc}
    (hsession : job.session = pidSession n) (hproc : s.procs.lookup (n : ℤ) = some proc)
    (h : killJob job s = .error e s') :
    ∃ w, Aged ∅ s.world w ∧ s' = { s with world := w } := by
  rw [killJob, hsession, tracked_pidSession] at h
  rcases bind_eq_error.mp h with h | ⟨pid, s₁, hlift, h⟩
  · rw [pyInt_natText] at h
    cases h
  rw [pyInt_natText] at hlift
  cases hlift
  rcases bind_eq_error.mp h with h | ⟨⟨⟩, s₂, hsignal, h⟩
  · obtain ⟨w, hpath, rfl⟩ := (only_signalGroup n).of_error h
    exact ⟨w, aged_of_path hpath, rfl⟩
  obtain ⟨w₁, haged, rfl⟩ := signalGroup_aged hsignal
  rcases bind_eq_error.mp h with h | ⟨s₃, s₄, hget, h⟩
  · cases h
  cases hget
  simp only [hproc] at h
  rcases bind_eq_error.mp h with h | ⟨⟨⟩, s₅, -, h⟩
  · rcases tryExcept_eq_error.mp h with ⟨h, -⟩ | ⟨e₁, s₅, -, -, h⟩
    · rcases bind_eq_error.mp h with h | ⟨rc, s₅, -, h⟩
      · obtain ⟨w₂, hwait, rfl⟩ := call_eq_error.mp h
        rw [answer_error hwait]
        exact ⟨_, haged.trans (w₁.advance_aged ∅), rfl⟩
      · cases h
    · cases h
  · cases h

/-! ## Living processes and running jobs -/

/-- Every launch so far was onto CPUs of no job whose process was alive. -/
def LaunchedApart (w : World) : Prop :=
  ∀ launch ∈ w.launches, ∀ other ∈ launch.alive, Disjoint (blockOf launch.job) (blockOf other)

/-- A process has a running job that holds its block. -/
def Owned (s : Sys World) (k : ℕ) (p : Proc) : Prop :=
  ∃ (i : ℕ) (job : Job) (n : ℕ), s.jobs[i]? = some job ∧ job.status = .running ∧
    HasHandle s.procs s.world job n k p ∧ blockOf job = blockOf p.job

/-- Every process that lives has a running job that holds its block. -/
structure Pinned (s : Sys World) : Prop where
  supervised : Supervised s
  ids : (s.jobs.map Job.id).Nodup
  owned : ∀ (k : ℕ) (p : Proc), s.world.procs[k]? = some p → p.exit = none → Owned s k p

/-- A launch where every living process is owned is onto CPUs of the dead. -/
theorem Pinned.disjoint {site : Site} {s : Sys World} {w : World} {waited : Set ℕ} {job : Job}
    {placement : Placement} (h : Pinned s) (hplaced : Placeable site s.jobs job placement)
    (haged : Aged waited s.world w) {other : Job} (hmem : other ∈ w.aliveJobs) :
    Disjoint (blockOf (job.place placement)) (blockOf other) := by
  obtain ⟨p, hp, rfl⟩ := List.mem_map.mp hmem
  obtain ⟨hp, halive⟩ := List.mem_filter.mp hp
  obtain ⟨k, hk⟩ := List.mem_iff_getElem?.mp hp
  obtain ⟨p₀, hp₀, hages⟩ := haged.back hk
  obtain ⟨i, owner, n, howner, hrunning, -, hblock⟩ :=
    h.owned k p₀ hp₀ (hages.alive (by simpa using halive))
  rw [hages.job, ← hblock]
  exact (holds_of_placeable (job.place placement) hplaced rfl rfl rfl).2 owner
    (List.mem_of_getElem? howner) hrunning

theorem LaunchedApart.of_launches {w w' : World} (h : LaunchedApart w)
    (hlaunches : w'.launches = w.launches) : LaunchedApart w' := by
  intro launch hmem
  rw [hlaunches] at hmem
  exact h launch hmem

theorem Pinned.apart_of_started {site : Site} {gated : Bool} {i : ℕ} {job : Job}
    {placement : Placement} {argv : List String} {s s₁ : Sys World} {w : World} (h : Pinned s)
    (hrunner : site.config.runner ≠ "tmux") (hchosen : Chosen site gated i job placement s w)
    (hstarted : Started site i (job.place placement) argv (placing s i placement w) s₁)
    (hapart : LaunchedApart s.world) : LaunchedApart s₁.world := by
  obtain ⟨w₁, haged, hlaunches, -⟩ := hstarted.adds hrunner
  have hbefore : Aged ∅ s.world w := Later.aged hchosen.later
  intro launch hmem other hother
  rw [hlaunches] at hmem
  rcases List.mem_cons.mp hmem with rfl | hmem
  · exact h.disjoint hchosen.placed (hbefore.trans haged) hother
  · rw [show (placing s i placement w).world.launches = s.world.launches from hbefore.launches] at hmem
    exact hapart launch hmem other hother

/-! ## The moves of a round -/

section Moves

variable {site : Site} {gated : Bool} {label : Label} {s s' : Sys World}

/-- A round ends a running job by reaping it only. -/
theorem Move.running_kept (hmove : Move site gated label s s') (hlabel : label.inRound = true)
    {j : ℕ} {job : Job} (hjob : s.jobs[j]? = some job) (hrunning : job.status = .running) :
    s'.jobs[j]? = some job ∨ label = .reap j := by
  have hother : ∀ {i : ℕ} {f : Job → Job}, j ≠ i → (s.jobs.modify i f)[j]? = some job := by
    intro i f hne
    simpa [List.getElem?_modify_ne, hne.symm] using hjob
  have hne : ∀ {i : ℕ} {other : Job}, s.jobs[i]? = some other → other.status = .pending → j ≠ i := by
    rintro i other hother hpending rfl
    rw [hjob] at hother
    cases hother
    rw [hrunning] at hpending
    cases hpending
  cases hmove with
  | ask => exact Or.inl hjob
  | probe => exact Or.inl hjob
  | save => exact Or.inl hjob
  | @reap _ i =>
      by_cases hi : j = i
      · exact Or.inr (by rw [hi])
      · exact Or.inl (hother hi)
  | skip hpending hstatus => exact Or.inl (hother (hne hpending hstatus))
  | fail hchosen => exact Or.inl (hother (hne hchosen.found hchosen.pending))
  | launch hchosen hstarted =>
      obtain ⟨session, hlist⟩ := hstarted.launched
      simp only [hlist]
      exact Or.inl (hother (hne hchosen.found hchosen.pending))
  | spare => cases hlabel
  | kill => cases hlabel
  | clear => cases hlabel

/-- The owner of a process that outlives a move of a round is still its owner. -/
theorem Owned.kept (hmove : Move site gated label s s') (hrunner : site.config.runner ≠ "tmux")
    (hlabel : label.inRound = true) (h : Pinned s) {k : ℕ} {p q : Proc} (howned : Owned s k p)
    (hq : s'.world.procs[k]? = some q) (hages : Ages p q)
    (halive : q.exit = none) : Owned s' k q := by
  obtain ⟨i, job, n, hjob, hrunning, hhandle, hblock⟩ := howned
  rcases hmove.running_kept hlabel hjob hrunning with hkept | rfl
  · obtain ⟨q', hq'⟩ := hmove.keeps_handle hrunner hlabel h.ids h.supervised hjob hrunning hkept
      hhandle
    have hsame : q' = q := Option.some.inj (hq'.proc.symm.trans hq)
    subst hsame
    refine ⟨i, job, n, hkept, hrunning, hq', ?_⟩
    rw [hblock, hages.job]
  · -- the job is reaped, so its process has ended
    exfalso
    cases hmove with
    | reap hjob' _ hdead hreap htime hcooled =>
        rw [hjob] at hjob'
        cases hjob'
        obtain ⟨-, q', rc, -, hq', hexit, -⟩ :=
          reap_aged hhandle.session hhandle.handle hdead hreap htime hcooled
        rw [hq] at hq'
        cases hq'
        rw [halive] at hexit
        cases hexit

/-- A move of a round keeps every living process owned. -/
theorem Move.pinned (hmove : Move site gated label s s') (hrunner : site.config.runner ≠ "tmux")
    (hlabel : label.inRound = true) (h : Pinned s) : Pinned s' := by
  have hids : (s'.jobs.map Job.id).Nodup := by
    rw [hmove.turn.progress.ids]
    exact h.ids
  refine ⟨hmove.supervised hrunner hlabel h.ids h.supervised, hids, fun k q hq halive => ?_⟩
  have hold : ∀ {p : Proc}, s.world.procs[k]? = some p → Ages p q → Owned s' k q := by
    intro p hp hages
    exact (h.owned k p hp (hages.alive halive)).kept hmove hrunner hlabel h hq hages halive
  by_cases hlaunch : ∃ i, label = .launch i
  · obtain ⟨i, rfl⟩ := hlaunch
    cases hmove with
    | @launch _ s₁ _ job placement argv w w₂ now hchosen hstarted htime =>
        have hafter : Aged ∅ s₁.world w₂ := Later.aged (.of_ok rfl htime)
        obtain ⟨q₁, hq₁, hages⟩ := hafter.back hq
        obtain ⟨w₁, -, -, hprocs⟩ := hstarted.adds hrunner
        rcases hprocs k q₁ hq₁ with ⟨p, hp, hages'⟩ | ⟨-, hjob, n, hjobs, hhandle⟩
        · obtain ⟨p₀, hp₀, hages₀⟩ := (Later.aged hchosen.later).back hp
          exact hold hp₀ ((hages₀.toAges.trans hages').trans hages.toAges)
        · obtain ⟨q', hq'⟩ := hhandle.aged hafter (Set.notMem_empty k)
          have hsame : q' = q := Option.some.inj (hq'.proc.symm.trans hq)
          subst hsame
          refine ⟨i, Job.begin now (Job.track (pidSession n) (job.place placement)), n, ?_, rfl,
            ⟨hq'.session, hq'.handle, hq'.proc, hq'.track, hq'.owner, hq'.uncollected, hq'.child⟩, ?_⟩
          · simp only [hjobs, placing, List.modify_modify_eq, List.getElem?_modify_eq, hchosen.found]
            rfl
          · rw [hages.job, hjob]
            rfl
  · have haged : Aged Set.univ s.world s'.world := by
      refine hmove.aged hrunner (fun i hi => hlaunch ⟨i, hi⟩) fun i hi => ?_
      rw [hi] at hlabel
      cases hlabel
    obtain ⟨p, hp, hages⟩ := haged.back hq
    exact hold hp hages.toAges

/-- A move of a round launches onto CPUs of the dead. -/
theorem Move.launchedApart (hmove : Move site gated label s s')
    (hrunner : site.config.runner ≠ "tmux") (hlabel : label.inRound = true) (h : Pinned s)
    (hapart : LaunchedApart s.world) : LaunchedApart s'.world := by
  by_cases hlaunch : ∃ i, label = .launch i
  · obtain ⟨i, rfl⟩ := hlaunch
    cases hmove with
    | @launch _ s₁ _ job placement argv w w₂ now hchosen hstarted htime =>
        have hafter : Aged ∅ s₁.world w₂ := Later.aged (.of_ok rfl htime)
        exact (h.apart_of_started hrunner hchosen hstarted hapart).of_launches hafter.launches
  · have haged : Aged Set.univ s.world s'.world := by
      refine hmove.aged hrunner (fun i hi => hlaunch ⟨i, hi⟩) fun i hi => ?_
      rw [hi] at hlabel
      cases hlabel
    exact hapart.of_launches haged.launches

/-- So does what breaks off. -/
theorem Wreck.launchedApart (hwreck : Wreck site gated s s') (hrunner : site.config.runner ≠ "tmux")
    (h : Pinned s) (hapart : LaunchedApart s.world) : LaunchedApart s'.world := by
  cases hwreck with
  | lost _ _ hseen => exact hapart.of_launches (Seen.aged hseen).launches
  | @unstarted i job placement argv e w w₁ hchosen hunstarted _ _ hlater =>
      have haged : Aged ∅ s.world s'.world :=
        ((Later.aged hchosen.later).trans (hunstarted.aged hrunner)).trans (Later.aged hlater)
      exact hapart.of_launches haged.launches
  | started hchosen hstarted _ _ hlater =>
      have hstart := h.apart_of_started hrunner hchosen hstarted hapart
      exact hstart.of_launches (Later.aged hlater).launches
  | killed _ _ _ _ htended => exact hapart.of_launches htended.launches

end Moves

/-! ## Kills -/

/-- Every process started for jobs of an id has ended. -/
def Gone (jobId : String) (w : World) : Prop :=
  ∀ p ∈ w.procs, p.job.id = jobId → p.exit ≠ none

/-- What happens on the host while the scheduler waits for no process leaves every living
process its owner. -/
theorem Pinned.aged {s : Sys World} {w : World} (h : Pinned s) (haged : Aged ∅ s.world w)
    (hwell : WellFormed w) : Pinned { s with world := w } := by
  refine ⟨⟨hwell, fun i job hjob hrunning => ?_⟩, h.ids, fun k q hq halive => ?_⟩
  · obtain ⟨n, k, p, hhandle⟩ := h.supervised.handle i job hjob hrunning
    obtain ⟨q, hq⟩ := hhandle.aged haged (Set.notMem_empty k)
    exact ⟨n, k, q, hq⟩
  · obtain ⟨p, hp, hages⟩ := haged.back hq
    obtain ⟨i, job, n, hjob, hrunning, hhandle, hblock⟩ := h.owned k p hp (hages.alive halive)
    obtain ⟨q', hq'⟩ := hhandle.aged haged (Set.notMem_empty k)
    have hsame : q' = q := Option.some.inj (hq'.proc.symm.trans hq)
    subst hsame
    exact ⟨i, job, n, hjob, hrunning, hq', hblock.trans (congrArg blockOf hages.job.symm)⟩

/-- A killing that raises leaves the job running, with its handle. -/
theorem Pinned.killJob_raises {i : ℕ} {job : Job} {e : Exc} {s s' : Sys World} (h : Pinned s)
    (hjob : s.jobs[i]? = some job) (hrunning : job.status = .running)
    (hkill : killJob job s = .error e s') : Pinned s' ∧ s'.world.launches = s.world.launches := by
  obtain ⟨n, k, p, hhandle⟩ := h.supervised.handle i job hjob hrunning
  have hwell : WellFormed s'.world := by
    obtain ⟨mid, hpath, rfl⟩ := (killJob_handled job).raises trivial hkill
    obtain ⟨procs, w, htended, rfl⟩ := handled_of_path hpath
    exact htended.onward.wellFormed h.supervised.well
  obtain ⟨w, haged, rfl⟩ := killJob_handle_raises hhandle.session hhandle.handle hkill
  exact ⟨h.aged haged hwell, haged.launches⟩

/-- A kill after which the process is gone keeps every living process owned. -/
theorem Pinned.marked {jobId : String} {s s' : Sys World} (h : Pinned s)
    (hmarks : Marks jobId s s') (hgone : Gone jobId s'.world) :
    Pinned s' ∧ s'.world.launches = s.world.launches := by
  obtain ⟨hjob, hid, hrunning, hkilled, hsame, hfailed, hjobs, hprocs, hlater⟩ := hmarks
  rename_i i job s₁ f
  obtain ⟨n, k, p, hhandle⟩ := h.supervised.handle i job hjob hrunning
  obtain ⟨w₁, haged, rfl⟩ := killJob_handle_machine hhandle.session hhandle.handle hkilled
  have hrest : Aged {k} s.world s'.world := haged.trans ((Later.aged hlater).mono (Set.empty_subset _))
  have hother : ∀ {j : ℕ} {job' : Job}, s'.jobs[j]? = some job' → job'.status = .running →
      j ≠ i ∧ s.jobs[j]? = some job' := by
    intro j job' hjob' hrunning'
    rw [hjobs] at hjob'
    rcases getElem?_modify_cases hjob' with ⟨hne, hold⟩ | ⟨a, -, -, rfl⟩
    · exact ⟨hne, hold⟩
    · rw [hfailed] at hrunning'
      cases hrunning'
  -- the handles of the other jobs are untouched
  have hkept : ∀ {j n' k' : ℕ} {job' : Job} {p' : Proc}, j ≠ i → s.jobs[j]? = some job' →
      HasHandle s.procs s.world job' n' k' p' → ∃ q, HasHandle s'.procs s'.world job' n' k' q := by
    intro j n' k' job' p' hne hjob' hhandle'
    obtain ⟨hn, hk⟩ := hhandle'.apart hhandle (id_ne_of_ne h.ids hjob' hjob hne)
    obtain ⟨q, hq⟩ := hhandle'.aged hrest (by simpa using hk)
    refine ⟨q, hq.of_procs ?_⟩
    rw [hprocs]
    exact lookup_popProc_of_ne (by simpa using hn)
  have hwell : WellFormed s'.world := by
    have hworld : Tended s.world s'.world := by
      obtain ⟨procs, w₂, htended, heq⟩ :=
        handled_of_path ((killJob_handled job).returns trivial hkilled).1
      have hsame : w₂ = w₁ := congrArg Sys.world heq.symm
      subst hsame
      exact htended.trans (Later.seen hlater).tended
    exact hworld.onward.wellFormed h.supervised.well
  have hids : (s'.jobs.map Job.id).Nodup := by
    have hkeeps : (s.jobs.modify i f).map Job.id = s.jobs.map Job.id := map_modify_of_eq hsame
    rw [hjobs, hkeeps]
    exact h.ids
  refine ⟨⟨⟨hwell, fun j job' hjob' hrunning' => ?_⟩, hids, fun k' q hq halive => ?_⟩, hrest.launches⟩
  · obtain ⟨hne, hold⟩ := hother hjob' hrunning'
    obtain ⟨n', k', p', hhandle'⟩ := h.supervised.handle j job' hold hrunning'
    obtain ⟨q, hq⟩ := hkept hne hold hhandle'
    exact ⟨n', k', q, hq⟩
  · obtain ⟨p', hp', hages⟩ := hrest.back hq
    obtain ⟨j, owner, n', howner, hrunning', hhandle', hblock⟩ :=
      h.owned k' p' hp' (hages.alive halive)
    have hne : j ≠ i := by
      rintro rfl
      -- the process of the killed job, and it is gone
      rw [hjob] at howner
      cases howner
      apply hgone q (List.mem_of_getElem? hq) ?_ halive
      rw [hages.job, hhandle'.owner, hid]
    obtain ⟨q', hq'⟩ := hkept hne howner hhandle'
    have hsame : q' = q := Option.some.inj (hq'.proc.symm.trans hq)
    subst hsame
    refine ⟨j, owner, n', ?_, hrunning', hq', ?_⟩
    · rw [hjobs]
      simpa [List.getElem?_modify_ne, hne.symm] using howner
    · rw [hblock, hages.job]

/-- No job of an id runs any more. -/
def Released (jobId : String) (jobs : List Job) : Prop :=
  ∀ job ∈ jobs, job.id = jobId → job.status ≠ .running

/-- Once a kill has marked its job, no job of the id runs. -/
theorem Marks.released {jobId : String} {s s' : Sys World} (hmarks : Marks jobId s s')
    (hids : (s.jobs.map Job.id).Nodup) : Released jobId s'.jobs := by
  obtain ⟨hjob, hid, -, hkilled, -, hfailed, hjobs, -, -⟩ := hmarks
  rename_i i job s₁ f
  have hsame : s₁.jobs = s.jobs := by
    obtain ⟨procs, w, -, rfl⟩ :=
      handled_of_path ((killJob_handled job).returns trivial hkilled).1
    rfl
  intro job' hmem hid' hrunning
  obtain ⟨j, hjob'⟩ := List.mem_iff_getElem?.mp hmem
  rw [hjobs, hsame] at hjob'
  rcases getElem?_modify_cases hjob' with ⟨hne, hold⟩ | ⟨a, -, -, rfl⟩
  · exact id_ne_of_ne hids hold hjob hne (hid'.trans hid.symm)
  · rw [hfailed] at hrunning
    cases hrunning

/-- A kill that raises keeps every living process owned too, if the process is gone where the
job has been marked. -/
theorem Pinned.kill_raises {jobId : String} {e : Exc} {s s' : Sys World} (h : Pinned s)
    (hkill : kill jobId s = .error e s')
    (hgone : Released jobId s'.jobs → Gone jobId s'.world) :
    Pinned s' ∧ s'.world.launches = s.world.launches := by
  rcases kill_eq_error hkill with ⟨i, job, hjob, hrunning, hkill⟩ | hmarks
  · exact h.killJob_raises hjob hrunning hkill
  · exact h.marked hmarks (hgone (hmarks.released h.ids))

/-! ## Runs -/

/-- The states between the operations of one process of the orchestrator: ticks, saves and
kills in any order, anything happening on the host in between.  A kill may raise, and the
process goes on.  If it is `prompt`, every killed process has ended when the kill has marked
its job and ends, by a return or by an exception. -/
inductive Attended (site : Site) (prompt : Bool) : Sys World → Prop
  | fresh (w : World) (hprocs : w.procs = []) (hlaunches : w.launches = []) :
      Attended site prompt (fresh site w)
  | event {s : Sys World} (event : Event) (h : Attended site prompt s) :
      Attended site prompt { s with world := event.apply s.world }
  | startUp {w : World} {s' : Sys World} (hprocs : w.procs = []) (hlaunches : w.launches = [])
      (hrun : Nodepilot.startUp site (Nodepilot.fresh site w) = .ok () s') : Attended site prompt s'
  | tick {s s' : Sys World} {changed : Bool} (h : Attended site prompt s)
      (hrun : Nodepilot.tick site s = .ok changed s') : Attended site prompt s'
  | save {s s' : Sys World} (h : Attended site prompt s) (hrun : saveState s = .ok () s') :
      Attended site prompt s'
  | kill {s s' : Sys World} {killed : Bool} (jobId : String) (h : Attended site prompt s)
      (hrun : Nodepilot.kill jobId s = .ok killed s')
      (hprompt : prompt = true → killed = true → Gone jobId s'.world) : Attended site prompt s'
  | killRaises {s s' : Sys World} {e : Exc} (jobId : String) (h : Attended site prompt s)
      (hrun : Nodepilot.kill jobId s = .error e s')
      (hprompt : prompt = true → Released jobId s'.jobs → Gone jobId s'.world) :
      Attended site prompt s'

/-- What the process leaves when an operation of it raises and that ends it. -/
inductive Abandoned (site : Site) (prompt : Bool) (s' : Sys World) : Prop
  | tick {s : Sys World} {e : Exc} (h : Attended site prompt s)
      (hrun : Nodepilot.tick site s = .error e s')
  | kill {s : Sys World} {e : Exc} (jobId : String) (h : Attended site prompt s)
      (hrun : Nodepilot.kill jobId s = .error e s')

/-- Nothing has been started yet. -/
theorem pinned_fresh {site : Site} {w : World} (hids : (site.queue.map Job.id).Nodup)
    (hidle : AllIdle site.queue) (hprocs : w.procs = []) (hlaunches : w.launches = []) :
    Pinned (fresh site w) ∧ LaunchedApart (fresh site w).world := by
  refine ⟨⟨⟨.of_empty hprocs, fun i job hjob hrunning => ?_⟩, hids, fun k p hp => ?_⟩, ?_⟩
  · exact absurd hrunning (hidle job (List.mem_of_getElem? hjob))
  · have hnone : w.procs[k]? = none := by simp [hprocs]
    rw [show (fresh site w).world.procs[k]? = w.procs[k]? from rfl, hnone] at hp
    cases hp
  · intro launch hmem
    rw [show (fresh site w).world.launches = [] from hlaunches] at hmem
    cases hmem

section Runs

variable {site : Site} {prompt : Bool} {s s' : Sys World}

theorem Pinned.path {kinds : Label → Bool} (hrunner : site.config.runner ≠ "tmux")
    (hkinds : ∀ label, kinds label = true → label.inRound = true)
    (hpath : ReflTransGen (Step site true kinds) s s')
    (h : Pinned s ∧ LaunchedApart s.world) : Pinned s' ∧ LaunchedApart s'.world := by
  refine invariant_of_path (I := fun s : Sys World => Pinned s ∧ LaunchedApart s.world) ?_ hpath h
  rintro s s' ⟨label, hlabel, hmove⟩ ⟨hpinned, hapart⟩
  have hround := hkinds label hlabel
  exact ⟨hmove.pinned hrunner hround hpinned, hmove.launchedApart hrunner hround hpinned hapart⟩

/-- Where no job runs there are no zombies to look for. -/
theorem Pinned.startUp (hrunner : site.config.runner ≠ "tmux") (hidle : AllIdle s.jobs)
    (hpath : ReflTransGen (Step site true Label.inStartUp) s s')
    (h : Pinned s ∧ LaunchedApart s.world) : Pinned s' ∧ LaunchedApart s'.world := by
  have hall : AllIdle s'.jobs ∧ Pinned s' ∧ LaunchedApart s'.world := by
    refine invariant_of_path
      (I := fun s : Sys World => AllIdle s.jobs ∧ Pinned s ∧ LaunchedApart s.world) ?_ hpath
      ⟨hidle, h⟩
    rintro s s' ⟨label, hlabel, hmove⟩ ⟨hidle, hpinned, hapart⟩
    have hround : s'.jobs = s.jobs ∧ label.inRound = true := by
      cases hmove with
      | ask => exact ⟨rfl, rfl⟩
      | probe => exact ⟨rfl, rfl⟩
      | save => exact ⟨rfl, rfl⟩
      | spare hjob hrunning => exact absurd hrunning (hidle _ (List.mem_of_getElem? hjob))
      | clear hjob hrunning => exact absurd hrunning (hidle _ (List.mem_of_getElem? hjob))
      | _ => cases hlabel
    refine ⟨hround.1 ▸ hidle, hmove.pinned hrunner hround.2 hpinned, ?_⟩
    exact hmove.launchedApart hrunner hround.2 hpinned hapart
  exact hall.2

/-- Where every kill is prompt, the living are owned and every launch was onto CPUs of the
dead. -/
theorem Attended.pinned (hrunner : site.config.runner ≠ "tmux")
    (hids : (site.queue.map Job.id).Nodup) (hidle : AllIdle site.queue)
    (h : Attended site true s) : Pinned s ∧ LaunchedApart s.world := by
  induction h with
  | fresh w hprocs hlaunches => exact pinned_fresh hids hidle hprocs hlaunches
  | @event s event _ ih =>
      obtain ⟨hpinned, hapart⟩ := ih
      have haged : Aged ∅ s.world (event.apply s.world) := Event.aged ∅ s.world event
      have hwell : WellFormed (event.apply s.world) :=
        hpinned.supervised.well.aged haged (Event.others s.world event)
      exact ⟨hpinned.aged haged hwell, hapart.of_launches haged.launches⟩
  | startUp hprocs hlaunches hrun =>
      have hpath := ((startUp_obeys site).returns trivial hrun).1
      exact Pinned.startUp hrunner hidle hpath (pinned_fresh hids hidle hprocs hlaunches)
  | tick _ hrun ih =>
      exact Pinned.path hrunner inTick_inRound ((tick_obeys site).returns trivial hrun).1 ih
  | save _ hrun ih =>
      exact Pinned.path hrunner inSave_inRound ((saveState_obeys site true).returns trivial hrun).1 ih
  | @kill s s' killed jobId _ hrun hprompt ih =>
      cases killed with
      | false => exact kill_eq_false hrun ▸ ih
      | true =>
          obtain ⟨hpinned, hlaunches⟩ := ih.1.marked (kill_eq_true hrun) (hprompt rfl rfl)
          exact ⟨hpinned, ih.2.of_launches hlaunches⟩
  | killRaises jobId _ hrun hprompt ih =>
      obtain ⟨hpinned, hlaunches⟩ := ih.1.kill_raises hrun (hprompt rfl)
      exact ⟨hpinned, ih.2.of_launches hlaunches⟩

theorem Abandoned.launchedApart (hrunner : site.config.runner ≠ "tmux")
    (hids : (site.queue.map Job.id).Nodup) (hidle : AllIdle site.queue)
    (h : Abandoned site true s) : LaunchedApart s.world := by
  cases h with
  | tick h hrun =>
      obtain ⟨mid, hpath, hwreck⟩ := (tick_obeys site).raises trivial hrun
      obtain ⟨hpinned, hapart⟩ :=
        Pinned.path hrunner inTick_inRound hpath (h.pinned hrunner hids hidle)
      exact hwreck.launchedApart hrunner hpinned hapart
  | kill jobId h hrun =>
      exact (h.pinned hrunner hids hidle).2.of_launches (kill_tended hrun).launches

end Runs

/-- In every run of one orchestrator process in which every killed process has ended when the
kill that marked its job has returned or raised, no job is ever launched onto a CPU of a job
whose process is alive. -/
theorem kill_releases_dead (site : Site) (hrunner : site.config.runner ≠ "tmux")
    (hids : (site.queue.map Job.id).Nodup) (hidle : AllIdle site.queue) (s : Sys World)
    (h : Attended site true s ∨ Abandoned site true s) :
    ∀ launch ∈ s.world.launches, ∀ other ∈ launch.alive,
      Disjoint (blockOf launch.job) (blockOf other) := by
  rcases h with h | h
  · exact (h.pinned hrunner hids hidle).2
  · exact h.launchedApart hrunner hids hidle

/-! ## Two jobs, one after the other -/

instance (jobId : String) (w : World) : Decidable (Gone jobId w) :=
  inferInstanceAs (Decidable (∀ p ∈ w.procs, p.job.id = jobId → p.exit ≠ none))

instance (w : World) : Decidable (LaunchedApart w) :=
  inferInstanceAs (Decidable (∀ launch ∈ w.launches, ∀ other ∈ launch.alive,
    Disjoint (blockOf launch.job) (blockOf other)))

/-- Two jobs of four cores of which one runs at a time. -/
def turnsSite : Site :=
  smallSite [{ id := "a", command := "true", cores := 4 }, { id := "b", command := "true", cores := 4 }]
    { smallConfig with maxConcurrent := 1 }

/-- The first job is started, killed, and the second one is started. -/
theorem attended_turns {prompt : Bool} {w : World} {hoped : Sys World → Bool}
    (hprocs : w.procs = []) (hlaunches : w.launches = [])
    (hrun : returns (tick turnsSite (fresh turnsSite w)) (fun s₁ =>
      returns (kill "a" s₁) fun s₂ => (!prompt || decide (Gone "a" s₂.world)) &&
        returns (tick turnsSite s₂) hoped) = true) :
    ∃ s, Attended turnsSite prompt s ∧ hoped s = true := by
  obtain ⟨changed, s₁, htick, hrest⟩ := of_returns hrun
  obtain ⟨killed, s₂, hkill, hrest⟩ := of_returns hrest
  rw [Bool.and_eq_true] at hrest
  obtain ⟨changed', s₃, htick', hhoped⟩ := of_returns hrest.2
  have hstart : Attended turnsSite prompt s₁ := .tick (.fresh w hprocs hlaunches) htick
  have hkilled : Attended turnsSite prompt s₂ := by
    refine .kill "a" hstart hkill fun hprompt _ => ?_
    simpa [hprompt] using hrest.1
  exact ⟨s₃, .tick hkilled htick', hhoped⟩

/-- The signal ends the process while the kill waits for it, and its cores are given to the
other job. -/
theorem kill_releases_dead_turns : ∃ s : Sys World, s.starts = [1, 0] ∧
    ∀ launch ∈ s.world.launches, ∀ other ∈ launch.alive,
      Disjoint (blockOf launch.job) (blockOf other) := by
  have hrun : returns (tick turnsSite (fresh turnsSite
      { agenda := List.replicate 11 [] ++ [[.exit 0 (-15)]] })) (fun s₁ =>
      returns (kill "a" s₁) fun s₂ => (!true || decide (Gone "a" s₂.world)) &&
        returns (tick turnsSite s₂) fun s₃ => s₃.starts == [1, 0]) = true := by
    decide +kernel
  obtain ⟨s, hattended, hstarts⟩ := attended_turns rfl rfl hrun
  have hids : (turnsSite.queue.map Job.id).Nodup := by decide
  have hidle : AllIdle turnsSite.queue := by decide
  exact ⟨s, beq_iff_eq.mp hstarts,
    kill_releases_dead turnsSite (by decide) hids hidle s (Or.inl hattended)⟩

/-- A process that ignores the signal lives on, and its cores are given to the other job. -/
theorem kill_releases_living :
    ¬ ∀ (site : Site) (s : Sys World), site.config.runner ≠ "tmux" →
      (site.queue.map Job.id).Nodup → AllIdle site.queue →
      (Attended site false s ∨ Abandoned site false s) →
      ∀ launch ∈ s.world.launches, ∀ other ∈ launch.alive,
        Disjoint (blockOf launch.job) (blockOf other) := by
  intro h
  have hrun : returns (tick turnsSite (fresh turnsSite {})) (fun s₁ =>
      returns (kill "a" s₁) fun s₂ => (!false || decide (Gone "a" s₂.world)) &&
        returns (tick turnsSite s₂) fun s₃ => !decide (LaunchedApart s₃.world)) = true := by
    decide +kernel
  obtain ⟨s, hattended, hshared⟩ := attended_turns rfl rfl hrun
  have hids : (turnsSite.queue.map Job.id).Nodup := by decide
  have hidle : AllIdle turnsSite.queue := by decide
  have hapart : LaunchedApart s.world := h turnsSite s (by decide) hids hidle (Or.inl hattended)
  simp [hapart] at hshared

end Nodepilot
