import Nodepilot.Safety.Cooldown
import Nodepilot.Safety.Stuck
import Nodepilot.Safety.Unbroken

/-!
# The loop drains

With every started process gone before the next tick, a tick begins by reaping all
that ran.  The passes over the dependents then go on until no waiting job has a
dead dependency, which a pass over all jobs finds out after at most as many passes
as there are waiting jobs.  If some job still waits and all jobs settle, one of
them has its dependencies done, the idle machine lets it in, and so each tick
leaves fewer jobs waiting: after one tick more than there are jobs none is left.

An exception that leaves the loop ends the run before that; on an obliging site
there is none.

A job that does not settle waits for ever: a dependency cycle, a job that names
itself among its dependencies being the shortest, is accepted with the queue, and
no pass ever marks its members.
-/

namespace Nodepilot

open Obeys Relation Settling

variable {W : Type}

/-! ## Waiting jobs -/

/-- How many jobs wait. -/
def waiting (jobs : List Job) : ℕ :=
  jobs.countP fun j => j.status == .pending

theorem waiting_modify {jobs : List Job} {i : ℕ} {job : Job} {f : Job → Job}
    (hjob : jobs[i]? = some job) (hpending : job.status = .pending)
    (hleft : (f job).status ≠ .pending) : waiting (jobs.modify i f) + 1 = waiting jobs := by
  induction jobs generalizing i with
  | nil => cases hjob
  | cons first rest ih =>
      cases i with
      | zero =>
          cases hjob
          simp only [waiting, List.modify_zero_cons]
          rw [List.countP_cons_of_neg (by simpa using hleft),
            List.countP_cons_of_pos (by simpa using hpending)]
      | succ i =>
          have hrest : waiting (rest.modify i f) + 1 = waiting rest := ih hjob
          simp only [waiting] at hrest
          simp only [waiting, List.modify_succ_cons, List.countP_cons]
          omega

theorem waiting_modify_of_ne {jobs : List Job} {i : ℕ} {job : Job} {f : Job → Job}
    (hjob : jobs[i]? = some job) (hbefore : job.status ≠ .pending)
    (hafter : (f job).status ≠ .pending) : waiting (jobs.modify i f) = waiting jobs := by
  induction jobs generalizing i with
  | nil => cases hjob
  | cons first rest ih =>
      cases i with
      | zero =>
          cases hjob
          simp only [waiting, List.modify_zero_cons]
          rw [List.countP_cons_of_neg (by simpa using hafter),
            List.countP_cons_of_neg (by simpa using hbefore)]
      | succ i =>
          have hrest : waiting (rest.modify i f) = waiting rest := ih hjob
          simp only [waiting] at hrest
          simp only [waiting, List.modify_succ_cons, List.countP_cons, hrest]

theorem waiting_pos {jobs : List Job} :
    0 < waiting jobs ↔ ∃ job ∈ jobs, job.status = .pending := by
  simp [waiting, List.countP_pos_iff]

/-- The moves after which a job waits no more. -/
def Label.serves : Label → Bool
  | .skip _ | .launch _ | .fail _ => true
  | _ => false

theorem Turn.waiting {site : Site} {gated : Bool} {label : Label} {jobs jobs' : List Job}
    (h : Turn site gated label jobs jobs') : waiting jobs' ≤ waiting jobs ∧
      (label.serves = true → Nodepilot.waiting jobs' < Nodepilot.waiting jobs) := by
  have hrunning : ∀ {job : Job}, job.status = .running → job.status ≠ .pending := by
    intro job hstatus
    rw [hstatus]
    decide
  cases h with
  | ask => exact ⟨le_rfl, nofun⟩
  | save => exact ⟨le_rfl, nofun⟩
  | spare => exact ⟨le_rfl, nofun⟩
  | reap hjob hstatus hend =>
      refine ⟨(waiting_modify_of_ne hjob (hrunning hstatus) ?_).le, nofun⟩
      rw [Job.finish_status]
      rcases hend with hend | hend <;> rw [hend] <;> decide
  | kill hjob hstatus =>
      exact ⟨(waiting_modify_of_ne hjob (hrunning hstatus) (by simp)).le, nofun⟩
  | clear hjob hstatus =>
      exact ⟨(waiting_modify_of_ne hjob (hrunning hstatus) (by simp)).le, nofun⟩
  | @skip _ i job b now hjob hpending hblocker =>
      have hfewer := @waiting_modify _ i job (Job.skip b now) hjob hpending (by simp)
      exact ⟨by omega, fun _ => by omega⟩
  | @launch _ i job placement session now hjob hpending hdeps hadmits hplaced =>
      have hfewer := @waiting_modify _ i job (Job.launch placement session now) hjob hpending
        (by simp)
      exact ⟨by omega, fun _ => by omega⟩
  | @fail _ i job placement message now hjob hpending hdeps =>
      have hfewer := @waiting_modify _ i job
        (fun j => Job.fail ("launch_error: " ++ message) now (Job.place placement j)) hjob hpending
        (by simp)
      exact ⟨by omega, fun _ => by omega⟩

theorem waiting_of_path [Host W] {site : Site} {kinds : Label → Bool} {s s' : Sys W}
    (hpath : ReflTransGen (Step site true kinds) s s') : waiting s'.jobs ≤ waiting s.jobs := by
  induction hpath with
  | refl => exact le_rfl
  | tail _ hlast ih =>
      obtain ⟨label, -, hmove⟩ := hlast
      exact hmove.turn.waiting.1.trans ih

/-- A loop that says it has changed something has left fewer jobs waiting. -/
def Relieves (changed : Bool) (jobs jobs' : List Job) : Prop :=
  waiting jobs' ≤ waiting jobs ∧ (changed = true → waiting jobs' < waiting jobs)

theorem Relieves.seq {changed later : Bool} {jobs jobs' jobs'' : List Job}
    (h : Relieves changed jobs jobs') (h' : Relieves later jobs' jobs'') :
    Relieves (changed || later) jobs jobs'' := by
  refine ⟨h'.1.trans h.1, fun htrue => ?_⟩
  have hle := h.1
  have hle' := h'.1
  rcases Bool.or_eq_true_iff.mp htrue with hfirst | hlast
  · have := h.2 hfirst
    omega
  · have := h'.2 hlast
    omega

section

variable [Host W] {s s' : Sys W} {b : Bool}

theorem markSweep_serves (site : Site) {indices : List ℕ}
    (h : sweep markJob indices s = .ok b s') : Relieves b s.jobs s'.jobs := by
  have hsaid := @sweep_said _ _ _ markJob (fun _ said t => Relieves said s.jobs t.jobs)
    (fun i rest said t changed t' ht hrun => ?_) indices false b s s' ⟨le_rfl, nofun⟩ h
  · rw [Bool.false_or] at hsaid
    exact hsaid
  · have hturn := @markJob_turn _ _ site i t t' changed true hrun
    refine ht.seq ?_
    rcases hturn with ⟨rfl, hmove⟩ | ⟨rfl, rfl, -⟩
    · exact ⟨hmove.turn.waiting.1, fun _ => hmove.turn.waiting.2 rfl⟩
    · exact ⟨le_rfl, nofun⟩

/-- The passes over the dependents end where none is left to skip, if there are more passes
than waiting jobs. -/
theorem markPasses_unblocked (site : Site) {fuel : ℕ} (h : markPasses fuel s = .ok b s')
    (hfuel : waiting s.jobs < fuel) : Unblocked s'.jobs := by
  induction fuel generalizing s b with
  | zero => exact absurd hfuel (Nat.not_lt_zero _)
  | succ fuel ih =>
      obtain ⟨s₀, s₁, hget, h⟩ := bind_eq_ok.mp h
      cases hget
      obtain ⟨progressed, s₁, hsweep, h⟩ := bind_eq_ok.mp h
      cases progressed with
      | true =>
          obtain ⟨later, s₂, hrest, hpure⟩ := bind_eq_ok.mp h
          cases hpure
          have hfewer : waiting s₁.jobs < waiting s.jobs := (markSweep_serves site hsweep).2 rfl
          exact ih hrest (by omega)
      | false =>
          cases h
          obtain ⟨rfl, hunblocked⟩ := unblocked_of_sweep site hsweep
          exact hunblocked

theorem markDeadDependents_unblocked (site : Site) (h : markDeadDependents s = .ok b s') :
    Unblocked s'.jobs := by
  obtain ⟨s₀, s₁, hget, h⟩ := bind_eq_ok.mp h
  cases hget
  have hle : waiting s.jobs ≤ s.jobs.length := List.countP_le_length
  exact markPasses_unblocked site h (by omega)

theorem launchPending_serves {site : Site} (h : launchPending site s = .ok b s') :
    Relieves b s.jobs s'.jobs := by
  obtain ⟨s₀, s₁, hget, h⟩ := bind_eq_ok.mp h
  cases hget
  have hsaid := @sweep_said _ _ _ (launchCandidate site)
    (fun rest said t => Relieves said s.jobs t.jobs ∧ (∀ j ∈ rest, t.pendingAt j) ∧ rest.Nodup)
    (fun i rest said t changed t' ht hrun => ?_) (pendingOrder s.jobs) false b s s'
    ⟨⟨le_rfl, nofun⟩, fun j hj => mem_pendingOrder.mp hj, nodup_pendingOrder _⟩ h
  · rw [Bool.false_or] at hsaid
    exact hsaid.1
  · obtain ⟨hserves, hcandidates⟩ := ht
    have hnext := ((launchCandidate_obeys site i rest).returns hcandidates hrun).2
    refine ⟨hserves.seq ?_, hnext⟩
    have hturn := launchCandidate_turn (hcandidates.1 i (List.mem_cons_self ..)) hrun
    rcases hturn with ⟨rfl, hmove | hmove⟩ | ⟨rfl, hasks⟩
    · exact ⟨hmove.turn.waiting.1, fun _ => hmove.turn.waiting.2 rfl⟩
    · exact ⟨hmove.turn.waiting.1, fun _ => hmove.turn.waiting.2 rfl⟩
    · rw [jobs_of_asks hasks]
      exact ⟨le_rfl, nofun⟩

end

/-! ## What is assumed of a run -/

/-- The job fits the idle machine: the core budget, and the CPUs of some node. -/
structure FitsAlone (site : Site) (job : Job) : Prop where
  budget : job.cores ≤ site.config.coreBudget
  node : ∃ node cores, Listed site.numaNodes node cores ∧
    job.cores ≤ (cores \ site.reserved).card

/-- Between two worlds there is no pause file, and the memory lets every job of the queue in. -/
structure Calm (site : Site) (w w' : World) : Prop where
  unpaused : ∀ s s' : Sys World, Onward w s.world → Onward s.world w' →
    paused site.config s ≠ .ok true s'
  memory : ∀ job ∈ site.queue, ∀ (s s' : Sys World) (decision : Decision), Onward w s.world →
    Onward s'.world w' → checkRam site.config job [] s = .ok decision s' → decision.ok = true

/-- Processes have ended as assigned, a failed start counting as a failure and a session as a
success, and none was classified as killed by the OOM killer. -/
structure Peaceful (site : Site) (outcome : String → Bool) (s : Sys World) : Prop where
  sessions : site.config.runner = "tmux" → ∀ p ∈ s.world.procs, outcome p.job.id = true
  processes : site.config.runner ≠ "tmux" → ∀ p ∈ s.world.procs, ∀ rc, p.exit = some rc →
    (rc = 0 ↔ outcome p.job.id = true)
  launched : ∀ job ∈ s.jobs, job.launchFailed = true → outcome job.id = false
  spared : ∀ job ∈ s.jobs, job.status = .failed → job.failureReason ≠ "oom_killed"

theorem Peaceful.earlier {site : Site} {outcome : String → Bool} {label : Label}
    {s s' : Sys World} (hmove : Move site true label s s') (h : Peaceful site outcome s') :
    Peaceful site outcome s where
  sessions hrunner p hp := by
    obtain ⟨k, hk⟩ := List.mem_iff_getElem?.mp hp
    obtain ⟨q, hq, hages⟩ := hmove.onward.grows.procs k p hk
    rw [← hages.job]
    exact h.sessions hrunner q (List.mem_of_getElem? hq)
  processes hrunner p hp rc hexit := by
    obtain ⟨k, hk⟩ := List.mem_iff_getElem?.mp hp
    obtain ⟨q, hq, hages⟩ := hmove.onward.grows.procs k p hk
    rw [← hages.job]
    exact h.processes hrunner q (List.mem_of_getElem? hq) rc (hages.exit rc hexit)
  launched job hmem hfailed := h.launched job (hmove.launchFailed hmem hfailed) hfailed
  spared job hmem hfailed := by
    refine h.spared job (hmove.turn.progress.mem_of_settled hmem ?_) hfailed
    rw [hfailed]
    rfl

theorem Peaceful.of_path {site : Site} {outcome : String → Bool} {kinds : Label → Bool}
    {s s' : Sys World} (hpath : ReflTransGen (Step site true kinds) s s')
    (h : Peaceful site outcome s') : Peaceful site outcome s := by
  induction hpath using ReflTransGen.head_induction_on with
  | refl => exact h
  | head hfirst _ ih =>
      obtain ⟨label, -, hmove⟩ := hfirst
      exact ih.earlier hmove

theorem backs_peaceful (site : Site) (outcome : String → Bool) (w : World) :
    Backs site outcome w (Peaceful site outcome) where
  earlier hmove h := h.earlier hmove
  judges {label s s'} hmove hlabel hminded hbefore h := by
    intro j a b ha harunning hb
    by_cases hrunning : b.status = .running
    · rw [hrunning]
      exact ⟨nofun, nofun⟩
    have hended := hmove.ended hlabel hminded ha harunning hb hrunning
    by_cases hrunner : site.config.runner = "tmux"
    · obtain ⟨hint, -, -, -, -, hdone, hoom⟩ := hended.tmux hrunner
      obtain ⟨p, hp, hid⟩ := hmove.onward.owned
        (hminded.owned a (List.mem_of_getElem? ha) harunning)
      have hgood := h.sessions hrunner p hp
      rw [hid] at hgood
      refine ⟨fun _ => hgood, fun hfailed => ?_⟩
      -- a session fails only if the kernel log says so, and then it was OOM-killed
      have hhint : hint = true := by
        by_contra hnot
        rw [hdone.mpr (Bool.eq_false_iff.mpr hnot)] at hfailed
        cases hfailed
      exact absurd (hoom hhint) (h.spared b (List.mem_of_getElem? hb) hfailed)
    · obtain ⟨p, hp, rc, hid, hexit, hdone⟩ := hended.subprocess hrunner
      have hiff : b.status = .done ↔ outcome a.id = true := by
        rw [hdone, h.processes hrunner p hp rc hexit, hid]
      refine ⟨hiff.mp, fun hfailed => ?_⟩
      by_contra hgood
      rw [hiff.mpr (by simpa using hgood)] at hfailed
      cases hfailed
  launched h := h.launched

/-- The cooldown is set only for an OOM kill. -/
theorem Move.cooldown_eq {W : Type} [Host W] {site : Site} {label : Label} {s s' : Sys W}
    (hmove : Move site true label s s') (hspared : ∀ job ∈ s'.jobs, job.status = .failed →
      job.failureReason ≠ "oom_killed") : s'.cooldownUntil = s.cooldownUntil := by
  cases hmove with
  | @reap _ i job outcome w₁ w₂ w₃ w₄ now cooldown hjob hrunning hdead hreap htime hcooled =>
      cases hcooled with
      | keep => rfl
      | arm hoom htime' =>
          have hend : outcome.status = .failed := by
            obtain ⟨rc, v₁, hint, v₂, -, -, -, -, hclassify, -⟩ := reap_eq_ok hreap
            rw [hclassify] at hoom ⊢
            exact (classify_status rc hint).resolve_left hoom.1
          have hmem : Job.finish outcome now job ∈ s.jobs.modify i (Job.finish outcome now) := by
            apply List.mem_of_getElem? (i := i)
            rw [List.getElem?_modify_eq, hjob]
            rfl
          exact absurd hoom.2 (hspared _ hmem hend)
  | launch hchosen hstarted htime => exact hstarted.cooldown
  | _ => rfl

/-! ## Some job is let in -/

/-- If a job waits that settles, one waits that has its dependencies done. -/
theorem exists_ready {queue jobs : List Job} {outcome : String → Bool}
    (hids : (queue.map Job.id).Nodup) (hprogress : Progress queue jobs)
    (hsound : Sound (graphOf queue outcome) jobs) (hidle : AllIdle jobs)
    (hawake : ∀ job ∈ jobs, job.status ≠ .dormant) (hunblocked : Unblocked jobs) {id : String}
    {v : Verdict} (h : Settles (graphOf queue outcome) id v) :
    ∀ job ∈ jobs, job.id = id → job.status = .pending →
      ∃ ready ∈ jobs, ready.status = .pending ∧ depsSatisfied jobs ready = true := by
  -- by induction on how the job settles, along a dependency that waits too
  have hneed : ∀ {job : Job} {dep : String}, job ∈ jobs → job.status = .pending →
      (graphOf queue outcome).needs job.id dep → ∃ upstream ∈ jobs, upstream.id = dep ∧
        (upstream.status = .pending ∨ upstream.status = .done) := by
    intro job dep hmem hpending hneeds
    obtain ⟨i, hi⟩ := List.mem_iff_getElem?.mp hmem
    have hdep := (needs_of_progress outcome hids hprogress hi).mp hneeds
    obtain ⟨upstream, hfound, hfailed, hskipped⟩ :=
      alive_of_unblocked (hunblocked job hmem hpending) hdep
    obtain ⟨hup, hid⟩ := byId_eq_some hfound
    refine ⟨upstream, hup, hid, ?_⟩
    have hrunning := hidle upstream hup
    have hdormant := hawake upstream hup
    cases hstatus : upstream.status <;> simp_all
  have hrun : ∀ {id : String}, (∀ dep, (graphOf queue outcome).needs id dep →
      ∀ job ∈ jobs, job.id = dep → job.status = .pending →
        ∃ ready ∈ jobs, ready.status = .pending ∧ depsSatisfied jobs ready = true) →
      ∀ job ∈ jobs, job.id = id → job.status = .pending →
        ∃ ready ∈ jobs, ready.status = .pending ∧ depsSatisfied jobs ready = true := by
    intro id ih job hmem hid hpending
    by_cases hdeps : depsSatisfied jobs job = true
    · exact ⟨job, hmem, hpending, hdeps⟩
    · obtain ⟨upstream, hup, hdep, hdone, hfailed, hskipped⟩ :=
        exists_waiting_dep (hunblocked job hmem hpending) (Bool.eq_false_iff.mpr hdeps)
      obtain ⟨i, hi⟩ := List.mem_iff_getElem?.mp hmem
      have hneeds := (needs_of_progress outcome hids hprogress hi).mpr hdep
      rw [hid] at hneeds
      refine ih upstream.id hneeds upstream hup rfl ?_
      have hrunning := hidle upstream hup
      have hdormant := hawake upstream hup
      cases hstatus : upstream.status <;> simp_all
  -- a dependency with another verdict than done is not done, so it waits
  have hdead : ∀ {id dep : String} {v : Verdict}, v ≠ .done →
      (graphOf queue outcome).needs id dep → Settles (graphOf queue outcome) dep v →
      (∀ job ∈ jobs, job.id = dep → job.status = .pending →
        ∃ ready ∈ jobs, ready.status = .pending ∧ depsSatisfied jobs ready = true) →
      ∀ job ∈ jobs, job.id = id → job.status = .pending →
        ∃ ready ∈ jobs, ready.status = .pending ∧ depsSatisfied jobs ready = true := by
    rintro id dep v hv hneeds hsettles ih job hmem rfl hpending
    obtain ⟨upstream, hup, rfl, hstatus | hstatus⟩ := hneed hmem hpending hneeds
    · exact ih upstream hup rfl hstatus
    · have hverdict := hsound upstream hup
      simp only [Verdicts, hstatus] at hverdict
      exact absurd (hsettles.unique hverdict) hv
  induction h with
  | done hactive hneeds hgood ih => exact hrun ih
  | failed hactive hneeds hbad ih => exact hrun ih
  | @unknown i j hactive hneeds hunknown =>
      rintro job hmem rfl hpending
      obtain ⟨upstream, hup, hid, -⟩ := hneed hmem hpending hneeds
      obtain ⟨k, hk⟩ := List.mem_iff_getElem?.mp hup
      obtain ⟨a, ha, hsame, -⟩ := hprogress.back hk
      exact absurd ⟨a, List.mem_of_getElem? ha, hsame.id.trans hid⟩ hunknown
  | failedNeed hactive hneeds h ih => exact hdead (by decide) hneeds h ih
  | skippedNeed hactive hneeds h ih => exact hdead (by decide) hneeds h ih

theorem checkRam_congr {W : Type} [Host W] {config : Config} {a b : Job} (running : List Job)
    (h : a.ramGb = b.ramGb) :
    (checkRam config a running : M W Decision) = checkRam config b running := by
  simp only [checkRam, checkSliceRam, checkFreeRam, h]

/-- On the idle machine a launch pass changes something if a job is ready. -/
theorem launchPending_ready {site : Site} {w f : World} {s s' : Sys World} {b : Bool}
    (hcap : 1 ≤ site.config.maxConcurrent) (hfits : ∀ job ∈ site.queue, FitsAlone site job)
    (hcalm : Calm site w f) (hclock : 0 ≤ w.clock) (hprogress : Progress site.queue s.jobs)
    (hidle : AllIdle s.jobs) (hcool : s.cooldownUntil = 0) (hbefore : Onward w s.world)
    (hafter : Onward s'.world f)
    (hready : ∃ job ∈ s.jobs, job.status = .pending ∧ depsSatisfied s.jobs job = true)
    (h : launchPending site s = .ok b s') : b = true := by
  by_contra hfalse
  rw [Bool.not_eq_true] at hfalse
  subst hfalse
  obtain ⟨job, hmem, hpending, hdeps⟩ := hready
  obtain ⟨i, hi⟩ := List.mem_iff_getElem?.mp hmem
  obtain ⟨a, ha, hsame, -⟩ := hprogress.back hi
  have hqueued : a ∈ site.queue := List.mem_of_getElem? ha
  have hfit := hfits a hqueued
  rcases (launchPending_eq_false hidle h).2 job hmem hpending hdeps with
    ⟨w₁, decision, w₂, hon, hlast, hdecision, hno⟩ | hnone
  · have hstart : Onward w w₁ := hbefore.trans hon
    have hend : Onward w₂ f := hlast.trans hafter
    obtain ⟨v, hlater, heq⟩ := (quiet_canLaunch _ _ _).of_ok hdecision
    cases heq
    rcases canLaunch_refused hdecision hno with hpause | ⟨v, now, hv, htime, hactive⟩ | hcounts |
      ⟨v, hv, hram⟩
    · exact hcalm.unpaused _ _ hstart ((Later.onward hlater).trans hend) hpause
    · have hpast : 0 ≤ now := by
        calc (0 : ℚ) ≤ w.clock := hclock
          _ ≤ v.clock := wallClock.onward (hstart.trans (Later.onward hv))
          _ ≤ now := (wallClock.read htime).1
      simp only [hcool] at hactive
      exact absurd hactive (not_lt.mpr hpast)
    · rw [hidle.running_eq] at hcounts
      have hbudget : job.cores ≤ site.config.coreBudget := by
        rw [← hsame.cores]
        exact hfit.budget
      have hnone : checkCounts site.config job [] = none := by
        have hroom : ¬ site.config.maxConcurrent ≤ 0 := by omega
        simp [checkCounts, hroom, not_lt.mpr hbudget]
      rw [hnone] at hcounts
      cases hcounts
    · rw [hidle.running_eq, ← checkRam_congr [] hsame.ramGb] at hram
      have hyes := hcalm.memory a hqueued _ _ decision (hstart.trans (Later.onward hv)) hend hram
      rw [hyes] at hno
      cases hno
  · obtain ⟨node, cores, hlisted, hroom⟩ := hfit.node
    refine (not_eligible_of_allocate hnone).2 node cores ⟨hlisted, ?_, nofun⟩
    rw [← hsame.cores]
    exact hroom

/-! ## One tick -/

theorem cooldown_of_path {site : Site} {outcome : String → Bool} {kinds : Label → Bool}
    {s s' : Sys World} (hpath : ReflTransGen (Step site true kinds) s s')
    (h : Peaceful site outcome s') : s'.cooldownUntil = s.cooldownUntil := by
  induction hpath using ReflTransGen.head_induction_on with
  | refl => rfl
  | head hfirst hrest ih =>
      obtain ⟨label, -, hmove⟩ := hfirst
      rw [ih, hmove.cooldown_eq (h.of_path hrest).spared]

/-- No job of a queue that all wait ever sleeps. -/
theorem Progress.awake {queue jobs : List Job} (h : Progress queue jobs)
    (hqueue : ∀ job ∈ queue, job.status = .pending) : ∀ job ∈ jobs, job.status ≠ .dormant := by
  intro job hmem hdormant
  obtain ⟨i, hi⟩ := List.mem_iff_getElem?.mp hmem
  obtain ⟨a, ha, -, -⟩ := h.back hi
  obtain ⟨b, hb, -, hmoved, -⟩ := h.each i a ha
  rw [hi] at hb
  cases hb
  rw [hqueue a (List.mem_of_getElem? ha), hdormant] at hmoved
  rcases ReflTransGen.cases_tail hmoved with hsame | ⟨status, -, hlast⟩
  · cases hsame
  · cases hlast

/-- What holds of a queue and a site on which a run is to come to its end. -/
structure Setting (site : Site) (outcome : String → Bool) (w f : World) : Prop where
  pending : ∀ job ∈ site.queue, job.status = .pending
  ids : (site.queue.map Job.id).Nodup
  clock : 0 ≤ w.clock
  cap : 1 ≤ site.config.maxConcurrent
  fits : ∀ job ∈ site.queue, FitsAlone site job
  calm : Calm site w f
  settles : ∀ job ∈ site.queue, ∃ v, Settles (graphOf site.queue outcome) job.id v

/-- A tick that begins with every process gone leaves fewer jobs waiting, or nothing to do. -/
theorem tick_drains {site : Site} {outcome : String → Bool} {w f : World} {s s' : Sys World}
    {b : Bool} (hset : Setting site outcome w f)
    (hcourse : Course site outcome w (Peaceful site outcome) s) (hcool : s.cooldownUntil = 0)
    (hexited : AllExited s.world) (hpeace : Peaceful site outcome s') (hafter : Onward s'.world f)
    (h : tick site s = .ok b s') :
    isDrained s'.jobs = true ∨ waiting s'.jobs < waiting s.jobs := by
  have hqueue : ∀ job ∈ site.queue, job.status = .pending ∨ job.status = .dormant :=
    fun job hmem => Or.inl (hset.pending job hmem)
  obtain ⟨reaped, s₁, hreap, h⟩ := bind_eq_ok.mp h
  obtain ⟨marked, s₂, hmark, h⟩ := bind_eq_ok.mp h
  obtain ⟨⟨⟩, s₃, hpins, h⟩ := bind_eq_ok.mp h
  obtain ⟨launched, s₄, hlaunch, hpure⟩ := bind_eq_ok.mp h
  cases hpure
  -- what the three loops before the launch pass leave
  have hreaps := ((reapFinished_obeys site true).returns trivial hreap).1
  have hskips := ((markDeadDependents_obeys site true).returns trivial hmark).1
  have hidle₁ : AllIdle s₁.jobs :=
    reapFinished_allIdle (hcourse.nodup hset.ids) hexited hcourse.minded hreap
  have hidle₂ : AllIdle s₂.jobs := hidle₁.of_skips hskips
  have hunblocked : Unblocked s₂.jobs := markDeadDependents_unblocked site hmark
  obtain ⟨w₃, hlater, rfl⟩ := quiet_enforcePins.of_ok hpins
  have hlaunches := ((launchPending_obeys site).returns trivial hlaunch).1
  have hpath : ReflTransGen (Step site true Label.inRound) s { s₂ with world := w₃ } := by
    have hfirst : ReflTransGen (Step site true Label.inRound) s s₁ :=
      ReflTransGen.mono (fun _ _ => Step.mono fun label hlabel =>
        inTick_inRound label (inReap_inTick label hlabel)) _ _ hreaps
    have hsecond : ReflTransGen (Step site true Label.inRound) s₁ s₂ :=
      ReflTransGen.mono (fun _ _ => Step.mono fun label hlabel =>
        inTick_inRound label (inSkip_inTick label hlabel)) _ _ hskips
    exact (hfirst.trans hsecond).trans (Later.path rfl hlater)
  have hcourse₃ : Course site outcome w (Peaceful site outcome) { s₂ with world := w₃ } :=
    hcourse.of_path hqueue hset.ids (backs_peaceful site outcome w) hpath
  have hpeace₃ : Peaceful site outcome { s₂ with world := w₃ } := hpeace.of_path hlaunches
  have hfewer := waiting_of_path hpath
  change waiting s₂.jobs ≤ waiting s.jobs at hfewer
  by_cases hnone : waiting s₂.jobs = 0
  · left
    have hnobody : ∀ job ∈ s₂.jobs, job.status ≠ .pending := by
      intro job hmem hpending
      have hpos := waiting_pos.mpr ⟨job, hmem, hpending⟩
      omega
    have horder : pendingOrder s₂.jobs = [] := by
      apply List.eq_nil_iff_forall_not_mem.mpr
      intro i hi
      obtain ⟨job, hjob, hpending⟩ := mem_pendingOrder.mp hi
      exact hnobody job (List.mem_of_getElem? hjob) hpending
    obtain ⟨s₀, s₁', hget, hsweep⟩ := bind_eq_ok.mp hlaunch
    cases hget
    simp only [horder] at hsweep
    cases hsweep
    simp only [isDrained, Bool.not_eq_true', List.any_eq_false, Bool.or_eq_true, beq_iff_eq]
    intro job hmem
    rintro (hpending | hrunning)
    · exact hnobody job hmem hpending
    · exact hidle₂ job hmem hrunning
  · right
    obtain ⟨job, hmem, hpending⟩ := waiting_pos.mp (Nat.pos_of_ne_zero hnone)
    obtain ⟨i, hi⟩ := List.mem_iff_getElem?.mp hmem
    obtain ⟨a, ha, hsame, -⟩ := hcourse₃.progress.back hi
    obtain ⟨v, hv⟩ := hset.settles a (List.mem_of_getElem? ha)
    rw [hsame.id] at hv
    have hready := exists_ready hset.ids hcourse₃.progress (hcourse₃.sound hpeace₃) hidle₂
      (hcourse₃.progress.awake hset.pending) hunblocked hv job hmem rfl hpending
    have hcool₃ : ({ s₂ with world := w₃ } : Sys World).cooldownUntil = 0 := by
      rw [cooldown_of_path hpath hpeace₃]
      exact hcool
    have hlaunched : launched = true :=
      launchPending_ready (s := { s₂ with world := w₃ }) hset.cap hset.fits hset.calm hset.clock
        hcourse₃.progress hidle₂ hcool₃ hcourse₃.onward hafter hready hlaunch
    have hserved : waiting s'.jobs < waiting s₂.jobs := (launchPending_serves hlaunch).2 hlaunched
    omega

/-! ## The whole run -/

/-- With more rounds than waiting jobs the loop comes to its end. -/
theorem runLoop_drains {site : Site} {outcome : String → Bool} {w : World} {fuel t : ℕ}
    {s f : Sys World} {returned : Bool} (hset : Setting site outcome w f.world)
    (hcourse : Course site outcome w (Peaceful site outcome) s) (hcool : s.cooldownUntil = 0)
    (hpeace : Peaceful site outcome f)
    (hexit : ∀ k s₁, k < fuel → runLoop site none t k s = .ok false s₁ → AllExited s₁.world)
    (hfuel : waiting s.jobs < fuel) (h : runLoop site none t fuel s = .ok returned f) :
    returned = true := by
  induction fuel generalizing t s with
  | zero => exact absurd hfuel (Nat.not_lt_zero _)
  | succ fuel ih =>
      have hopen := h
      obtain ⟨⟨⟩, s₁, hround, hrest⟩ := bind_eq_ok.mp hopen
      obtain ⟨s₂, s₃, hget, hrest⟩ := bind_eq_ok.mp hrest
      cases hget
      by_cases hdrained : isDrained s₁.jobs = true
      · rw [if_pos hdrained] at hrest
        cases hrest
        rfl
      · rw [if_neg hdrained, Option.any_none, if_neg Bool.false_ne_true] at hrest
        obtain ⟨⟨⟩, s₂, hsleep, hrest⟩ := bind_eq_ok.mp hrest
        obtain ⟨changed, s', htick, hsave, hsame⟩ := round_eq_ok hround
        obtain ⟨w₂, hanswer, heq⟩ := call_eq_ok.mp hsleep
        -- everything on the way to the end
        have hloop : ReflTransGen (Step site true Label.inRound) s₂ f :=
          ((runLoop_obeys site none (t + 1) fuel).returns trivial hrest).1
        have hslept : ReflTransGen (Step site true Label.inRound) s₁ s₂ := by
          rw [heq]
          exact Later.path rfl (.of_ok rfl hanswer)
        have hsaved : ReflTransGen (Step site true Label.inRound) s' s₁ :=
          ReflTransGen.mono (fun _ _ => Step.mono fun label hlabel => by
            rw [Label.inRound, hlabel, Bool.or_true]) _ _ hsave
        have hend : ReflTransGen (Step site true Label.inRound) s' f :=
          (hsaved.trans hslept).trans hloop
        have hstart : AllExited s.world := hexit 0 s (Nat.zero_lt_succ fuel) rfl
        have hpeace₂ : Peaceful site outcome s₂ := hpeace.of_path hloop
        have hpath : ReflTransGen (Step site true Label.inRound) s s₂ :=
          ((round_obeys site).returns trivial hround).1.trans hslept
        have hjobs : s₂.jobs = s'.jobs := by
          rw [heq]
          exact hsame
        have hqueue : ∀ job ∈ site.queue, job.status = .pending ∨ job.status = .dormant :=
          fun job hmem => Or.inl (hset.pending job hmem)
        have hdrop : waiting s'.jobs < waiting s.jobs := by
          rcases tick_drains hset hcourse hcool hstart (hpeace.of_path hend)
            (onward_of_path hend) htick with hover | hfewer
          · rw [← hsame] at hover
            exact absurd hover hdrained
          · exact hfewer
        refine ih (hcourse.of_path hqueue hset.ids (backs_peaceful site outcome w) hpath) ?_
          (fun k s₃ hk hrun => ?_) ?_ hrest
        · rw [cooldown_of_path hpath hpeace₂]
          exact hcool
        · refine hexit (k + 1) s₃ (by omega) ?_
          rw [runLoop_succ hround (Bool.eq_false_iff.mpr hdrained) hsleep]
          exact hrun
        · rw [hjobs]
          omega

theorem runLoop_returned {W : Type} [Host W] {site : Site} {t fuel : ℕ} {s s' : Sys W}
    (h : runLoop site none t fuel s = .ok true s') : isDrained s'.jobs = true := by
  induction fuel generalizing t s with
  | zero => cases h
  | succ fuel ih =>
      obtain ⟨⟨⟩, s₁, hround, h⟩ := bind_eq_ok.mp h
      obtain ⟨s₂, s₃, hget, h⟩ := bind_eq_ok.mp h
      cases hget
      by_cases hdrained : isDrained s₁.jobs = true
      · rw [if_pos hdrained] at h
        cases h
        exact hdrained
      · rw [if_neg hdrained, Option.any_none, if_neg Bool.false_ne_true] at h
        obtain ⟨⟨⟩, s₂, hsleep, h⟩ := bind_eq_ok.mp h
        exact ih h

/-- A run that raises nothing returns in time if and only if every job settles. -/
theorem run_returns_iff (site : Site) (outcome : String → Bool) (w : World) (returned : Bool)
    (s : Sys World) (hpending : ∀ job ∈ site.queue, job.status = .pending)
    (hids : (site.queue.map Job.id).Nodup) (hw : w.procs = []) (hclock : 0 ≤ w.clock)
    (hcap : 1 ≤ site.config.maxConcurrent) (hfits : ∀ job ∈ site.queue, FitsAlone site job)
    (hrun : run site none (site.queue.length + 1) (fresh site w) = .ok returned s)
    (hcalm : Calm site w s.world)
    (hexit : ∀ k s₁, k ≤ site.queue.length → run site none k (fresh site w) = .ok false s₁ →
      AllExited s₁.world)
    (hpeace : Peaceful site outcome s) :
    returned = true ↔
      ∀ job ∈ site.queue, ∃ v, Settles (graphOf site.queue outcome) job.id v := by
  have hqueue : ∀ job ∈ site.queue, job.status = .pending ∨ job.status = .dormant :=
    fun job hmem => Or.inl (hpending job hmem)
  have hbacks := backs_peaceful site outcome w
  have hopen := hrun
  obtain ⟨⟨⟩, s₁, hstart, hloop⟩ := bind_eq_ok.mp hopen
  constructor
  · rintro rfl job hmem
    have hcourse := Course.of_run hqueue hids hbacks hw hrun
    obtain ⟨i, hi⟩ := List.mem_iff_getElem?.mp hmem
    obtain ⟨b, hb, hsame, -⟩ := hcourse.progress.each i job hi
    rcases (hcourse.sound hpeace).settled hids hcourse.progress (runLoop_returned hloop)
      (List.mem_of_getElem? hb) with ⟨v, hv, -⟩ | ⟨-, hidle⟩
    · rw [← hsame.id] at hv
      exact ⟨v, hv⟩
    · exact absurd ⟨job, hmem, hsame.id, hpending job hmem⟩ hidle
  · intro hsettles
    obtain ⟨hjobs, hcool, hcourse⟩ := Course.of_startUp hqueue hw hstart
    have hset : Setting site outcome w s.world :=
      ⟨hpending, hids, hclock, hcap, hfits, hcalm, hsettles⟩
    refine runLoop_drains hset hcourse hcool hpeace (fun k s₂ hk hrounds => ?_) ?_ hloop
    · refine hexit k s₂ (by omega) ?_
      rw [run]
      exact bind_eq_ok.mpr ⟨(), s₁, hstart, hrounds⟩
    · rw [hjobs]
      have hle : waiting site.queue ≤ site.queue.length := List.countP_le_length
      omega

/-- The end of a process. -/
def Event.isExit : Event → Bool
  | .exit _ _ => true
  | _ => false

theorem Event.files_of_exit {event : Event} (h : event.isExit = true) (w : World) :
    (event.apply w).agenda = w.agenda ∧ (event.apply w).files = w.files := by
  cases event with
  | exit k rc => exact ⟨rfl, rfl⟩
  | _ => cases h

/-- Where processes end and nothing else happens, the files stay as they are. -/
theorem files_of_exits {w w' : World} (h : Onward w w')
    (hexits : w.agenda.all (fun batch => batch.all Event.isExit) = true) :
    w'.agenda.all (fun batch => batch.all Event.isExit) = true ∧ w'.files = w.files ∧
      w'.advance.files = w.files := by
  have hbatch : ∀ (events : List Event) (v : World), events.all Event.isExit = true →
      (events.foldl Event.apply v).agenda = v.agenda ∧
        (events.foldl Event.apply v).files = v.files := by
    intro events
    induction events with
    | nil =>
        intro v _
        exact ⟨rfl, rfl⟩
    | cons event rest ih =>
        intro v hall
        rw [List.all_cons, Bool.and_eq_true] at hall
        obtain ⟨hagenda, hfiles⟩ := event.files_of_exit hall.1 v
        obtain ⟨hagenda', hfiles'⟩ := ih (event.apply v) hall.2
        exact ⟨hagenda'.trans hagenda, hfiles'.trans hfiles⟩
  have hadvance : ∀ v : World, v.agenda.all (fun batch => batch.all Event.isExit) = true →
      v.advance.agenda.all (fun batch => batch.all Event.isExit) = true ∧
        v.advance.files = v.files := by
    intro v hall
    unfold World.advance
    cases hagenda : v.agenda with
    | nil =>
        rw [hagenda]
        exact ⟨rfl, rfl⟩
    | cons batch rest =>
        rw [hagenda, List.all_cons, Bool.and_eq_true] at hall
        obtain ⟨hrest, hfiles⟩ := hbatch batch { v with agenda := rest } hall.1
        refine ⟨?_, hfiles⟩
        dsimp only
        rw [hrest]
        exact hall.2
  induction h with
  | refl => exact ⟨hexits, rfl, (hadvance w hexits).2⟩
  | @tail mid _ _ hlast ih =>
      obtain ⟨α, c, rfl⟩ := hlast
      obtain ⟨hmid, -, hfiles⟩ := ih
      have hnext : (after c mid).agenda.all (fun batch => batch.all Event.isExit) = true ∧
          (after c mid).files = mid.advance.files := by
        cases hanswer : Host.answer c mid with
        | ok a v =>
            obtain ⟨hagenda, hsame, -⟩ := World.effect_keeps (answer_ok hanswer)
            rw [after_of_ok hanswer, hagenda, hsame]
            exact ⟨(hadvance mid hmid).1, rfl⟩
        | error e v =>
            rw [after_of_error hanswer, answer_error hanswer]
            exact ⟨(hadvance mid hmid).1, rfl⟩
      have hsame : (after c mid).files = w.files := hnext.2.trans hfiles
      exact ⟨hnext.1, hsame, (hadvance _ hnext.1).2.trans hsame⟩

/-- Without `/proc/meminfo` nothing is read. -/
theorem freeRamGb_bare {s s' : Sys World} {x : Option ℚ} (hfiles : s.world.advance.files = [])
    (h : freeRamGb s = .ok x s') : x = none := by
  rcases tryExcept_eq_ok.mp h with hbody | ⟨e, s₁, -, -, hhandler⟩
  · obtain ⟨text, s₁, hcall, -⟩ := bind_eq_ok.mp hbody
    obtain ⟨w₁, hanswer, -⟩ := call_eq_ok.mp hcall
    have heffect := answer_ok hanswer
    simp only [World.effect, hfiles, List.lookup_nil] at heffect
    cases heffect
  · cases hhandler
    rfl

/-- On the small site a machine without files is calm. -/
theorem calm_smallSite {queue : List Job} {w : World} (w' : World) (hfiles : w.files = [])
    (hexits : w.agenda.all (fun batch => batch.all Event.isExit) = true)
    (hram : ∀ job ∈ queue, job.ramGb ≤ 100) : Calm (smallSite queue) w w' where
  unpaused := by
    rintro s s' - - hpause
    cases hpause
  memory := by
    intro job hmem s s' decision hbefore _ hcheck
    obtain ⟨x, s₁, hused, hcheck⟩ := bind_eq_ok.mp hcheck
    cases hused
    dsimp only at hcheck
    split at hcheck
    · rename_i hover
      have hover' : (100 : ℚ) < 0 + job.ramGb := hover
      rw [zero_add] at hover'
      exact absurd (hram job hmem) (not_le.mpr hover')
    · obtain ⟨y, s₂, hfree, hcheck⟩ := bind_eq_ok.mp hcheck
      obtain ⟨-, -, hsame⟩ := files_of_exits hbefore hexits
      have hnone : y = none := by
        refine freeRamGb_bare ?_ hfree
        rw [hsame, hfiles]
      subst hnone
      cases hcheck
      rfl

/-- The small site is obliging where processes end and nothing else happens. -/
theorem obliging_smallSite {queue : List Job} {w : World} (hfiles : w.files = [])
    (hexits : w.agenda.all (fun batch => batch.all Event.isExit) = true) :
    Obliging (smallSite queue) w where
  host batch hbatch event hevent := by
    have hexit := List.all_eq_true.mp (List.all_eq_true.mp hexits batch hbatch) event hevent
    cases event with
    | exit k rc => rfl
    | _ => cases hexit
  meminfo v hv text hfile := by
    rw [(files_of_exits hv hexits).2.1, hfiles] at hfile
    cases hfile
  nodes entry hentry := by
    have hlisted : entry = (0, "0-3") ∨ entry = (1, "4-7") := by
      simpa [smallSite] using hentry
    rcases hlisted with rfl | rfl
    · exact ⟨{0, 1, 2, 3}, by decide +kernel⟩
    · exact ⟨{4, 5, 6, 7}, by decide +kernel⟩
  names htmux := absurd htmux (show "subprocess" ≠ "tmux" by decide)
  pollInterval := show 0 ≤ smallConfig.pollInterval ∧ smallConfig.pollInterval * 10 ^ 9 < 2 ^ 63 by
    decide +kernel

/-- Jobs with one core each fit the small site. -/
theorem fitsAlone_smallSite {queue : List Job} {job : Job} (hcores : job.cores = 1) :
    FitsAlone (smallSite queue) job where
  budget := by
    rw [hcores]
    exact show (1 : ℤ) ≤ 8 by decide
  node := by
    have hlisted : (0, "0-3") ∈ [((0 : ℤ), "0-3"), (1, "4-7")] := List.mem_cons_self ..
    refine ⟨0, {0, 1, 2, 3}, ⟨"0-3", hlisted, by decide +kernel⟩, ?_⟩
    rw [hcores]
    exact show (1 : ℤ) ≤ (({0, 1, 2, 3} : Finset ℤ) \ ∅).card by decide

theorem peaceful_of_checks {site : Site} {outcome : String → Bool} {s : Sys World} {reason : String}
    (hrunner : site.config.runner ≠ "tmux")
    (hjobs : s.jobs.all (fun job => job.status != .failed || job.failureReason == reason) = true)
    (hreason : "launch_error: ".toList.isPrefixOf reason.toList = false)
    (hspared : reason ≠ "oom_killed")
    (hexits : s.world.procs.all (fun p => p.exit.all fun rc => (rc == 0) == outcome p.job.id) =
      true) : Peaceful site outcome s where
  sessions htmux := absurd htmux hrunner
  processes _ p hp rc hexit := by
    have hcode := List.all_eq_true.mp hexits p hp
    rw [hexit, Option.all_some, beq_iff_eq] at hcode
    rw [← hcode, beq_iff_eq]
  launched job hmem hfailed := by
    rw [launchFailed_of_reason hjobs hreason job hmem] at hfailed
    cases hfailed
  spared job hmem hfailed := by
    have hjob := List.all_eq_true.mp hjobs job hmem
    rw [hfailed, Bool.or_eq_true, beq_iff_eq] at hjob
    rcases hjob with hstatus | hsame
    · cases hstatus
    · rw [hsame]
      exact hspared

theorem hoped_of_returns {α : Type} {result : EStateM.Result Exc (Sys World) α}
    {hoped : Sys World → Bool} {a : α} {s : Sys World} (h : returns result hoped = true)
    (hresult : result = .ok a s) : hoped s = true := by
  rw [hresult] at h
  exact h

/-- No process is alive. -/
def allGone (s : Sys World) : Bool :=
  s.world.procs.all fun p => p.exit.isSome

theorem allExited_of_allGone {s : Sys World} (h : allGone s = true) : AllExited s.world := by
  intro p hp hnone
  have hsome := List.all_eq_true.mp h p hp
  rw [hnone] at hsome
  cases hsome

/-- A job that is done, one that fails, and one that waits for it and for itself. -/
def cycleJobs : List Job :=
  [{ id := "a", command := "true" }, { id := "b", command := "false", dependsOn := ["a"] },
    { id := "c", command := "true", dependsOn := ["b", "c"] }]

/-- A run of these jobs, each process ending before the next tick. -/
def cycleRun (k : ℕ) : EStateM.Result Exc (Sys World) Bool :=
  run (smallSite cycleJobs smallConfig reserved_smallConfig) none k
    (fresh (smallSite cycleJobs smallConfig reserved_smallConfig) (endingWorld 12 13 3))

/-- A job that waits for itself. -/
def selfJobs : List Job :=
  [{ id := "a", command := "true", dependsOn := ["a"] }]

end Nodepilot
