import Nodepilot.Lib.Walks
import Nodepilot.Safety.Cooldown
import Nodepilot.Safety.LaunchPass
import Nodepilot.Steps.Idle
import Nodepilot.Steps.Saved

/-!
# What keeps a tick from changing anything

A tick that finds nothing running and changes nothing has looked at every waiting
job.  The passes over the dependents have come to an end, so every dependency of a
waiting job is done, waits too, or sleeps; and where all are done the launch pass
has turned the job down on the idle machine.  So a walk from a waiting job along
its dependencies through waiting jobs can only end at a dormant job, at a refusal,
or where it has been (`stuck_tick`).
-/

namespace Nodepilot

open Obeys Relation Walks

variable {W : Type} [Host W]

/-! ## An unchanging tick -/

/-- Between two worlds there is no pause file, no cooldown is active, and the memory readings
stay as they are. -/
structure Unchanging (config : Config) (cooldownUntil : ℚ) (w w' : W)
    (used cap free : Option ℚ) : Prop extends Steady config w w' used cap free where
  unpaused : ∀ s s' : Sys W, Onward w s.world → Onward s.world w' →
    paused config s ≠ .ok true s'
  cool : ∀ (v v' : W) (now : ℚ), Onward w v → Onward v' w' → Host.answer .time v = .ok now v' →
    cooldownUntil ≤ now

/-- Admission control or the allocator turns the job down though nothing runs. -/
inductive RefusedIdle (site : Site) (s s' : Sys W) (used cap free : Option ℚ) (job : Job) : Prop
  | admission {w₁ w₂ : W} {decision : Decision} (hbefore : Onward s.world w₁)
      (hafter : Onward w₂ s'.world)
      (hdecision : canLaunch site.config job s.jobs { s with world := w₁ } =
        .ok decision { s with world := w₂ })
      (hno : decision.ok = false)
      (hwhy : checkCounts site.config job [] = some decision ∨
        ¬ (Fits site.config used cap free job.ramGb ∧
          (used = none → job.ramGb ≤ site.config.ramBudgetGb)))
  | placement
      (hplaced : allocate job.cores site.reserved site.numaNodes (allocateOptions site job) =
        .ok none)

/-- The job waits for a dormant one, or for nothing but to be let in. -/
def Halted (site : Site) (s s' : Sys W) (used cap free : Option ℚ) (job : Job) : Prop :=
  (∃ upstream ∈ s.jobs, upstream.id ∈ job.dependsOn ∧ upstream.status = .dormant) ∨
    ((∀ dep ∈ job.dependsOn, ∃ upstream ∈ s.jobs, upstream.id = dep ∧ upstream.status = .done) ∧
      RefusedIdle site s s' used cap free job)

/-! ## Dependencies of a waiting job -/

section

omit [Host W]

variable {jobs : List Job}

theorem byId_of_mem (hids : (jobs.map Job.id).Nodup) {upstream : Job} (hmem : upstream ∈ jobs) :
    byId jobs upstream.id = some upstream := by
  cases hfound : byId jobs upstream.id with
  | none => exact absurd rfl (byId_eq_none.mp hfound upstream hmem)
  | some other =>
      obtain ⟨hother, hid⟩ := byId_eq_some hfound
      rw [List.inj_on_of_nodup_map hids hother hmem hid]

/-- What the passes over the dependents have let through is known and not dead. -/
theorem alive_of_unblocked {deps : List String} (h : blocker jobs deps = none) {dep : String}
    (hdep : dep ∈ deps) : ∃ upstream, byId jobs dep = some upstream ∧
      upstream.status ≠ .failed ∧ upstream.status ≠ .skipped := by
  induction deps with
  | nil => cases hdep
  | cons first rest ih =>
      rw [blocker] at h
      cases hfound : byId jobs first with
      | none =>
          simp only [hfound] at h
          cases h
      | some upstream =>
          simp only [hfound] at h
          split at h
          · cases h
          · rename_i halive
            rcases List.mem_cons.mp hdep with rfl | hrest
            · refine ⟨upstream, hfound, ?_⟩
              simpa [JobStatus.dead] using halive
            · exact ih h hrest

theorem not_doomed_of_unblocked (hids : (jobs.map Job.id).Nodup) {deps : List String}
    (h : blocker jobs deps = none) {dep : String} (hdep : dep ∈ deps) : ¬ Doomed jobs dep := by
  obtain ⟨upstream, hfound, hfailed, hskipped⟩ := alive_of_unblocked h hdep
  obtain ⟨hmem, hid⟩ := byId_eq_some hfound
  rintro (hunknown | ⟨other, hother, hsame, hdead⟩)
  · exact hunknown upstream hmem hid
  · have hback := byId_of_mem hids hother
    rw [hsame, hfound] at hback
    cases hback
    rcases hdead with hdead | hdead
    · exact hfailed hdead
    · exact hskipped hdead

/-- A job whose dependencies are not all done has one that is known and not done. -/
theorem exists_waiting_dep {job : Job} (hblocker : blocker jobs job.dependsOn = none)
    (h : depsSatisfied jobs job = false) : ∃ upstream ∈ jobs, upstream.id ∈ job.dependsOn ∧
      upstream.status ≠ .done ∧ upstream.status ≠ .failed ∧ upstream.status ≠ .skipped := by
  obtain ⟨dep, hdep, hnot⟩ := List.all_eq_false.mp h
  obtain ⟨upstream, hfound, hfailed, hskipped⟩ := alive_of_unblocked hblocker hdep
  obtain ⟨hmem, hid⟩ := byId_eq_some hfound
  simp only [hfound, beq_iff_eq] at hnot
  refine ⟨upstream, hmem, ?_, hnot, hfailed, hskipped⟩
  rw [hid]
  exact hdep

end

/-! ## Refusals of an unchanging tick -/

/-- In an unchanging stretch admission control turns a job down for its counts or for the
memory it asks for. -/
theorem refused_why {config : Config} {job : Job} {cooldown : ℚ} {w w' : W}
    {used cap free : Option ℚ} (hstill : Unchanging config cooldown w w' used cap free)
    {s s' : Sys W} {decision : Decision} (hcooldown : s.cooldownUntil = cooldown)
    (hidle : AllIdle s.jobs) (hbefore : Onward w s.world) (hafter : Onward s'.world w')
    (h : canLaunch config job s.jobs s = .ok decision s') (hno : decision.ok = false) :
    checkCounts config job [] = some decision ∨
      ¬ (Fits config used cap free job.ramGb ∧ (used = none → job.ramGb ≤ config.ramBudgetGb)) := by
  obtain ⟨v, hlater, heq⟩ := (quiet_canLaunch _ _ _).of_ok h
  have honward : Onward s.world s'.world := by
    rw [heq]
    exact Later.onward hlater
  rcases canLaunch_refused h hno with hpause | ⟨v₁, now, hv, htime, hactive⟩ | hcounts | ⟨v₁, hv, hram⟩
  · exact absurd hpause (hstill.unpaused s s' hbefore (honward.trans hafter))
  · have hover := hstill.cool v₁ s'.world now (hbefore.trans (Later.onward hv)) hafter htime
    rw [← hcooldown] at hover
    exact absurd hactive (not_lt.mpr hover)
  · rw [hidle.running_eq] at hcounts
    exact Or.inl hcounts
  · right
    rw [hidle.running_eq] at hram
    have hiff := checkRam_ok_iff hstill.toSteady (s := { s with world := v₁ })
      (hbefore.trans (Later.onward hv)) hafter hram
    rw [hno] at hiff
    intro hfits
    refine absurd (hiff.mpr ⟨hfits.1, fun hused => ?_⟩) Bool.false_ne_true
    rw [List.map_nil, List.sum_nil, zero_add]
    exact hfits.2 hused

/-! ## A tick without a change -/

/-- What a tick that changes nothing where nothing runs has found out. -/
theorem tick_eq_false {site : Site} {s s' : Sys W} (hidle : AllIdle s.jobs)
    (h : tick site s = .ok false s') : s'.jobs = s.jobs ∧ Unblocked s.jobs ∧
      ∃ w, Onward s.world w ∧ launchPending site { s with world := w } = .ok false s' := by
  obtain ⟨reaped, s₁, hreap, h⟩ := bind_eq_ok.mp h
  obtain ⟨marked, s₂, hmark, h⟩ := bind_eq_ok.mp h
  obtain ⟨⟨⟩, s₃, hpins, h⟩ := bind_eq_ok.mp h
  obtain ⟨launched, s₄, hlaunch, hpure⟩ := bind_eq_ok.mp h
  obtain ⟨⟨hreaped, hmarked, hlaunched⟩, rfl⟩ :
      (reaped = false ∧ marked = false ∧ launched = false) ∧ s₄ = s' := by
    simpa [Bool.or_assoc] using hpure
  subst hreaped hmarked hlaunched
  obtain ⟨w₁, hseen, rfl⟩ := asks_eq (reapFinished_eq_false hreap)
  obtain ⟨rfl, hunblocked⟩ := markDeadDependents_eq_false site hmark
  obtain ⟨w₂, hlater, rfl⟩ := quiet_enforcePins.of_ok hpins
  have hjobs := jobs_of_asks (launchPending_eq_false (s := { s with world := w₂ }) hidle hlaunch).1
  exact ⟨hjobs, hunblocked, w₂,
    (Seen.onward hseen).trans (Later.onward hlater), hlaunch⟩

/-- A tick that changes nothing though nothing runs, there is no pause file, no cooldown is
active and the readings stay as they are: from every waiting job a walk along dependencies
through waiting jobs ends at a dormant job, at a job that only the idle machine refuses, or
in a cycle; and no waiting job is left with an unknown, failed or skipped dependency. -/
theorem stuck_tick (site : Site) (s s' : Sys W) (used cap free : Option ℚ)
    (hids : (s.jobs.map Job.id).Nodup) (hidle : AllIdle s.jobs)
    (htick : tick site s = .ok false s')
    (hstill : Unchanging site.config s.cooldownUntil s.world s'.world used cap free) :
    s'.jobs = s.jobs ∧ ∀ job ∈ s.jobs, job.status = .pending →
      (∃ path, Walk (fun a => a ∈ s.jobs ∧ a.status = .pending) (fun a b => b.id ∈ a.dependsOn)
        (Halted site s s' used cap free) job path) ∧
      ∀ dep ∈ job.dependsOn, ¬ Doomed s.jobs dep := by
  obtain ⟨hjobs, hunblocked, w, hbefore, hlaunch⟩ := tick_eq_false hidle htick
  have hpass := (launchPending_eq_false (s := { s with world := w }) hidle hlaunch).2
  have hrefused : ∀ job ∈ s.jobs, job.status = .pending → depsSatisfied s.jobs job = true →
      RefusedIdle site s s' used cap free job := by
    intro job hmem hpending hdeps
    rcases hpass job hmem hpending hdeps with ⟨w₁, decision, w₂, hon, hafter, hdecision, hno⟩ | hnone
    · have hstart : Onward s.world w₁ := hbefore.trans hon
      have hwhy := refused_why (s := { s with world := w₁ }) hstill rfl hidle hstart hafter
        hdecision hno
      exact .admission hstart hafter hdecision hno hwhy
    · exact .placement hnone
  -- the nodes of the walk: the waiting jobs
  have hnode : ∀ a : Job, a ∈ (s.jobs.filter fun j => j.status == .pending).toFinset ↔
      a ∈ s.jobs ∧ a.status = .pending := by
    intro a
    simp
  have hnext : ∀ a ∈ (s.jobs.filter fun j => j.status == .pending).toFinset,
      Halted site s s' used cap free a ∨
        ∃ b ∈ (s.jobs.filter fun j => j.status == .pending).toFinset, b.id ∈ a.dependsOn := by
    intro a ha
    obtain ⟨hmem, hpending⟩ := (hnode a).mp ha
    by_cases hdeps : depsSatisfied s.jobs a = true
    · exact Or.inl (Or.inr ⟨depsSatisfied_done hdeps, hrefused a hmem hpending hdeps⟩)
    · obtain ⟨upstream, hup, hdep, hdone, hfailed, hskipped⟩ :=
        exists_waiting_dep (hunblocked a hmem hpending) (Bool.eq_false_iff.mpr hdeps)
      have hnotRunning : upstream.status ≠ .running := hidle upstream hup
      cases hstatus : upstream.status with
      | pending => exact Or.inr ⟨upstream, (hnode upstream).mpr ⟨hup, hstatus⟩, hdep⟩
      | dormant => exact Or.inl (Or.inl ⟨upstream, hup, hdep, hstatus⟩)
      | running => exact absurd hstatus hnotRunning
      | done => exact absurd hstatus hdone
      | failed => exact absurd hstatus hfailed
      | skipped => exact absurd hstatus hskipped
  refine ⟨hjobs, fun job hmem hpending => ⟨?_, fun dep hdep => ?_⟩⟩
  · obtain ⟨path, hpath⟩ := @exists_walk Job _ (fun a b => b.id ∈ a.dependsOn) _
      (Halted site s s' used cap free) hnext job ((hnode job).mpr ⟨hmem, hpending⟩)
    exact ⟨path, hpath.mono fun a ha => (hnode a).mp ha⟩
  · exact not_doomed_of_unblocked hids (hunblocked job hmem hpending) hdep

/-! ## On the machine -/

/-- On a machine without files on which nothing happens a tick finds nothing changed. -/
theorem unchanging_bare (queue : List Job) (w' : World) :
    Unchanging (smallSite queue).config 0 ({} : World) w' none none none where
  used := by
    rintro v x - - ⟨s, s', -, hread⟩
    cases hread
    rfl
  cap := by
    rintro v x - - ⟨s, s', -, hread⟩
    cases hread
    rfl
  free := by
    rintro v x honward - ⟨s, s', rfl, hread⟩
    obtain ⟨hagenda, hfiles, -⟩ := still_of_onward honward rfl
    have hnone : freeRamGb s = .ok none s := by
      have hworld : s = ⟨s.jobs, s.cooldownUntil, s.procs, s.stateFile, s.starts,
          ⟨s.world.clock, s.world.procs, s.world.others, s.world.lastPid, [], s.world.dirs,
            s.world.programs, s.world.journal, s.world.launches, []⟩⟩ := by
        rw [← hagenda, ← show s.world.files = [] from hfiles]
      rw [hworld]
      rfl
    rw [hnone] at hread
    cases hread
    rfl
  unpaused := by
    rintro s s' - - hpause
    cases hpause
  cool := by
    rintro v v' now honward - htime
    calc (0 : ℚ) ≤ v.clock := wallClock.onward honward
      _ ≤ now := (wallClock.read htime).1

/-- A job too large for the machine, one that waits for it, one that waits for a dormant job,
and two that wait for each other. -/
def stuckJobs : List Job :=
  [{ id := "a", command := "true", cores := 100 },
   { id := "b", command := "true", dependsOn := ["a"] },
   { id := "c", command := "true", status := .dormant },
   { id := "d", command := "true", dependsOn := ["c"] },
   { id := "e", command := "true", dependsOn := ["f"] },
   { id := "f", command := "true", dependsOn := ["e"] }]

def stuckSite : Site :=
  smallSite stuckJobs smallConfig reserved_smallConfig

/-- Every waiting job of that queue is the beginning of a walk. -/
theorem stuck_tick_stuckJobs : ∃ s' : Sys World, s'.jobs = stuckJobs ∧
    ∀ job ∈ stuckJobs, job.status = .pending →
      (∃ path, Walk (fun a => a ∈ stuckJobs ∧ a.status = .pending)
        (fun a b => b.id ∈ a.dependsOn)
        (Halted stuckSite (fresh stuckSite {}) s' none none none) job path) ∧
      ∀ dep ∈ job.dependsOn, ¬ Doomed stuckJobs dep := by
  have hends : returns (tick stuckSite (fresh stuckSite {})) (fun s =>
      s.jobs == stuckJobs) = true := by
    decide +kernel
  obtain ⟨changed, s', htick, hsame⟩ := of_returns hends
  rw [beq_iff_eq] at hsame
  have hfalse : changed = false := by
    by_contra htrue
    have hgrown := (tick_tells htick).iff.mp (Bool.not_eq_false changed ▸ htrue)
    exact hgrown hsame
  subst hfalse
  have hstill : Unchanging stuckSite.config (fresh stuckSite ({} : World)).cooldownUntil
      (fresh stuckSite ({} : World)).world s'.world none none none :=
    unchanging_bare stuckJobs s'.world
  have hids : (stuckJobs.map Job.id).Nodup := by decide
  have hidle : AllIdle stuckJobs := by decide
  have hstuck := stuck_tick stuckSite (fresh stuckSite {}) s' none none none hids hidle htick hstill
  exact ⟨s', hstuck⟩

end Nodepilot
