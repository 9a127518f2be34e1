import Nodepilot.Machine.Restart
import Nodepilot.Machine.Trial
import Nodepilot.Safety.LifeCycle
import Nodepilot.Steps.Idle
import Nodepilot.Steps.Saved

/-!
# Success across restarts

A job is done because its process has returned zero; with a handle the runner knows
what the process has returned.  A job that an earlier orchestrator started has no
handle: that its process is gone is all the runner can find out, and then it takes
the job for done unless the kernel log speaks of an OOM kill.

So a run invents no success as long as every running job has a handle of its own or
a process that can only end well (`Trusted`).  What the run keeps is `Earned`: the
process of every job that is done has returned zero, and what was started has only
such dependencies.
-/

namespace Nodepilot

open Obeys Relation

/-! ## Tables and job lists -/

/-- Every process of one table is there in the other, for the same job, and has ended there if
it had here. -/
structure Recalls (w w' : World) : Prop where
  back : ∀ (k : ℕ) (q : Proc), w'.procs[k]? = some q →
    ∃ p, w.procs[k]? = some p ∧ q.job = p.job ∧ ∀ rc, p.exit = some rc → q.exit = some rc
  forth : ∀ (k : ℕ) (p : Proc), w.procs[k]? = some p →
    ∃ q, w'.procs[k]? = some q ∧ q.job = p.job ∧ ∀ rc, p.exit = some rc → q.exit = some rc

theorem Aged.recalls {waited : Set ℕ} {w w' : World} (h : Aged waited w w') : Recalls w w' where
  back k q hq := by
    obtain ⟨p, hp, hages⟩ := h.back hq
    exact ⟨p, hp, hages.job, hages.exit⟩
  forth k p hp := by
    obtain ⟨q, hq, hages⟩ := h.procs k p hp
    exact ⟨q, hq, hages.job, hages.exit⟩

theorem recalls_orphan (w : World) : Recalls w w.orphan where
  back k q hq := by
    obtain ⟨p, hp, rfl⟩ := getElem?_orphan hq
    exact ⟨p, hp, rfl, fun _ h => h⟩
  forth k p hp := by
    refine ⟨{ p with child := false }, ?_, rfl, fun _ h => h⟩
    rw [World.orphan, List.getElem?_map, hp, Option.map_some]

/-- The process of every job that is done has returned zero, and what was started has only such
dependencies. -/
structure Earned (queue jobs : List Job) (w : World) : Prop where
  ids : (jobs.map Job.id).Nodup
  once : ∀ (j k : ℕ) (p q : Proc), w.procs[j]? = some p → w.procs[k]? = some q →
    p.job.id = q.job.id → j = k
  begun : ∀ (k : ℕ) (p : Proc), w.procs[k]? = some p →
    ∃ job ∈ jobs, job.id = p.job.id ∧ job.status ≠ .pending
  zero : ∀ job ∈ jobs, job.status = .done → ∀ (k : ℕ) (p : Proc), w.procs[k]? = some p →
    p.job.id = job.id → p.exit = some 0
  started : ∀ (i : ℕ) (job queued : Job), jobs[i]? = some job → job.status = .done →
    queue[i]? = some queued → queued.status ≠ .done →
      ∃ (k : ℕ) (p : Proc), w.procs[k]? = some p ∧ p.job.id = job.id
  deps : ∀ (k : ℕ) (p : Proc), w.procs[k]? = some p → ∀ dep ∈ p.job.dependsOn,
    ∃ upstream ∈ jobs, upstream.id = dep ∧ upstream.status = .done

namespace Earned

variable {queue jobs jobs' : List Job} {w w' : World}

/-- Where nothing was started it is enough to look at the jobs that have become done. -/
theorem of_recalls (h : Earned queue jobs w) (hprogress : Progress jobs jobs')
    (hrecalls : Recalls w w')
    (hdone : ∀ (i : ℕ) (job : Job), jobs'[i]? = some job → job.status = .done →
      jobs[i]? = some job ∨ ∃ (k : ℕ) (p : Proc), w'.procs[k]? = some p ∧ p.job.id = job.id ∧
        p.exit = some 0) : Earned queue jobs' w' := by
  have honce : ∀ (j k : ℕ) (p q : Proc), w'.procs[j]? = some p → w'.procs[k]? = some q →
      p.job.id = q.job.id → j = k := by
    intro j k p' q' hp' hq' hid
    obtain ⟨p, hp, hpjob, -⟩ := hrecalls.back j p' hp'
    obtain ⟨q, hq, hqjob, -⟩ := hrecalls.back k q' hq'
    exact h.once j k p q hp hq (by rw [← hpjob, ← hqjob, hid])
  refine ⟨hprogress.ids ▸ h.ids, honce, fun k q hq => ?_, fun job hmem hjob k q hq hid => ?_,
    fun i job queued hi hjob hqueued hnot => ?_, fun k q hq dep hdep => ?_⟩
  · obtain ⟨p, hp, hsame, -⟩ := hrecalls.back k q hq
    exact hsame ▸ hprogress.begun (h.begun k p hp)
  · obtain ⟨i, hi⟩ := List.mem_iff_getElem?.mp hmem
    rcases hdone i job hi hjob with hold | ⟨k', p', hp', hid', hexit⟩
    · obtain ⟨p, hp, hsame, hexit⟩ := hrecalls.back k q hq
      exact hexit 0 (h.zero job (List.mem_of_getElem? hold) hjob k p hp (by rw [← hsame, hid]))
    · -- it is the process the job is done by
      obtain rfl := honce k k' q p' hq hp' (hid.trans hid'.symm)
      rw [hq] at hp'
      cases hp'
      exact hexit
  · rcases hdone i job hi hjob with hold | ⟨k, p, hp, hid, -⟩
    · obtain ⟨k, p, hp, hid⟩ := h.started i job queued hold hjob hqueued hnot
      obtain ⟨q, hq, hsame, -⟩ := hrecalls.forth k p hp
      exact ⟨k, q, hq, by rw [hsame, hid]⟩
    · exact ⟨k, p, hp, hid⟩
  · obtain ⟨p, hp, hsame, -⟩ := hrecalls.back k q hq
    exact hprogress.done (h.deps k p hp dep (hsame ▸ hdep))

/-- A start of a job whose dependencies are done. -/
theorem of_start {i : ℕ} {job : Job} {f : Job → Job} (h : Earned queue jobs w)
    (hjob : jobs[i]? = some job) (hpending : job.status = .pending)
    (hdeps : depsSatisfied jobs job = true) (hprogress : Progress jobs (jobs.modify i f))
    (hrunning : (f job).status = .running) (hid : (f job).id = job.id)
    (hold : ∀ (k : ℕ) (p : Proc), w.procs[k]? = some p →
      ∃ q, w'.procs[k]? = some q ∧ q.job = p.job ∧ ∀ rc, p.exit = some rc → q.exit = some rc)
    (hnew : ∃ n, ∀ (k : ℕ) (q : Proc), w'.procs[k]? = some q →
      (∃ p, w.procs[k]? = some p ∧ q.job = p.job ∧ ∀ rc, p.exit = some rc → q.exit = some rc) ∨
        (k = n ∧ q.job.id = job.id ∧ q.job.dependsOn = job.dependsOn)) :
    Earned queue (jobs.modify i f) w' := by
  obtain ⟨n, hnew⟩ := hnew
  -- no process of the job was there before
  have hfirst : ∀ (k : ℕ) (p : Proc), w.procs[k]? = some p → p.job.id ≠ job.id := by
    intro k p hp hsame
    obtain ⟨other, hmem, hother, hbegun⟩ := h.begun k p hp
    obtain ⟨j, hj⟩ := List.mem_iff_getElem?.mp hmem
    have hij : j = i := by
      by_contra hne
      exact id_ne_of_ne h.ids hj hjob hne (hother.trans hsame)
    subst hij
    rw [hjob] at hj
    cases hj
    exact hbegun hpending
  have hlater : ∀ (j : ℕ) (b : Job), (jobs.modify i f)[j]? = some b → b.status = .done →
      jobs[j]? = some b ∧ b.id ≠ job.id := by
    intro j b hb hdone
    rcases getElem?_modify_cases hb with ⟨hne, hold⟩ | ⟨a, -, ha, rfl⟩
    · exact ⟨hold, id_ne_of_ne h.ids hold hjob hne⟩
    · rw [hjob] at ha
      cases ha
      rw [hrunning] at hdone
      cases hdone
  have hstarted : (jobs.modify i f)[i]? = some (f job) := by
    simp [hjob]
  refine ⟨hprogress.ids ▸ h.ids, fun j k p q hp hq hpq => ?_, fun k q hq => ?_,
    fun b hmem hdone k q hq hqid => ?_, fun j b queued hb hdone hqueued hnot => ?_,
    fun k q hq dep hdep => ?_⟩
  · rcases hnew j p hp with ⟨p₀, hp₀, hpjob, -⟩ | ⟨rfl, hpid, -⟩
    · rcases hnew k q hq with ⟨q₀, hq₀, hqjob, -⟩ | ⟨rfl, hqid, -⟩
      · exact h.once j k p₀ q₀ hp₀ hq₀ (by rw [← hpjob, ← hqjob, hpq])
      · exact absurd (by rw [← hpjob, hpq, hqid]) (hfirst j p₀ hp₀)
    · rcases hnew k q hq with ⟨q₀, hq₀, hqjob, -⟩ | ⟨rfl, -, -⟩
      · exact absurd (by rw [← hqjob, ← hpq, hpid]) (hfirst k q₀ hq₀)
      · rfl
  · rcases hnew k q hq with ⟨p, hp, hsame, -⟩ | ⟨-, hqid, -⟩
    · exact hsame ▸ hprogress.begun (h.begun k p hp)
    · exact ⟨f job, List.mem_of_getElem? hstarted, by rw [hid, hqid], by rw [hrunning]; exact nofun⟩
  · obtain ⟨j, hj⟩ := List.mem_iff_getElem?.mp hmem
    obtain ⟨hbefore, hne⟩ := hlater j b hj hdone
    rcases hnew k q hq with ⟨p, hp, hsame, hexit⟩ | ⟨-, hqid', -⟩
    · exact hexit 0 (h.zero b (List.mem_of_getElem? hbefore) hdone k p hp (by rw [← hsame, hqid]))
    · exact absurd (hqid.symm.trans hqid') hne
  · obtain ⟨hbefore, -⟩ := hlater j b hb hdone
    obtain ⟨k, p, hp, hpid⟩ := h.started j b queued hbefore hdone hqueued hnot
    obtain ⟨q, hq, hsame, -⟩ := hold k p hp
    exact ⟨k, q, hq, by rw [hsame, hpid]⟩
  · have hearlier : ∃ upstream ∈ jobs, upstream.id = dep ∧ upstream.status = .done := by
      rcases hnew k q hq with ⟨p, hp, hsame, -⟩ | ⟨-, -, hsame⟩
      · exact h.deps k p hp dep (hsame ▸ hdep)
      · exact depsSatisfied_done hdeps dep (hsame ▸ hdep)
    exact hprogress.done hearlier

end Earned

/-! ## Moves that end no job well -/

section Moves

variable {site : Site} {label : Label} {s s' : Sys World} {queue : List Job}

/-- Only a reap takes a job for done. -/
theorem Turn.done_back {gated : Bool} {jobs jobs' : List Job}
    (hturn : Turn site gated label jobs jobs') (hreap : ∀ i, label ≠ .reap i) {k : ℕ} {b : Job}
    (hb : jobs'[k]? = some b) (hdone : b.status = .done) : jobs[k]? = some b := by
  have hother : ∀ {i : ℕ} {f : Job → Job}, (∀ job, (f job).status ≠ .done) →
      jobs' = jobs.modify i f → jobs[k]? = some b := by
    intro i f hf hjobs
    rw [hjobs] at hb
    rcases getElem?_modify_cases hb with ⟨-, hold⟩ | ⟨a, -, -, rfl⟩
    · exact hold
    · exact absurd hdone (hf a)
  cases hturn with
  | ask => exact hb
  | save => exact hb
  | spare => exact hb
  | reap => exact absurd rfl (hreap _)
  | skip => exact hother (fun job => by simp) rfl
  | launch => exact hother (fun job => by simp) rfl
  | fail => exact hother (fun job => by simp) rfl
  | kill => exact hother (fun job => by simp) rfl
  | clear => exact hother (fun job => by simp) rfl

theorem Move.earned (hmove : Move site true label s s') (hrunner : site.config.runner ≠ "tmux")
    (hreap : ∀ i, label ≠ .reap i) (hkill : ∀ i, label ≠ .kill i)
    (h : Earned queue s.jobs s.world) : Earned queue s'.jobs s'.world := by
  have hprogress : Progress s.jobs s'.jobs := hmove.turn.progress
  by_cases hlaunch : ∃ i, label = .launch i
  · obtain ⟨i, rfl⟩ := hlaunch
    cases hmove with
    | @launch _ s₁ _ job placement argv w w₂ now hchosen hstarted htime =>
        obtain ⟨session, hlist⟩ := hstarted.launched
        simp only [hlist] at hprogress ⊢
        have hbefore : Aged ∅ s.world w := Later.aged hchosen.later
        have hafter : Aged ∅ s₁.world w₂ := Later.aged (.of_ok rfl htime)
        obtain ⟨w₁, -, -, hadds⟩ := hstarted.adds hrunner
        refine h.of_start hchosen.found hchosen.pending (hchosen.deps rfl) hprogress rfl rfl ?_
          ⟨w₁.procs.length, fun k q hq => ?_⟩
        · intro k p hp
          obtain ⟨p₁, hp₁, hages⟩ := hbefore.grows.procs k p hp
          obtain ⟨p₂, hp₂, hages'⟩ := hstarted.onward.grows.procs k p₁ hp₁
          obtain ⟨q, hq, hages''⟩ := hafter.grows.procs k p₂ hp₂
          have hall := (hages.trans hages').trans hages''
          exact ⟨q, hq, hall.job, hall.exit⟩
        · obtain ⟨q₁, hq₁, hages⟩ := hafter.back hq
          rcases hadds k q₁ hq₁ with ⟨p, hp, hages'⟩ | ⟨hk, hjob, -⟩
          · obtain ⟨p₀, hp₀, hages₀⟩ := hbefore.back hp
            have hall := (hages₀.toAges.trans hages').trans hages.toAges
            exact Or.inl ⟨p₀, hp₀, hall.job, hall.exit⟩
          · refine Or.inr ⟨hk, ?_, ?_⟩ <;> rw [hages.job, hjob] <;> rfl
  · refine h.of_recalls hprogress ?_ fun i job hi hdone => Or.inl (hmove.turn.done_back hreap hi hdone)
    exact (hmove.aged hrunner (fun i hi => hlaunch ⟨i, hi⟩) hkill).recalls

end Moves

/-! ## Reaping -/

section Oom

variable {W : Type} [Host W]

/-- Asked now, the kernel log would speak of an OOM kill. -/
def LogsOom (w : W) : Prop :=
  (∃ w', Host.answer (.which "journalctl") w = .ok true w') ∧
    ∃ text w', Host.answer (.journalctl 5) w = .ok text w' ∧
      (Text.occursIn "oom-kill".toList (Text.lower text.toList) ||
        Text.occursIn "out of memory".toList (Text.lower text.toList)) = true

theorem journalReportsOom_true {s s' : Sys W} {hint : Bool}
    (h : Throughout LogsOom s.world s'.world) (hrun : journalReportsOom 5 s = .ok hint s') :
    hint = true := by
  obtain ⟨w', hlater, hsame⟩ := (quiet_journalReportsOom 5).of_ok hrun
  have hend : s'.world = w' := by rw [hsame]
  rw [hend] at h
  obtain ⟨found, s₁, hcall, hrun⟩ := bind_eq_ok.mp hrun
  obtain ⟨w₁, hanswer, rfl⟩ := call_eq_ok.mp hcall
  obtain ⟨w₂, hwhich⟩ := (h.start (Later.onward hlater)).1
  rw [hanswer, EStateM.Result.ok.injEq] at hwhich
  obtain ⟨rfl, -⟩ := hwhich
  obtain ⟨answer, s₂, htry, hrun⟩ := bind_eq_ok.mp hrun
  rcases tryExcept_eq_ok.mp htry with hbody | ⟨e, s₃, hbody, -, hhandler⟩
  · obtain ⟨text, s₃, hcall, hpure⟩ := bind_eq_ok.mp hbody
    obtain ⟨w₃, hanswer', rfl⟩ := call_eq_ok.mp hcall
    cases hpure
    cases hrun
    have hlogs : LogsOom w₁ := h w₁ (.of_ok hanswer) (hend ▸ .of_ok hanswer')
    obtain ⟨text', w₄, hjournal, hnames⟩ := hlogs.2
    rw [hanswer', EStateM.Result.ok.injEq] at hjournal
    obtain ⟨rfl, -⟩ := hjournal
    exact hnames
  · rcases bind_eq_error.mp hbody with hraise | ⟨text, s₄, -, hpure⟩
    · obtain ⟨w₃, hanswer', rfl⟩ := call_eq_error.mp hraise
      cases hhandler
      cases hrun
      have hlogs : LogsOom w₁ := h w₁ (.of_ok hanswer) (hend ▸ .of_error hanswer')
      obtain ⟨text', w₄, hjournal, -⟩ := hlogs.2
      rw [hanswer'] at hjournal
      cases hjournal
    · cases hpure

end Oom

/-- If the process has ended, it has returned zero or the kernel log speaks of an OOM kill; until
then its name does not make it look like a zombie. -/
def EndsWell (k : ℕ) (w : World) : Prop :=
  ∀ q, w.procs[k]? = some q →
    (q.exit = none → legible q.comm) ∧ ∀ rc, q.exit = some rc → rc = 0 ∨ LogsOom w

/-- No two running jobs have one pid, and every running job has a process under its pid, for
which this orchestrator has the handle, or which ends well on the way to another world. -/
structure Trusted (s : Sys World) (w : World) : Prop where
  apart : ∀ (i j : ℕ) (a b : Job), s.jobs[i]? = some a → s.jobs[j]? = some b →
    a.status = .running → b.status = .running → a.session = b.session → i = j
  known : ∀ (i : ℕ) (job : Job), s.jobs[i]? = some job → job.status = .running →
    ∃ n k p, job.session = pidSession n ∧ s.world.procs[k]? = some p ∧ p.track = .pid n ∧
      p.job.id = job.id ∧
      (s.procs.lookup (n : ℤ) = some ⟨n, k⟩ ∨
        (s.procs.lookup (n : ℤ) = none ∧ Throughout (EndsWell k) s.world w))

/-- How far a sweep over the running jobs has come. -/
structure Reaping (queue : List Job) (s s₁ : Sys World) : Prop where
  earned : Earned queue s₁.jobs s₁.world
  well : WellFormed s₁.world
  aged : Aged Set.univ s.world s₁.world
  onward : Onward s.world s₁.world
  running : ∀ (i : ℕ) (job : Job), s₁.jobs[i]? = some job → job.status = .running →
    s.jobs[i]? = some job
  handles : ∀ (i n : ℕ) (job : Job), s₁.jobs[i]? = some job → job.status = .running →
    job.session = pidSession n → s₁.procs.lookup (n : ℤ) = s.procs.lookup (n : ℤ)

section Reap

variable {site : Site} {s b c : Sys World} {queue : List Job} {w' : World}

/-- The process of a trusted job that is found dead has returned zero if the job is taken for
done. -/
theorem Reaping.zero {i : ℕ} {job : Job} {outcome : Outcome} {w₁ w₂ w₃ w₄ : World}
    {now cooldown : ℚ} (h : Reaping queue s b) (htrusted : Trusted s w')
    (hjob : b.jobs[i]? = some job) (hrunning : job.status = .running)
    (hdead : isAlive job b = .ok false { b with world := w₁ })
    (hreap : reap job { b with world := w₁ } =
      .ok outcome { b with procs := forgotten job b.procs, world := w₂ })
    (htime : Host.answer .time w₂ = .ok now w₃)
    (hcooled : Cooled site.config outcome b.cooldownUntil w₃ cooldown w₄) (hend : Onward w₄ w')
    (hdone : outcome.status = .done) :
    ∃ (k : ℕ) (p : Proc), w₄.procs[k]? = some p ∧ p.job.id = job.id ∧ p.exit = some 0 := by
  obtain ⟨n, k, p, hsession, hp, htrack, howner, hcase⟩ :=
    htrusted.known i job (h.running i job hjob hrunning) hrunning
  obtain ⟨q, hq, hages⟩ := h.aged.procs k p hp
  have hlookup := h.handles i n job hjob hrunning hsession
  rcases hcase with hhandle | ⟨hnone, hends⟩
  · -- the handle tells what the process has returned
    obtain ⟨haged, r, rc, hint, hr, hexit, houtcome⟩ :=
      reap_aged hsession (hlookup.trans hhandle) hdead hreap htime hcooled
    obtain ⟨r', hr', hages'⟩ := haged.procs k q hq
    have hsame : r' = r := Option.some.inj (hr'.symm.trans hr)
    subst hsame
    rw [houtcome, classify_normalise.2] at hdone
    refine ⟨k, r', hr, ?_, by rw [hexit, hdone]⟩
    rw [hages'.job, hages.job, howner]
  · -- without one the process is only known to be gone
    have hprobe := isAlive_pid hsession (hlookup.trans hnone) hdead
    obtain ⟨rc', w₅, hint, w₆, hcode, -, hlater, hsame, houtcome, hjournal⟩ := reap_eq_ok hreap
    obtain ⟨rfl, hsame'⟩ :=
      returncode_pid (s := { b with world := w₁ }) hsession (hlookup.trans hnone) hcode
    have hw₅ : w₅ = w₁ := congrArg Sys.world hsame'
    have hw₆ : w₂ = w₆ := congrArg Sys.world hsame
    subst hw₅ hw₆
    have hbefore : Onward b.world w₅ := by
      obtain ⟨w, hseen, hworld⟩ := (looking_isAlive job).of_ok hdead
      cases hworld
      exact Seen.onward hseen
    have hrest : Onward w₂ w₄ := (Onward.of_ok htime).trans hcooled.onward
    have hreach : ∀ v, Onward w₅ v → Onward v w₂ → EndsWell k v := fun v hv hv' =>
      hends v ((h.onward.trans hbefore).trans hv) ((hv'.trans hrest).trans hend)
    obtain ⟨r, hr, hages'⟩ := hbefore.grows.procs k q hq
    obtain ⟨hlegible, hreturned⟩ := hreach w₅ (.refl _) (Later.onward hlater) r hr
    cases hexit : r.exit with
    | none =>
        have hpid : r.track = .pid n := hages'.track.trans (hages.track.trans htrack)
        exact absurd (hlegible hexit)
          (pidAlive_machine h.well hprobe (List.mem_of_getElem? hr) hpid hexit)
    | some rc =>
        have hzero : rc = 0 := by
          by_contra hne
          have hlogs : Throughout LogsOom w₅ w₂ := by
            intro v hv hv'
            obtain ⟨r', hr', hages''⟩ := hv.grows.procs k r hr
            exact ((hreach v hv hv' r' hr').2 rc (hages''.exit rc hexit)).resolve_left hne
          have htrue : hint = true := by
            refine journalReportsOom_true ?_ (hjournal (Or.inr rfl))
            exact hlogs
          rw [houtcome, htrue] at hdone
          cases hdone
        obtain ⟨r', hr', hages''⟩ := ((Later.onward hlater).trans hrest).grows.procs k r hr
        refine ⟨k, r', hr', ?_, by rw [hages''.exit rc hexit, hzero]⟩
        rw [hages''.job, hages'.job, hages.job, howner]

theorem Reaping.step {label : Label} (h : Reaping queue s b) (htrusted : Trusted s w')
    (hrunner : site.config.runner ≠ "tmux") (hlabel : label.inReap = true)
    (hmove : Move site true label b c) (hend : Onward c.world w') : Reaping queue s c := by
  have hwell : WellFormed c.world := hmove.onward.wellFormed h.well
  have honward : Onward s.world c.world := h.onward.trans hmove.onward
  have hlaunch : ∀ i, label ≠ .launch i := by
    rintro i rfl
    cases hlabel
  have hkill : ∀ i, label ≠ .kill i := by
    rintro i rfl
    cases hlabel
  have haged : Aged Set.univ b.world c.world := hmove.aged hrunner hlaunch hkill
  have hasked : (∀ i, label ≠ .reap i) → c.jobs = b.jobs → c.procs = b.procs → Reaping queue s c := by
    intro hreap hjobs hprocs
    refine ⟨hmove.earned hrunner hreap hkill h.earned, hwell, h.aged.trans haged, honward, ?_, ?_⟩
    · rw [hjobs]
      exact h.running
    · rw [hjobs, hprocs]
      exact h.handles
  have hprogress : Progress b.jobs c.jobs := hmove.turn.progress
  cases hmove with
  | ask => exact hasked nofun rfl rfl
  | probe => exact hasked nofun rfl rfl
  | @reap _ i job outcome w₁ w₂ w₃ w₄ now cooldown hjob hrunning hdead hreap htime hcooled =>
      have hstopped : ∀ {j : ℕ} {other : Job},
          (b.jobs.modify i (Job.finish outcome now))[j]? = some other → other.status = .running →
            j ≠ i ∧ b.jobs[j]? = some other := by
        intro j other hj hother
        rcases getElem?_modify_cases hj with ⟨hne, hold⟩ | ⟨a, -, -, rfl⟩
        · exact ⟨hne, hold⟩
        · obtain ⟨rc, -, hint, -, -, -, -, -, rfl, -⟩ := reap_eq_ok hreap
          rw [Job.finish_status] at hother
          rcases classify_status rc hint with hended | hended <;> rw [hended] at hother <;>
            cases hother
      refine ⟨h.earned.of_recalls hprogress haged.recalls fun j other hj hdone => ?_, hwell,
        h.aged.trans haged, honward, fun j other hj hother => ?_, fun j n other hj hother hsession => ?_⟩
      · rcases getElem?_modify_cases hj with ⟨-, hold⟩ | ⟨a, -, ha, rfl⟩
        · exact Or.inl hold
        · rw [hjob] at ha
          cases ha
          have hzero := h.zero htrusted hjob hrunning hdead hreap htime hcooled hend hdone
          exact Or.inr hzero
      · exact h.running j other (hstopped hj hother).2 hother
      · obtain ⟨hne, hold⟩ := hstopped hj hother
        have hkept := h.handles j n other hold hother hsession
        obtain ⟨m, -, -, hreaped, -⟩ :=
          htrusted.known i job (h.running i job hjob hrunning) hrunning
        have hpids : n ≠ m := by
          rintro rfl
          exact hne (htrusted.apart j i other job (h.running j other hold hother)
            (h.running i job hjob hrunning) hother hrunning (hsession.trans hreaped.symm))
        change (forgotten job b.procs).lookup (n : ℤ) = _
        rw [forgotten_pidSession hreaped, lookup_popProc_of_ne (by simpa using hpids)]
        exact hkept
  | _ => cases hlabel

end Reap

/-! ## Rounds -/

/-- The moves that neither reap nor kill. -/
def Label.sparing : Label → Bool
  | .reap _ | .kill _ => false
  | _ => true

section Rounds

variable {site : Site} {s s' : Sys World} {queue : List Job}

/-- A round reaps first. -/
theorem round_split (h : round site s = .ok () s') : ∃ s₁,
    ReflTransGen (Step site true Label.inReap) s s₁ ∧
      ReflTransGen (Step site true Label.sparing) s₁ s' := by
  obtain ⟨changed, s₄, htick, hsave, -⟩ := round_eq_ok h
  obtain ⟨reaped, s₁, hreap, htick⟩ := bind_eq_ok.mp htick
  obtain ⟨marked, s₂, hmark, htick⟩ := bind_eq_ok.mp htick
  obtain ⟨⟨⟩, s₃, hpins, htick⟩ := bind_eq_ok.mp htick
  obtain ⟨launched, s₅, hlaunch, hpure⟩ := bind_eq_ok.mp htick
  cases hpure
  have hspares : ∀ {kinds : Label → Bool} {t t' : Sys World},
      (∀ label, kinds label = true → label.sparing = true) →
        ReflTransGen (Step site true kinds) t t' →
          ReflTransGen (Step site true Label.sparing) t t' :=
    fun hkinds hpath => ReflTransGen.mono (fun _ _ => Step.mono hkinds) _ _ hpath
  have hskips := ((markDeadDependents_obeys site true).returns trivial hmark).1
  have hlooks : Makes site true Label.inAsk (enforcePins (W := World)) :=
    quiet_enforcePins.obeys site true rfl fun _ _ _ => trivial
  have hasks := (hlooks.returns trivial hpins).1
  have hpass := ((launchPending_obeys site).returns trivial hlaunch).1
  refine ⟨s₁, ((reapFinished_obeys site true).returns trivial hreap).1, ?_⟩
  refine ((hspares ?_ hskips).trans (hspares ?_ hasks)).trans ((hspares ?_ hpass).trans
    (hspares ?_ hsave))
  all_goals
    intro label hlabel
    cases label <;> first | rfl | cases hlabel

/-- A path without a reap and a kill. -/
theorem Earned.of_path (hrunner : site.config.runner ≠ "tmux")
    (hpath : ReflTransGen (Step site true Label.sparing) s s') (h : Earned queue s.jobs s.world) :
    Earned queue s'.jobs s'.world := by
  refine invariant_of_path (I := fun s => Earned queue s.jobs s.world) ?_ hpath h
  rintro s s' ⟨label, hlabel, hmove⟩ hs
  refine hmove.earned hrunner ?_ ?_ hs
  · rintro i rfl
    cases hlabel
  · rintro i rfl
    cases hlabel

/-- A sweep over jobs that are trusted until the end of the round. -/
theorem Reaping.of_path {b c : Sys World} {w' : World} (hrunner : site.config.runner ≠ "tmux")
    (htrusted : Trusted s w') (hpath : ReflTransGen (Step site true Label.inReap) b c)
    (hend : Onward c.world w') (h : Reaping queue s b) : Reaping queue s c := by
  induction hpath using ReflTransGen.head_induction_on with
  | refl => exact h
  | head hstep hrest ih =>
      obtain ⟨label, hlabel, hmove⟩ := hstep
      exact ih (h.step htrusted hrunner hlabel hmove ((onward_of_path hrest).trans hend))

theorem Earned.of_round (hrunner : site.config.runner ≠ "tmux") (hwell : WellFormed s.world)
    (htrusted : Trusted s s'.world) (hround : round site s = .ok () s')
    (h : Earned queue s.jobs s.world) : Earned queue s'.jobs s'.world := by
  obtain ⟨s₁, hreaps, hrest⟩ := round_split hround
  have hbegins : Reaping queue s s :=
    ⟨h, hwell, .refl _ _, .refl _, fun _ _ hjob _ => hjob, fun _ _ _ _ _ _ => rfl⟩
  have hswept := hbegins.of_path hrunner htrusted hreaps (onward_of_path hrest)
  exact .of_path hrunner hrest hswept.earned

end Rounds

/-! ## Lifetimes -/

/-- The states of the runs of a site in which orchestrators follow each other: each is stopped
between two rounds, what it started lives on, and the next one loads the state file.  If the run
is `trusted`, every round finds the running jobs trusted. -/
inductive Lifetimes (site : Site) (trusted : Bool) : Sys World → Prop
  | fresh {w : World} (hprocs : w.procs = []) : Lifetimes site trusted (fresh site w)
  | event {s : Sys World} (event : Event) (h : Lifetimes site trusted s) :
      Lifetimes site trusted { s with world := event.apply s.world }
  | startUp {s s' : Sys World} (h : Lifetimes site trusted s)
      (hrun : Nodepilot.startUp site s = .ok () s') : Lifetimes site trusted s'
  | round {s s' : Sys World} (h : Lifetimes site trusted s)
      (hrun : Nodepilot.round site s = .ok () s')
      (htrusted : trusted = true → Trusted s s'.world) : Lifetimes site trusted s'
  | resume {s s' : Sys World} (h : Lifetimes site trusted s)
      (hload : fromQueue site { s with world := s.world.orphan } = .ok () s') :
      Lifetimes site trusted s'

section Lifetimes

variable {site : Site} {s : Sys World}

theorem Earned.of_fresh {w : World} (hids : (site.queue.map Job.id).Nodup) (hprocs : w.procs = []) :
    Earned site.queue site.queue w := by
  have hnone : ∀ {k : ℕ} {p : Proc}, w.procs[k]? ≠ some p := by
    intro k p hp
    rw [hprocs] at hp
    cases hp
  refine ⟨hids, fun j k p q hp => absurd hp hnone, fun k p hp => absurd hp hnone,
    fun job _ _ k p hp => absurd hp hnone, fun i job queued hjob hdone hqueued hnot => ?_,
    fun k p hp => absurd hp hnone⟩
  rw [hjob, Option.some.injEq] at hqueued
  exact absurd (hqueued ▸ hdone) hnot

/-- What a trusted run keeps. -/
theorem Lifetimes.earned (hrunner : site.config.runner ≠ "tmux")
    (hids : (site.queue.map Job.id).Nodup) (h : Lifetimes site true s) :
    Earned site.queue s.jobs s.world ∧ WellFormed s.world ∧ Saved site s := by
  induction h with
  | fresh hprocs => exact ⟨.of_fresh hids hprocs, .of_empty hprocs, rfl⟩
  | @event s event _ ih =>
      obtain ⟨hearned, hwell, hsaved⟩ := ih
      have hrecalls : Recalls s.world (event.apply s.world) := (Event.aged ∅ s.world event).recalls
      exact ⟨hearned.of_recalls (.refl _) hrecalls fun i job hi _ => Or.inl hi,
        Event.wellFormed_foldl hwell [event], hsaved⟩
  | startUp _ hrun ih =>
      obtain ⟨hearned, hwell, hsaved⟩ := ih
      have hpath := ((startUp_obeys site).returns trivial hrun).1
      refine ⟨.of_path hrunner (ReflTransGen.mono (fun _ _ => Step.mono ?_) _ _ hpath) hearned,
        (onward_of_path hpath).wellFormed hwell, startUp_saved hrun hsaved⟩
      intro label hlabel
      cases label <;> first | rfl | cases hlabel
  | round _ hrun htrusted ih =>
      obtain ⟨hearned, hwell, hsaved⟩ := ih
      have hpath := ((round_obeys site).returns trivial hrun).1
      exact ⟨.of_round hrunner hwell (htrusted rfl) hrun hearned,
        (onward_of_path hpath).wellFormed hwell, round_saved hrun hsaved⟩
  | @resume s _ _ hload ih =>
      obtain ⟨hearned, hwell, hsaved⟩ := ih
      obtain ⟨w, hlater, rfl⟩ := fromQueue_eq_ok hload
      have hjobs : s.stateFile.getD site.queue = s.jobs := hsaved
      have horphan : Earned site.queue s.jobs s.world.orphan :=
        hearned.of_recalls (.refl _) (recalls_orphan _) fun i job hi _ => Or.inl hi
      refine ⟨?_, (Later.onward hlater).wellFormed hwell.orphan, rfl⟩
      simp only [hjobs]
      exact horphan.of_recalls (.refl _) (Later.aged hlater).recalls fun i job hi _ => Or.inl hi

/-- Success is not invented in a trusted run: a job that a reap has taken for done has a process,
which has returned zero, and so has every process of a dependency of what was started. -/
theorem success_not_invented (site : Site) (hrunner : site.config.runner ≠ "tmux")
    (hids : (site.queue.map Job.id).Nodup) (s : Sys World) (h : Lifetimes site true s) :
    (∀ (i : ℕ) (job queued : Job), s.jobs[i]? = some job → job.status = .done →
      site.queue[i]? = some queued → queued.status ≠ .done →
        ∃ p ∈ s.world.procs, p.job.id = job.id ∧ p.exit = some 0) ∧
    (∀ job ∈ s.jobs, job.status = .done → ∀ p ∈ s.world.procs, p.job.id = job.id →
      p.exit = some 0) ∧
    ∀ p ∈ s.world.procs, ∀ q ∈ s.world.procs, q.job.id ∈ p.job.dependsOn → q.exit = some 0 := by
  obtain ⟨hearned, -, -⟩ := h.earned hrunner hids
  have hzero : ∀ job ∈ s.jobs, job.status = .done → ∀ p ∈ s.world.procs, p.job.id = job.id →
      p.exit = some 0 := by
    intro job hjob hdone p hp hid
    obtain ⟨k, hk⟩ := List.mem_iff_getElem?.mp hp
    exact hearned.zero job hjob hdone k p hk hid
  refine ⟨fun i job queued hjob hdone hqueued hnot => ?_, hzero, fun p hp q hq hdep => ?_⟩
  · obtain ⟨k, p, hp, hid⟩ := hearned.started i job queued hjob hdone hqueued hnot
    exact ⟨p, List.mem_of_getElem? hp, hid, hearned.zero job (List.mem_of_getElem? hjob) hdone k p hp hid⟩
  · obtain ⟨k, hk⟩ := List.mem_iff_getElem?.mp hp
    obtain ⟨upstream, hupstream, hid, hdone⟩ := hearned.deps k p hk _ hdep
    exact hzero upstream hupstream hdone q hq hid.symm

/-! ## One restart -/

theorem Trusted.of_idle {w : World} (h : AllIdle s.jobs) : Trusted s w where
  apart _ _ a _ ha _ hrunning := absurd hrunning (h a (List.mem_of_getElem? ha))
  known _ job hjob hrunning := absurd hrunning (h job (List.mem_of_getElem? hjob))

theorem Lifetimes.events {trusted : Bool} (h : Lifetimes site trusted s) (events : List Event) :
    Lifetimes site trusted { s with world := events.foldl Event.apply s.world } := by
  induction events generalizing s with
  | nil => exact h
  | cons event rest ih => exact ih (.event event h)

/-- An orchestrator starts what it can, another takes its place, and something happens. -/
def inherit (site : Site) (events : List Event) : M World Unit := do
  round site
  modify fun s : Sys World => { s with world := s.world.orphan }
  fromQueue site
  happens events

theorem inherit_lifetimes {trusted : Bool} {events : List Event} (hidle : AllIdle site.queue)
    (h : inherit site events (fresh site {}) = .ok () s) : Lifetimes site trusted s := by
  obtain ⟨⟨⟩, s₁, hround, h⟩ := bind_eq_ok.mp h
  obtain ⟨⟨⟩, s₂, hmodify, h⟩ := bind_eq_ok.mp h
  cases hmodify
  obtain ⟨⟨⟩, s₃, hload, h⟩ := bind_eq_ok.mp h
  cases h
  have hfirst : Lifetimes site trusted s₁ :=
    .round (.fresh rfl) hround fun _ => .of_idle hidle
  exact (Lifetimes.resume hfirst hload).events events

/-- An inherited process that has returned zero ends well. -/
theorem throughout_endsWell {k : ℕ} {p : Proc} {w w' : World} (hp : w.procs[k]? = some p)
    (hexit : p.exit = some 0) : Throughout (EndsWell k) w w' := by
  intro v hv _ q hq
  obtain ⟨q', hq', hages⟩ := hv.grows.procs k p hp
  have hsame : q' = q := Option.some.inj (hq'.symm.trans hq)
  have hzero : q.exit = some 0 := hsame ▸ hages.exit 0 hexit
  rw [hzero]
  refine ⟨nofun, fun rc hrc => ?_⟩
  cases hrc
  exact Or.inl rfl

/-- Two jobs, one of which depends on the other. -/
def pairJobs : List Job :=
  [{ id := "a", command := "true" }, { id := "b", command := "true", dependsOn := ["a"] }]

/-- Two jobs end well while nobody watches, and are taken for done. -/
theorem success_not_invented_inherited : ∃ s : Sys World,
    s.jobs.map Job.status = [.done, .done] ∧
    (∀ job ∈ s.jobs, job.status = .done → ∀ p ∈ s.world.procs, p.job.id = job.id →
      p.exit = some 0) ∧
    ∀ p ∈ s.world.procs, ∀ q ∈ s.world.procs, q.job.id ∈ p.job.dependsOn → q.exit = some 0 := by
  obtain ⟨⟨⟩, s, hrun, hends⟩ := of_returns
    (show returns (inherit (smallSite twoJobs) [.exit 0 0, .collect 0, .exit 1 0]
      (fresh (smallSite twoJobs) {})) (fun s =>
        s.jobs.map (fun j => (j.id, j.session)) == [("a", pidSession 1), ("b", pidSession 2)] &&
        s.procs == [] &&
        s.world.procs.map (fun p => (p.track, p.job.id, p.exit)) ==
          [(.pid 1, "a", some 0), (.pid 2, "b", some 0)] &&
        returns (round (smallSite twoJobs) s) fun s' =>
          s'.jobs.map Job.status == [.done, .done]) = true by decide +kernel)
  simp only [Bool.and_eq_true, beq_iff_eq] at hends
  obtain ⟨⟨⟨hjobs, hprocs⟩, hworld⟩, hround⟩ := hends
  obtain ⟨⟨⟩, s', hround, hdone⟩ := of_returns hround
  have hjob : ∀ (i : ℕ) (job : Job), s.jobs[i]? = some job → ∃ n p,
      n = i + 1 ∧ job.session = pidSession n ∧ s.world.procs[i]? = some p ∧ p.track = .pid n ∧
        p.job.id = job.id ∧ p.exit = some 0 := by
    intro i job hi
    have hentry := congrArg (·[i]?) hjobs
    have hproc := congrArg (·[i]?) hworld
    simp only [List.getElem?_map, hi, Option.map_some] at hentry hproc
    rcases i with _ | _ | i
    · obtain ⟨hid, hsession⟩ := Prod.mk.inj (Option.some.inj hentry)
      obtain ⟨p, hp, hsame⟩ := Option.map_eq_some_iff.mp hproc
      simp only [Prod.mk.injEq] at hsame
      exact ⟨1, p, rfl, hsession, hp, hsame.1, hsame.2.1.trans hid.symm, hsame.2.2⟩
    · obtain ⟨hid, hsession⟩ := Prod.mk.inj (Option.some.inj hentry)
      obtain ⟨p, hp, hsame⟩ := Option.map_eq_some_iff.mp hproc
      simp only [Prod.mk.injEq] at hsame
      exact ⟨2, p, rfl, hsession, hp, hsame.1, hsame.2.1.trans hid.symm, hsame.2.2⟩
    · cases hentry
  have htrusted : Trusted s s'.world := by
    refine ⟨fun i j a b ha hb _ _ hsession => ?_, fun i job hi _ => ?_⟩
    · obtain ⟨n, -, hn, hsa, -⟩ := hjob i a ha
      obtain ⟨m, -, hm, hsb, -⟩ := hjob j b hb
      have hpids : n = m := pidSession_injective (hsa.symm.trans (hsession.trans hsb))
      omega
    · obtain ⟨n, p, -, hsession, hp, htrack, hid, hexit⟩ := hjob i job hi
      refine ⟨n, i, p, hsession, hp, htrack, hid, Or.inr ⟨?_, throughout_endsWell hp hexit⟩⟩
      rw [hprocs]
      rfl
  have hrun : Lifetimes (smallSite twoJobs) true s' :=
    .round (inherit_lifetimes (by decide) hrun) hround fun _ => htrusted
  obtain ⟨-, hzero, hdeps⟩ := success_not_invented (smallSite twoJobs) (by decide) (by decide) s' hrun
  exact ⟨s', by simpa using hdone, hzero, hdeps⟩

/-- A job that fails while nobody watches is taken for done, and what depends on it is started. -/
theorem success_invented : ∃ s : Sys World, Lifetimes (smallSite pairJobs) false s ∧
    s.jobs.map Job.status = [.done, .running] ∧
    s.world.procs.map (fun p => (p.job.id, p.job.dependsOn, p.exit)) =
      [("a", [], some 3), ("b", ["a"], none)] := by
  obtain ⟨⟨⟩, s, hrun, hends⟩ := of_returns
    (show returns (inherit (smallSite pairJobs) [.exit 0 3, .collect 0]
      (fresh (smallSite pairJobs) {})) (fun s =>
        returns (round (smallSite pairJobs) s) fun s' =>
          s'.jobs.map Job.status == [.done, .running] &&
          s'.world.procs.map (fun p => (p.job.id, p.job.dependsOn, p.exit)) ==
            [("a", [], some 3), ("b", ["a"], none)]) = true by decide +kernel)
  obtain ⟨⟨⟩, s', hround, hends⟩ := of_returns hends
  rw [Bool.and_eq_true, beq_iff_eq, beq_iff_eq] at hends
  exact ⟨s', .round (inherit_lifetimes (by decide) hrun) hround nofun, hends.1, hends.2⟩

end Lifetimes

end Nodepilot
