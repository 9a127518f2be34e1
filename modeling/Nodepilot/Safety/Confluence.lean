import Nodepilot.Lib.Settling
import Nodepilot.Machine.Supervision
import Nodepilot.Machine.Trial
import Nodepilot.Safety.LifeCycle

/-!
# The outcome does not depend on the schedule

What becomes of a job is decided by the dependency graph and by how the processes
end, and not by when anything happens: every status a run writes is the verdict of
the graph (`Sound`), and the graph has one verdict for each job.  So two runs to the
end agree, whatever the budgets, the order and the timing.

How a process ended is known of a subprocess by its return code.  Of a `tmux`
session the source knows nothing, and lets the kernel log decide.
-/

namespace Nodepilot

open Obeys Relation Settling

/-! ## The graph of a queue -/

/-- The dependency graph of a queue. -/
def graphOf (queue : List Job) (outcome : String → Bool) : Graph String where
  known id := ∃ job ∈ queue, job.id = id
  active id := ∃ job ∈ queue, job.id = id ∧ job.status = .pending
  known_of_active := fun _ ⟨job, hmem, hid, _⟩ => ⟨job, hmem, hid⟩
  needs id dep := ∃ job ∈ queue, job.id = id ∧ dep ∈ job.dependsOn
  good id := outcome id = true

/-- The status of a job is the verdict of the graph. -/
def Verdicts (g : Graph String) (job : Job) : Prop :=
  match job.status with
  | .running => ∀ dep ∈ job.dependsOn, Settles g dep .done
  | .done => Settles g job.id .done
  | .failed => Settles g job.id .failed
  | .skipped => Settles g job.id .skipped
  | .pending | .dormant => True

def Sound (g : Graph String) (jobs : List Job) : Prop :=
  ∀ job ∈ jobs, Verdicts g job

/-- The jobs that end running in a turn end as their process does. -/
def Judges (outcome : String → Bool) (jobs jobs' : List Job) : Prop :=
  ∀ (i : ℕ) (a b : Job), jobs[i]? = some a → a.status = .running → jobs'[i]? = some b →
    (b.status = .done → outcome a.id = true) ∧ (b.status = .failed → outcome a.id = false)

/-- The job was failed by a start that raised. -/
def Job.launchFailed (job : Job) : Bool :=
  job.status == .failed && "launch_error: ".toList.isPrefixOf job.failureReason.toList

section Graphs

variable {queue jobs jobs' : List Job} {outcome : String → Bool}

theorem active_of_progress (hqueue : ∀ job ∈ queue, job.status = .pending ∨ job.status = .dormant)
    (hprogress : Progress queue jobs) {i : ℕ} {job : Job} (hjob : jobs[i]? = some job)
    (hstatus : job.status ≠ .dormant) : (graphOf queue outcome).active job.id := by
  obtain ⟨a, ha, hsame, hkept⟩ := hprogress.back hjob
  refine ⟨a, List.mem_of_getElem? ha, hsame.id, ?_⟩
  rcases hqueue a (List.mem_of_getElem? ha) with hpending | hdormant
  · exact hpending
  · have hold : job = a := hkept (by rw [hdormant]; rfl)
    rw [hold] at hstatus
    exact absurd hdormant hstatus

theorem needs_of_progress (outcome : String → Bool) (hids : (queue.map Job.id).Nodup) (hprogress : Progress queue jobs)
    {i : ℕ} {job : Job} (hjob : jobs[i]? = some job) {dep : String} :
    (graphOf queue outcome).needs job.id dep ↔ dep ∈ job.dependsOn := by
  obtain ⟨a, ha, hsame, -⟩ := hprogress.back hjob
  rw [← hsame.id, ← hsame.dependsOn]
  constructor
  · rintro ⟨b, hb, hid, hdep⟩
    obtain ⟨k, hk⟩ := List.mem_iff_getElem?.mp hb
    by_cases hki : k = i
    · subst hki
      rw [ha] at hk
      cases hk
      exact hdep
    · exact absurd hid (id_ne_of_ne hids hk ha hki)
  · intro hdep
    exact ⟨a, List.mem_of_getElem? ha, rfl, hdep⟩

theorem known_of_progress (hprogress : Progress queue jobs) {dep : String}
    (h : (graphOf queue outcome).known dep) : ∃ other ∈ jobs, other.id = dep := by
  obtain ⟨a, ha, hid⟩ := h
  obtain ⟨i, hi⟩ := List.mem_iff_getElem?.mp ha
  obtain ⟨b, hb, hsame, -⟩ := hprogress.each i a hi
  exact ⟨b, List.mem_of_getElem? hb, hsame.id.symm.trans hid⟩

/-- A job whose dependencies can never all be done is skipped by the graph. -/
theorem settles_skipped {g : Graph String} {i j : String} (hactive : g.active i)
    (hneed : g.needs i j) (h : ¬ g.known j ∨ Settles g j .failed ∨ Settles g j .skipped) :
    Settles g i .skipped := by
  rcases h with hunknown | hfailed | hskipped
  · exact .unknown hactive hneed hunknown
  · exact .failedNeed hactive hneed hfailed
  · exact .skippedNeed hactive hneed hskipped

/-- One turn keeps every status the verdict of the graph. -/
theorem Sound.of_turn {site : Site} {label : Label}
    (hqueue : ∀ job ∈ queue, job.status = .pending ∨ job.status = .dormant)
    (hids : (queue.map Job.id).Nodup) (hprogress : Progress queue jobs)
    (hturn : Turn site true label jobs jobs') (hjudged : Judges outcome jobs jobs')
    (hlaunched : ∀ job ∈ jobs', job.launchFailed = true → outcome job.id = false)
    (h : Sound (graphOf queue outcome) jobs) : Sound (graphOf queue outcome) jobs' := by
  have hverdict : ∀ {i : ℕ} {job : Job}, jobs[i]? = some job → Verdicts (graphOf queue outcome) job :=
    fun hjob => h _ (List.mem_of_getElem? hjob)
  have hactive : ∀ {i : ℕ} {job : Job}, jobs[i]? = some job → job.status ≠ .dormant →
      (graphOf queue outcome).active job.id :=
    fun hjob hstatus => active_of_progress hqueue hprogress hjob hstatus
  -- a job that stops running: its dependencies were done when it was started
  have hended : ∀ {i : ℕ} {job : Job} {f : Job → Job}, jobs[i]? = some job →
      job.status = .running → jobs' = jobs.modify i f →
      ((f job).status = .done ∨ (f job).status = .failed) → (f job).id = job.id →
      Verdicts (graphOf queue outcome) (f job) := by
    intro i job f hjob hrunning hjobs hend hid
    have hdeps := hverdict hjob
    simp only [Verdicts, hrunning] at hdeps
    have hneeds : ∀ dep, (graphOf queue outcome).needs job.id dep →
        Settles (graphOf queue outcome) dep .done :=
      fun dep hdep => hdeps dep ((needs_of_progress outcome hids hprogress hjob).mp hdep)
    have hact := hactive hjob (by rw [hrunning]; decide)
    have hget : jobs'[i]? = some (f job) := by
      rw [hjobs, List.getElem?_modify_eq, hjob]
      rfl
    obtain ⟨hgood, hbad⟩ := hjudged i job (f job) hjob hrunning hget
    rcases hend with hend | hend
    · simp only [Verdicts, hend, hid]
      exact .done hact hneeds (hgood hend)
    · simp only [Verdicts, hend, hid]
      refine .failed hact hneeds fun hgood' : outcome job.id = true => ?_
      rw [hbad hend] at hgood'
      cases hgood'
  intro job' hmem
  obtain ⟨k, hk⟩ := List.mem_iff_getElem?.mp hmem
  cases hturn with
  | ask => exact hverdict hk
  | save => exact hverdict hk
  | spare => exact hverdict hk
  | reap hjob hrunning hend =>
      rcases getElem?_modify_cases hk with ⟨-, hold⟩ | ⟨a, -, ha, rfl⟩
      · exact hverdict hold
      · rw [hjob] at ha
        cases ha
        exact hended hjob hrunning rfl hend rfl
  | kill hjob hrunning =>
      rcases getElem?_modify_cases hk with ⟨-, hold⟩ | ⟨a, -, ha, rfl⟩
      · exact hverdict hold
      · rw [hjob] at ha
        cases ha
        exact hended hjob hrunning rfl (.inr rfl) rfl
  | clear hjob hrunning =>
      rcases getElem?_modify_cases hk with ⟨-, hold⟩ | ⟨a, -, ha, rfl⟩
      · exact hverdict hold
      · rw [hjob] at ha
        cases ha
        exact hended hjob hrunning rfl (.inr rfl) rfl
  | skip hjob hpending hblocker =>
      rcases getElem?_modify_cases hk with ⟨-, hold⟩ | ⟨a, -, ha, rfl⟩
      · exact hverdict hold
      · rw [hjob] at ha
        cases ha
        obtain ⟨dep, hdep, hdoomed⟩ := doomed_of_blocker hblocker
        have hact := hactive hjob (by rw [hpending]; decide)
        have hneed := (needs_of_progress outcome hids hprogress hjob).mpr hdep
        refine settles_skipped hact hneed ?_
        rcases hdoomed with hunknown | ⟨upstream, hup, rfl, hdead⟩
        · left
          intro hknown
          obtain ⟨other, hother, hid⟩ := known_of_progress hprogress hknown
          exact hunknown other hother hid
        · right
          have hup' := h upstream hup
          rcases hdead with hdead | hdead <;> simp only [Verdicts, hdead] at hup'
          · exact .inl hup'
          · exact .inr hup'
  | launch hjob hpending hdeps hadmits hplaced =>
      rcases getElem?_modify_cases hk with ⟨-, hold⟩ | ⟨a, -, ha, rfl⟩
      · exact hverdict hold
      · rw [hjob] at ha
        cases ha
        intro dep hdep
        obtain ⟨upstream, hup, rfl, hdone⟩ := depsSatisfied_done (hdeps rfl) dep hdep
        have hup' := h upstream hup
        simp only [Verdicts, hdone] at hup'
        exact hup'
  | @fail _ i job placement message now hjob hpending hdeps =>
      rcases getElem?_modify_cases hk with ⟨-, hold⟩ | ⟨a, -, ha, rfl⟩
      · exact hverdict hold
      · rw [hjob] at ha
        cases ha
        have hreason : (Job.fail ("launch_error: " ++ message) now
            (Job.place placement job)).launchFailed = true := by
          simp [Job.launchFailed, Job.fail]
        have hbad := hlaunched _ hmem hreason
        change outcome job.id = false at hbad
        have hact := hactive hjob (by rw [hpending]; decide)
        refine Settles.failed hact (fun dep hneed => ?_) fun hgood : outcome job.id = true => ?_
        · have hdep := (needs_of_progress outcome hids hprogress hjob).mp hneed
          obtain ⟨upstream, hup, rfl, hdone⟩ := depsSatisfied_done (hdeps rfl) dep hdep
          have hup' := h upstream hup
          simp only [Verdicts, hdone] at hup'
          exact hup'
        · rw [hbad] at hgood
          cases hgood

end Graphs

/-! ## How processes end -/

/-- The kernel log answers as assigned where the job of a session is reaped: the job has been
found dead, its handle, if it had one, is given up, and then the log is asked. -/
def LogTells (outcome : String → Bool) (s : Sys World) (job : Job) : Prop :=
  ∀ (w : World) (s' : Sys World) (hint : Bool), isAlive job s = .ok false { s with world := w } →
    journalReportsOom 5 { s with procs := forgotten job s.procs, world := w } = .ok hint s' →
    outcome job.id = !hint

/-- One state follows another on the way of a run. -/
abbrev Leads (site : Site) (s s' : Sys World) : Prop :=
  ReflTransGen (Step site true fun _ => true) s s'

/-- Up to a state of a run from `w` the processes end as an assignment of outcomes says: by
their return codes, or with `tmux`, whose sessions leave none, by what the kernel log answers
at the reap of the job. -/
def Judged (site : Site) (outcome : String → Bool) (w : World) (s : Sys World) : Prop :=
  if site.config.runner = "tmux" then
    ∀ (i : ℕ) (job : Job) (t t' : Sys World), Leads site (fresh site w) t →
      t.jobs[i]? = some job → Move site true (.reap i) t t' → Leads site t' s →
      LogTells outcome t job
  else ∀ p ∈ s.world.procs, ∀ rc, p.exit = some rc → (rc = 0 ↔ outcome p.job.id = true)

theorem Judged.earlier {site : Site} {outcome : String → Bool} {w : World} {label : Label}
    {s s' : Sys World} (hmove : Move site true label s s') (h : Judged site outcome w s') :
    Judged site outcome w s := by
  unfold Judged at h ⊢
  split
  · rename_i hrunner
    rw [if_pos hrunner] at h
    intro i job t t' hbefore hjob hreap hafter
    exact h i job t t' hbefore hjob hreap (hafter.tail ⟨label, rfl, hmove⟩)
  · rename_i hrunner
    rw [if_neg hrunner] at h
    intro p hp rc hexit
    obtain ⟨k, hk⟩ := List.mem_iff_getElem?.mp hp
    obtain ⟨q, hq, hages⟩ := hmove.onward.grows.procs k p hk
    rw [← hages.job]
    exact h q (List.mem_of_getElem? hq) rc (hages.exit rc hexit)

/-- What the runner knows of the running jobs. -/
structure Minded (site : Site) (s : Sys World) : Prop where
  subprocess : site.config.runner ≠ "tmux" → Supervised s
  tmux : site.config.runner = "tmux" → ∀ job ∈ s.jobs, job.status = .running →
    ∃ name, job.session = tmuxSession name
  owned : ∀ job ∈ s.jobs, job.status = .running → ∃ p ∈ s.world.procs, p.job.id = job.id

/-- A started job has a process of its own. -/
theorem Started.owned {site : Site} {i : ℕ} {job : Job} {argv : List String} {s s' : Sys World}
    (h : Started site i job argv s s') : ∃ p ∈ s'.world.procs, p.job = job := by
  cases h with
  | @subprocess workdir proc w₁ w₂ w₃ hrunner hbefore hpopen hafter =>
      obtain ⟨-, hprocs, -⟩ := popen_machine hpopen
      have hnew : w₂.procs[w₁.advance.procs.length]? =
          some { track := .pid w₁.advance.freshPid, job := job } := by
        rw [hprocs, List.getElem?_append_right le_rfl, Nat.sub_self]
        rfl
      obtain ⟨q, hq, hages⟩ := (Later.aged hafter).procs _ _ hnew
      exact ⟨q, List.mem_of_getElem? hq, hages.job⟩
  | tmux hrunner hbefore hkill hnew =>
      obtain ⟨hprocs, -⟩ := tmuxNewSession_machine hnew
      refine ⟨{ track := .session (World.sessionText (sessionName job.id)), job := job }, ?_, rfl⟩
      rw [hprocs]
      exact List.mem_append_right _ (List.mem_singleton_self _)

/-- A process that is in the table stays in it. -/
theorem Onward.owned {w w' : World} {id : String} (h : Onward w w')
    (howned : ∃ p ∈ w.procs, p.job.id = id) : ∃ p ∈ w'.procs, p.job.id = id := by
  obtain ⟨p, hp, hid⟩ := howned
  obtain ⟨k, hk⟩ := List.mem_iff_getElem?.mp hp
  obtain ⟨q, hq, hages⟩ := h.grows.procs k p hk
  refine ⟨q, List.mem_of_getElem? hq, ?_⟩
  rw [hages.job]
  exact hid

theorem Move.owned {site : Site} {label : Label} {s s' : Sys World}
    (hmove : Move site true label s s')
    (h : ∀ job ∈ s.jobs, job.status = .running → ∃ p ∈ s.world.procs, p.job.id = job.id) :
    ∀ job ∈ s'.jobs, job.status = .running → ∃ p ∈ s'.world.procs, p.job.id = job.id := by
  intro job' hmem hrunning'
  have hkept : job' ∈ s.jobs → ∃ p ∈ s'.world.procs, p.job.id = job'.id :=
    fun hold => hmove.onward.owned (h job' hold hrunning')
  obtain ⟨k, hk⟩ := List.mem_iff_getElem?.mp hmem
  cases hmove with
  | @launch _ s₁ i job placement argv w w₂ now hchosen hstarted htime =>
      obtain ⟨session, hlist⟩ := hstarted.launched
      simp only [hlist] at hk
      rcases getElem?_modify_cases hk with ⟨-, hget⟩ | ⟨a, -, ha, rfl⟩
      · exact hkept (List.mem_of_getElem? hget)
      · rw [hchosen.found] at ha
        cases ha
        obtain ⟨p, hp, hjob⟩ := hstarted.owned
        have howned : ∃ p ∈ s₁.world.procs, p.job.id = job.id := ⟨p, hp, by rw [hjob]; rfl⟩
        exact (Onward.of_ok htime).owned howned
  | reap hjob hrunning hdead hreap htime hcooled =>
      obtain ⟨rc, w', hint, w'', -, -, -, -, rfl, -⟩ := reap_eq_ok hreap
      rcases getElem?_modify_cases hk with ⟨-, hget⟩ | ⟨a, -, -, rfl⟩
      · exact hkept (List.mem_of_getElem? hget)
      · rcases classify_status rc hint with hstatus | hstatus <;>
          rw [Job.finish_status, hstatus] at hrunning' <;> cases hrunning'
  | skip =>
      rcases getElem?_modify_cases hk with ⟨-, hget⟩ | ⟨a, -, -, rfl⟩
      · exact hkept (List.mem_of_getElem? hget)
      · cases hrunning'
  | fail =>
      rcases getElem?_modify_cases hk with ⟨-, hget⟩ | ⟨a, -, -, rfl⟩
      · exact hkept (List.mem_of_getElem? hget)
      · cases hrunning'
  | kill =>
      rcases getElem?_modify_cases hk with ⟨-, hget⟩ | ⟨a, -, -, rfl⟩
      · exact hkept (List.mem_of_getElem? hget)
      · cases hrunning'
  | clear =>
      rcases getElem?_modify_cases hk with ⟨-, hget⟩ | ⟨a, -, -, rfl⟩
      · exact hkept (List.mem_of_getElem? hget)
      · cases hrunning'
  | _ => exact hkept hmem

theorem Move.minded {site : Site} {label : Label} {s s' : Sys World}
    (hmove : Move site true label s s') (hlabel : label.inRound = true)
    (hids : (s.jobs.map Job.id).Nodup) (h : Minded site s) : Minded site s' := by
  refine ⟨fun hrunner => hmove.supervised hrunner hlabel hids (h.subprocess hrunner),
    fun hrunner job' hmem hrunning' => ?_, hmove.owned h.owned⟩
  have hold := h.tmux hrunner
  obtain ⟨k, hk⟩ := List.mem_iff_getElem?.mp hmem
  cases hmove with
  | ask => exact hold job' hmem hrunning'
  | probe => exact hold job' hmem hrunning'
  | save => exact hold job' hmem hrunning'
  | spare => exact hold job' hmem hrunning'
  | skip =>
      rcases getElem?_modify_cases hk with ⟨-, hget⟩ | ⟨a, -, -, rfl⟩
      · exact hold job' (List.mem_of_getElem? hget) hrunning'
      · cases hrunning'
  | fail =>
      rcases getElem?_modify_cases hk with ⟨-, hget⟩ | ⟨a, -, -, rfl⟩
      · exact hold job' (List.mem_of_getElem? hget) hrunning'
      · cases hrunning'
  | reap hjob hrunning hdead hreap htime hcooled =>
      obtain ⟨rc, w', hint, w'', -, -, -, -, rfl, -⟩ := reap_eq_ok hreap
      rcases getElem?_modify_cases hk with ⟨-, hget⟩ | ⟨a, -, -, rfl⟩
      · exact hold job' (List.mem_of_getElem? hget) hrunning'
      · rcases classify_status rc hint with hstatus | hstatus <;>
          rw [Job.finish_status, hstatus] at hrunning' <;> cases hrunning'
  | launch hchosen hstarted htime =>
      cases hstarted with
      | subprocess hsub => exact absurd hrunner hsub
      | tmux htmux hbefore hkill hnew =>
          simp only [placing, List.modify_modify_eq] at hk
          rcases getElem?_modify_cases hk with ⟨-, hget⟩ | ⟨a, -, -, rfl⟩
          · exact hold job' (List.mem_of_getElem? hget) hrunning'
          · exact ⟨_, rfl⟩
  | kill => cases hlabel
  | clear => cases hlabel

/-- What a job that has stopped running in a move says of its process: its status follows the
return code, or with `tmux` what the kernel log says. -/
structure Ended (site : Site) (label : Label) (j : ℕ) (s s' : Sys World) (a b : Job) : Prop where
  reaped : label = .reap j
  subprocess : site.config.runner ≠ "tmux" → ∃ p ∈ s'.world.procs, ∃ rc, p.job.id = a.id ∧
    p.exit = some rc ∧ (b.status = .done ↔ rc = 0)
  tmux : site.config.runner = "tmux" → ∃ (hint : Bool) (w : World) (t : Sys World),
    isAlive a s = .ok false { s with world := w } ∧
    journalReportsOom 5 { s with procs := forgotten a s.procs, world := w } = .ok hint t ∧
    (b.status = .done ↔ hint = false) ∧ (hint = true → b.failureReason = "oom_killed")

/-- In a round a job stops running only by a reap. -/
theorem Move.ended {site : Site} {label : Label} {s s' : Sys World}
    (hmove : Move site true label s s') (hlabel : label.inRound = true) (h : Minded site s)
    {j : ℕ} {a b : Job} (ha : s.jobs[j]? = some a) (harunning : a.status = .running)
    (hb : s'.jobs[j]? = some b) (hstopped : b.status ≠ .running) :
    Ended site label j s s' a b := by
  have hsame : b ≠ a := by
    rintro rfl
    exact hstopped harunning
  have hkept : ∀ {i : ℕ} {f : Job → Job} {job : Job}, s'.jobs = s.jobs.modify i f →
      s.jobs[i]? = some job → job.status ≠ .running → b = a := by
    intro i f job hjobs hjob hidle
    rw [hjobs] at hb
    rcases getElem?_modify_cases hb with ⟨-, hget⟩ | ⟨a', rfl, -, -⟩
    · rw [ha] at hget
      cases hget
      rfl
    · rw [ha] at hjob
      cases hjob
      exact absurd harunning hidle
  cases hmove with
  | ask => exact absurd (Option.some.inj (hb.symm.trans ha)) hsame
  | probe => exact absurd (Option.some.inj (hb.symm.trans ha)) hsame
  | save => exact absurd (Option.some.inj (hb.symm.trans ha)) hsame
  | spare => exact absurd (Option.some.inj (hb.symm.trans ha)) hsame
  | skip hjob hpending => exact absurd (hkept rfl hjob (by rw [hpending]; decide)) hsame
  | fail hchosen =>
      exact absurd (hkept rfl hchosen.found (by rw [hchosen.pending]; decide)) hsame
  | launch hchosen hstarted =>
      obtain ⟨session, hlist⟩ := hstarted.launched
      exact absurd (hkept (hlist _) hchosen.found (by rw [hchosen.pending]; decide)) hsame
  | @reap _ i job oc w₁ w₂ w₃ w₄ now cooldown hjob hrunning hdead hreap htime hcooled =>
      rcases getElem?_modify_cases hb with ⟨-, hget⟩ | ⟨a', rfl, ha', rfl⟩
      · rw [ha] at hget
        cases hget
        exact absurd rfl hsame
      rw [ha] at ha' hjob
      cases ha'
      cases hjob
      refine ⟨rfl, fun hrunner => ?_, fun hrunner => ?_⟩
      · obtain ⟨n, k, p, hhandle⟩ := (h.subprocess hrunner).handle _ a ha harunning
        obtain ⟨haged, q, rc, hint, hq, hexit, houtcome⟩ :=
          reap_aged hhandle.session hhandle.handle hdead hreap htime hcooled
        obtain ⟨q', hq', hages⟩ := haged.procs k p hhandle.proc
        rw [show w₄.procs[k]? = some q from hq] at hq'
        cases hq'
        refine ⟨q, List.mem_of_getElem? hq, rc, ?_, hexit, ?_⟩
        · rw [hages.job]
          exact hhandle.owner
        · rw [houtcome]
          exact classify_normalise.2
      · obtain ⟨name, hsession⟩ := h.tmux hrunner a (List.mem_of_getElem? ha) harunning
        obtain ⟨rc, w', hint, w'', hcode, hseen, hlater, hworld, rfl, hjournal⟩ := reap_eq_ok hreap
        cases hworld
        -- the return code of a session is unknown, so the log was read
        have hcodeless : returncode a { s with world := w₁ } = .ok none { s with world := w₁ } := by
          rw [returncode, hsession, tracked_tmuxSession]
          rfl
        rw [hcodeless] at hcode
        cases hcode
        refine ⟨hint, w₁, _, hdead, hjournal (.inr rfl), ?_⟩
        rw [Job.finish_status]
        cases hint with
        | true => exact ⟨by simp [classify], fun _ => rfl⟩
        | false => exact ⟨by simp [classify], fun hfalse => by cases hfalse⟩
  | kill => cases hlabel
  | clear => cases hlabel

/-! ## Runs -/

/-- Where no job runs, a start-up has nothing to do. -/
theorem startUp_idle {W : Type} [Host W] {site : Site} {s s' : Sys W}
    (hidle : ∀ job ∈ s.jobs, job.status ≠ .running)
    (hpath : ReflTransGen (Step site true Label.inStartUp) s s') :
    s'.jobs = s.jobs ∧ s'.cooldownUntil = s.cooldownUntil ∧ Onward s.world s'.world := by
  induction hpath with
  | refl => exact ⟨rfl, rfl, .refl _⟩
  | @tail mid s' _ hlast ih =>
      obtain ⟨hjobs, hcooldown, honward⟩ := ih
      obtain ⟨label, hlabel, hmove⟩ := hlast
      have hnone : ∀ {i : ℕ} {job : Job}, mid.jobs[i]? = some job → job.status ≠ .running := by
        intro i job hjob
        rw [hjobs] at hjob
        exact hidle job (List.mem_of_getElem? hjob)
      have honward' : Onward s.world s'.world := honward.trans hmove.onward
      cases hmove with
      | ask hask => exact ⟨hjobs, hcooldown, honward'⟩
      | probe hjob hrunning halive => exact absurd hrunning (hnone hjob)
      | spare hjob hrunning => exact absurd hrunning (hnone hjob)
      | clear hjob hrunning => exact absurd hrunning (hnone hjob)
      | save => exact ⟨hjobs, hcooldown, honward'⟩
      | _ => cases hlabel

/-- A property of the states of a run that speaks for the outcomes of its jobs: it held
before where it holds now, and where it holds jobs have ended as assigned. -/
structure Backs (site : Site) (outcome : String → Bool) (w : World) (J : Sys World → Prop) :
    Prop where
  earlier : ∀ {label : Label} {s s' : Sys World}, Move site true label s s' → J s' → J s
  judges : ∀ {label : Label} {s s' : Sys World}, Move site true label s s' →
    label.inRound = true → Minded site s → Leads site (fresh site w) s → J s' →
    Judges outcome s.jobs s'.jobs
  launched : ∀ {s : Sys World}, J s → ∀ job ∈ s.jobs, job.launchFailed = true →
    outcome job.id = false

/-- A job that a start has failed stays as it is. -/
theorem Move.launchFailed {W : Type} [Host W] {site : Site} {label : Label} {s s' : Sys W}
    (hmove : Move site true label s s') {job : Job} (hmem : job ∈ s.jobs)
    (hfailed : job.launchFailed = true) : job ∈ s'.jobs := by
  have hsettled : job.status.settled = true := by
    rw [Job.launchFailed, Bool.and_eq_true, beq_iff_eq] at hfailed
    rw [hfailed.1]
    rfl
  exact hmove.turn.progress.mem_of_settled hmem hsettled

/-- The course of a run from a queue, the world being `w` at its start. -/
structure Course (site : Site) (outcome : String → Bool) (w : World) (J : Sys World → Prop)
    (s : Sys World) : Prop where
  leads : Leads site (fresh site w) s
  minded : Minded site s
  progress : Progress site.queue s.jobs
  sound : J s → Sound (graphOf site.queue outcome) s.jobs

theorem Course.onward {site : Site} {outcome : String → Bool} {w : World} {J : Sys World → Prop}
    {s : Sys World} (h : Course site outcome w J s) : Onward w s.world :=
  onward_of_path h.leads

theorem Course.nodup {site : Site} {outcome : String → Bool} {w : World} {J : Sys World → Prop}
    {s : Sys World} (h : Course site outcome w J s) (hids : (site.queue.map Job.id).Nodup) :
    (s.jobs.map Job.id).Nodup := by
  rw [h.progress.ids]
  exact hids

theorem Course.of_move {site : Site} {outcome : String → Bool} {w : World} {J : Sys World → Prop}
    {label : Label} {s s' : Sys World}
    (hqueue : ∀ job ∈ site.queue, job.status = .pending ∨ job.status = .dormant)
    (hids : (site.queue.map Job.id).Nodup) (hbacks : Backs site outcome w J)
    (hmove : Move site true label s s') (hlabel : label.inRound = true)
    (h : Course site outcome w J s) : Course site outcome w J s' := by
  refine ⟨h.leads.tail ⟨label, rfl, hmove⟩, hmove.minded hlabel (h.nodup hids) h.minded,
    h.progress.trans hmove.turn.progress, fun hnow => ?_⟩
  have hsound := h.sound (hbacks.earlier hmove hnow)
  have hjudges := hbacks.judges hmove hlabel h.minded h.leads hnow
  exact hsound.of_turn hqueue hids h.progress hmove.turn hjudges (hbacks.launched hnow)

theorem Course.of_path {site : Site} {outcome : String → Bool} {w : World} {J : Sys World → Prop}
    {s s' : Sys World}
    (hqueue : ∀ job ∈ site.queue, job.status = .pending ∨ job.status = .dormant)
    (hids : (site.queue.map Job.id).Nodup) (hbacks : Backs site outcome w J)
    (hpath : ReflTransGen (Step site true Label.inRound) s s') (h : Course site outcome w J s) :
    Course site outcome w J s' :=
  invariant_of_path (fun _ _ ⟨_, hlabel, hmove⟩ h => h.of_move hqueue hids hbacks hmove hlabel)
    hpath h

/-- After its start-up a run has everything before it. -/
theorem Course.of_startUp {site : Site} {outcome : String → Bool} {w : World}
    {J : Sys World → Prop} {s : Sys World}
    (hqueue : ∀ job ∈ site.queue, job.status = .pending ∨ job.status = .dormant)
    (hw : w.procs = []) (hstart : startUp site (fresh site w) = .ok () s) :
    s.jobs = site.queue ∧ s.cooldownUntil = 0 ∧ Course site outcome w J s := by
  have hidle : ∀ job ∈ site.queue, job.status ≠ .running := by
    intro job hmem hrunning
    rcases hqueue job hmem with hstatus | hstatus <;> rw [hrunning] at hstatus <;> cases hstatus
  have hpath := ((startUp_obeys site).returns trivial hstart).1
  obtain ⟨hjobs, hcooldown, honward⟩ := startUp_idle hidle hpath
  have hleads : Leads site (fresh site w) s :=
    ReflTransGen.mono (fun _ _ => Step.mono fun _ _ => rfl) _ _ hpath
  have hwaits : s.jobs = site.queue := hjobs
  have hnone : ∀ job ∈ s.jobs, job.status ≠ .running := by
    rw [hwaits]
    exact hidle
  refine ⟨hwaits, hcooldown, hleads, ⟨fun _ => ⟨?_, ?_⟩, ?_, ?_⟩, ?_, fun _ => ?_⟩
  · exact honward.wellFormed (.of_empty hw)
  · intro i job hjob hrunning
    exact absurd hrunning (hnone job (List.mem_of_getElem? hjob))
  · intro _ job hmem hrunning
    exact absurd hrunning (hnone job hmem)
  · intro job hmem hrunning
    exact absurd hrunning (hnone job hmem)
  · rw [hwaits]
    exact .refl _
  · intro job hmem
    rw [hwaits] at hmem
    rcases hqueue job hmem with hstatus | hstatus <;> simp [Verdicts, hstatus]

theorem Course.of_run {site : Site} {outcome : String → Bool} {w : World} {J : Sys World → Prop}
    {maxTicks : Option ℕ} {fuel : ℕ} {b : Bool} {s : Sys World}
    (hqueue : ∀ job ∈ site.queue, job.status = .pending ∨ job.status = .dormant)
    (hids : (site.queue.map Job.id).Nodup) (hbacks : Backs site outcome w J) (hw : w.procs = [])
    (hrun : run site maxTicks fuel (fresh site w) = .ok b s) : Course site outcome w J s := by
  obtain ⟨⟨⟩, mid, hstart, hloop⟩ := bind_eq_ok.mp hrun
  have hpath := ((runLoop_obeys site maxTicks 1 fuel).returns trivial hloop).1
  exact (Course.of_startUp hqueue hw hstart).2.2.of_path hqueue hids hbacks hpath

/-- The processes end as assigned, and no start has failed. -/
def JudgedRun (site : Site) (outcome : String → Bool) (w : World) (s : Sys World) : Prop :=
  Judged site outcome w s ∧ ∀ job ∈ s.jobs, job.launchFailed = false

theorem backs_judgedRun (site : Site) (outcome : String → Bool) (w : World) :
    Backs site outcome w (JudgedRun site outcome w) where
  earlier {label s s'} hmove h := by
    refine ⟨h.1.earlier hmove, fun job hmem => ?_⟩
    by_contra hfailed
    rw [Bool.not_eq_false] at hfailed
    rw [h.2 job (hmove.launchFailed hmem hfailed)] at hfailed
    cases hfailed
  judges {label s s'} hmove hlabel hminded hbefore h := by
    intro j a b ha harunning hb
    by_cases hrunning : b.status = .running
    · rw [hrunning]
      exact ⟨nofun, nofun⟩
    · have hended := hmove.ended hlabel hminded ha harunning hb hrunning
      have hjudged := h.1
      unfold Judged at hjudged
      have hiff : b.status = .done ↔ outcome a.id = true := by
        split at hjudged
        · rename_i hrunner
          obtain ⟨hint, w₁, t, hdead, hjournal, hdone, -⟩ := hended.tmux hrunner
          have hreap : Move site true (.reap j) s s' := hended.reaped ▸ hmove
          have htells := hjudged j a s s' hbefore ha hreap .refl
          rw [hdone, htells w₁ t hint hdead hjournal]
          simp
        · rename_i hrunner
          obtain ⟨p, hp, rc, hid, hexit, hdone⟩ := hended.subprocess hrunner
          rw [hdone, hjudged p hp rc hexit, hid]
      refine ⟨hiff.mp, fun hfailed => ?_⟩
      by_contra hgood
      rw [hiff.mpr (by simpa using hgood)] at hfailed
      cases hfailed
  launched {s} h job hmem hfailed := by
    rw [h.2 job hmem] at hfailed
    cases hfailed

/-! ## Two runs -/

/-- What the outcome of a job may depend on. -/
def Job.plan (job : Job) : String × List String × JobStatus :=
  (job.id, job.dependsOn, job.status)

theorem graphOf_perm {queue queue' : List Job} (outcome : String → Bool)
    (h : (queue.map Job.plan).Perm (queue'.map Job.plan)) :
    graphOf queue outcome = graphOf queue' outcome := by
  have hplan : ∀ {jobs jobs' : List Job}, (jobs.map Job.plan).Perm (jobs'.map Job.plan) →
      ∀ job ∈ jobs, ∃ job' ∈ jobs', job'.id = job.id ∧ job'.dependsOn = job.dependsOn ∧
        job'.status = job.status := by
    intro jobs jobs' hperm job hmem
    obtain ⟨job', hmem', hsame⟩ :=
      List.mem_map.mp (hperm.mem_iff.mp (List.mem_map_of_mem (f := Job.plan) hmem))
    simp only [Job.plan, Prod.mk.injEq] at hsame
    exact ⟨job', hmem', hsame⟩
  ext i
  · constructor <;> rintro ⟨job, hmem, hid⟩
    · obtain ⟨job', hmem', hid', -⟩ := hplan h job hmem
      exact ⟨job', hmem', hid'.trans hid⟩
    · obtain ⟨job', hmem', hid', -⟩ := hplan h.symm job hmem
      exact ⟨job', hmem', hid'.trans hid⟩
  · constructor <;> rintro ⟨job, hmem, hid, hstatus⟩
    · obtain ⟨job', hmem', hid', -, hstatus'⟩ := hplan h job hmem
      exact ⟨job', hmem', hid'.trans hid, hstatus'.trans hstatus⟩
    · obtain ⟨job', hmem', hid', -, hstatus'⟩ := hplan h.symm job hmem
      exact ⟨job', hmem', hid'.trans hid, hstatus'.trans hstatus⟩
  · constructor <;> rintro ⟨job, hmem, hid, hdep⟩
    · obtain ⟨job', hmem', hid', hdeps', -⟩ := hplan h job hmem
      exact ⟨job', hmem', hid'.trans hid, hdeps' ▸ hdep⟩
    · obtain ⟨job', hmem', hid', hdeps', -⟩ := hplan h.symm job hmem
      exact ⟨job', hmem', hid'.trans hid, hdeps' ▸ hdep⟩
  · exact Iff.rfl

/-- The status a task of a verdict has. -/
def statusOf : Verdict → JobStatus
  | .done => .done
  | .failed => .failed
  | .skipped => .skipped

/-- At the end of a run a job has the status of its verdict, or never took part. -/
theorem Sound.settled {queue jobs : List Job} {outcome : String → Bool} (hids : (queue.map Job.id).Nodup)
    (hprogress : Progress queue jobs) (hdrained : isDrained jobs = true)
    (h : Sound (graphOf queue outcome) jobs) {job : Job} (hmem : job ∈ jobs) :
    (∃ v, Settles (graphOf queue outcome) job.id v ∧ job.status = statusOf v) ∨
      (job.status = .dormant ∧ ¬ (graphOf queue outcome).active job.id) := by
  have hverdict := h job hmem
  have hended : ¬ (job.status = .pending ∨ job.status = .running) := by
    simp only [isDrained, Bool.not_eq_true', List.any_eq_false, Bool.or_eq_true, beq_iff_eq]
      at hdrained
    exact hdrained job hmem
  cases hstatus : job.status with
  | pending => exact absurd (.inl hstatus) hended
  | running => exact absurd (.inr hstatus) hended
  | done =>
      simp only [Verdicts, hstatus] at hverdict
      exact .inl ⟨.done, hverdict, rfl⟩
  | failed =>
      simp only [Verdicts, hstatus] at hverdict
      exact .inl ⟨.failed, hverdict, rfl⟩
  | skipped =>
      simp only [Verdicts, hstatus] at hverdict
      exact .inl ⟨.skipped, hverdict, rfl⟩
  | dormant =>
      right
      refine ⟨rfl, ?_⟩
      rintro ⟨a, ha, hid, hpending⟩
      obtain ⟨i, hi⟩ := List.mem_iff_getElem?.mp ha
      obtain ⟨k, hk⟩ := List.mem_iff_getElem?.mp hmem
      obtain ⟨c, hc, hsame, -⟩ := hprogress.back hk
      obtain ⟨b, hb, -, hmoved, -⟩ := hprogress.each i a hi
      have hik : i = k := by
        by_contra hne
        exact id_ne_of_ne hids hi hc hne (hid.trans hsame.id.symm)
      subst hik
      rw [hk] at hb
      cases hb
      rw [hpending, hstatus] at hmoved
      rcases ReflTransGen.cases_tail hmoved with hsame | ⟨status, -, hlast⟩
      · cases hsame
      · cases hlast

/-- Two runs to the end of the same jobs, with ids of their own, and the same outcomes of
their processes, but of any sites and any times: no job having failed to start, every job
ends alike. -/
theorem schedule_independence (site₁ site₂ : Site) (outcome : String → Bool)
    (hsame : (site₁.queue.map Job.plan).Perm (site₂.queue.map Job.plan))
    (hids : (site₁.queue.map Job.id).Nodup)
    (hqueue : ∀ job ∈ site₁.queue, job.status = .pending ∨ job.status = .dormant)
    (w₁ w₂ : World) (hw₁ : w₁.procs = []) (hw₂ : w₂.procs = [])
    (maxTicks₁ maxTicks₂ : Option ℕ) (fuel₁ fuel₂ : ℕ) (b₁ b₂ : Bool) (s₁ s₂ : Sys World)
    (hrun₁ : run site₁ maxTicks₁ fuel₁ (fresh site₁ w₁) = .ok b₁ s₁)
    (hrun₂ : run site₂ maxTicks₂ fuel₂ (fresh site₂ w₂) = .ok b₂ s₂)
    (hdrained₁ : isDrained s₁.jobs = true) (hdrained₂ : isDrained s₂.jobs = true)
    (hlaunched₁ : ∀ job ∈ s₁.jobs, job.launchFailed = false)
    (hlaunched₂ : ∀ job ∈ s₂.jobs, job.launchFailed = false)
    (hjudged₁ : Judged site₁ outcome w₁ s₁) (hjudged₂ : Judged site₂ outcome w₂ s₂) :
    (s₁.jobs.map Job.id).Perm (s₂.jobs.map Job.id) ∧
      ∀ job₁ ∈ s₁.jobs, ∀ job₂ ∈ s₂.jobs, job₁.id = job₂.id → job₁.status = job₂.status := by
  have hidsame : (site₁.queue.map Job.id).Perm (site₂.queue.map Job.id) := by
    have hfst := hsame.map Prod.fst
    rw [List.map_map, List.map_map] at hfst
    exact hfst
  have hids₂ : (site₂.queue.map Job.id).Nodup := hidsame.nodup_iff.mp hids
  have hqueue₂ : ∀ job ∈ site₂.queue, job.status = .pending ∨ job.status = .dormant := by
    intro job hmem
    obtain ⟨job', hmem', hplan⟩ :=
      List.mem_map.mp (hsame.mem_iff.mpr (List.mem_map_of_mem (f := Job.plan) hmem))
    simp only [Job.plan, Prod.mk.injEq] at hplan
    rw [← hplan.2.2]
    exact hqueue job' hmem'
  have hcourse₁ := Course.of_run hqueue hids (backs_judgedRun site₁ outcome w₁) hw₁ hrun₁
  have hcourse₂ := Course.of_run hqueue₂ hids₂ (backs_judgedRun site₂ outcome w₂) hw₂ hrun₂
  have hsound₁ := hcourse₁.sound ⟨hjudged₁, hlaunched₁⟩
  have hsound₂ := hcourse₂.sound ⟨hjudged₂, hlaunched₂⟩
  refine ⟨?_, fun job₁ hmem₁ job₂ hmem₂ hid => ?_⟩
  · rw [hcourse₁.progress.ids, hcourse₂.progress.ids]
    exact hidsame
  have hend₁ := hsound₁.settled hids hcourse₁.progress hdrained₁ hmem₁
  have hend₂ := hsound₂.settled hids₂ hcourse₂.progress hdrained₂ hmem₂
  -- one graph judges both runs, and it has one verdict for the job
  rw [← graphOf_perm outcome hsame, ← hid] at hend₂
  rcases hend₁ with ⟨v₁, hv₁, hstatus₁⟩ | ⟨hdormant₁, hidle₁⟩
  · rcases hend₂ with ⟨v₂, hv₂, hstatus₂⟩ | ⟨-, hidle₂⟩
    · rw [hstatus₁, hstatus₂, hv₁.unique hv₂]
    · exact absurd hv₁.active hidle₂
  · rcases hend₂ with ⟨v₂, hv₂, -⟩ | ⟨hdormant₂, -⟩
    · exact absurd hv₂.active hidle₁
    · rw [hdormant₁, hdormant₂]

/-- Jobs that succeed, fail, are skipped and sleep. -/
def forkJobs : List Job :=
  [{ id := "a", command := "true", cores := 2 },
    { id := "b", command := "false", dependsOn := ["a"] },
    { id := "c", command := "true", dependsOn := ["b"] },
    { id := "d", command := "true", status := .dormant }]

/-- The first process succeeds and the second fails, each after a number of operations. -/
def endingWorld (first second : ℕ) (rc : ℤ) : World :=
  { agenda := List.replicate first [] ++ [[.exit 0 0]] ++ List.replicate second [] ++ [[.exit 1 rc]] }

/-- Only the second job fails. -/
def onlyB (id : String) : Bool :=
  id != "b"

/-- No job of the list was failed by a start that raised: all that failed failed otherwise. -/
theorem launchFailed_of_reason {jobs : List Job} {reason : String}
    (hjobs : jobs.all (fun job => job.status != .failed || job.failureReason == reason) = true)
    (hreason : "launch_error: ".toList.isPrefixOf reason.toList = false) :
    ∀ job ∈ jobs, job.launchFailed = false := by
  intro job hmem
  have hjob := List.all_eq_true.mp hjobs job hmem
  rw [Bool.or_eq_true, bne_iff_ne, beq_iff_eq] at hjob
  rw [Job.launchFailed, Bool.and_eq_false_iff, beq_eq_false_iff_ne]
  rcases hjob with hstatus | hsame
  · exact .inl hstatus
  · right
    rw [hsame]
    exact hreason

/-- A run to the end in which the processes end as assigned. -/
theorem run_forkJobs {queue : List Job} {w : World} {reason : String}
    (h : returns (run (smallSite queue) none 25 (fresh (smallSite queue) w)) (fun s =>
      isDrained s.jobs &&
      s.jobs.all (fun job => job.status != .failed || job.failureReason == reason) &&
      s.world.procs.all (fun p => p.exit.all fun rc => (rc == 0) == onlyB p.job.id) &&
      s.jobs.any (fun job => job.id == "c" && job.status == .skipped)) = true)
    (hreason : "launch_error: ".toList.isPrefixOf reason.toList = false) :
    ∃ b s, run (smallSite queue) none 25 (fresh (smallSite queue) w) = .ok b s ∧
      isDrained s.jobs = true ∧ (∀ job ∈ s.jobs, job.launchFailed = false) ∧
      Judged (smallSite queue) onlyB w s ∧
      ∃ job ∈ s.jobs, job.id = "c" ∧ job.status = .skipped := by
  obtain ⟨b, s, hrun, hends⟩ := of_returns h
  rw [Bool.and_eq_true, Bool.and_eq_true, Bool.and_eq_true] at hends
  obtain ⟨⟨⟨hdrained, hreasons⟩, hexits⟩, hskipped⟩ := hends
  refine ⟨b, s, hrun, hdrained, launchFailed_of_reason hreasons hreason, ?_, ?_⟩
  · have hrunner : ¬ (smallSite queue).config.runner = "tmux" :=
      show ¬ "subprocess" = "tmux" by decide
    rw [Judged, if_neg hrunner]
    intro p hp rc hexit
    have hcode := List.all_eq_true.mp hexits p hp
    rw [hexit, Option.all_some, beq_iff_eq] at hcode
    rw [← hcode, beq_iff_eq]
  · simpa using hskipped

/-- In two orders, and with failures of two kinds, the third job is skipped. -/
theorem schedule_independence_forkJobs : ∃ s₁ s₂ : Sys World,
    (∃ job ∈ s₁.jobs, job.id = "c" ∧ job.status = .skipped) ∧
    ∀ job₁ ∈ s₁.jobs, ∀ job₂ ∈ s₂.jobs, job₁.id = job₂.id → job₁.status = job₂.status := by
  obtain ⟨b₁, s₁, hrun₁, hdrained₁, hlaunched₁, hjudged₁, hskipped⟩ :=
    @run_forkJobs forkJobs (endingWorld 40 40 3) "exit_3" (by decide +kernel) (by decide)
  obtain ⟨b₂, s₂, hrun₂, hdrained₂, hlaunched₂, hjudged₂, -⟩ :=
    @run_forkJobs forkJobs.reverse (endingWorld 20 20 1) "exit_1" (by decide +kernel) (by decide)
  have hindependent := schedule_independence (smallSite forkJobs) (smallSite forkJobs.reverse) onlyB
    ((List.reverse_perm forkJobs).symm.map Job.plan) (by decide) (by decide) (endingWorld 40 40 3)
    (endingWorld 20 20 1) rfl rfl none none 25 25 b₁ b₂ s₁ s₂ hrun₁ hrun₂ hdrained₁ hdrained₂
    hlaunched₁ hlaunched₂ hjudged₁ hjudged₂
  exact ⟨s₁, s₂, hskipped, hindependent.2⟩

/-- A site with `tmux` for a single job. -/
def loneSite : Site :=
  smallSite [{ id := "a", command := "true" }] { smallConfig with runner := "tmux" }
    reserved_smallConfig

/-- A host with `tmux`, a kernel log, and one session that succeeds. -/
def sessionWorld (journal : String) : World :=
  { programs := ["tmux", "journalctl"], journal := journal,
    agenda := List.replicate 20 [] ++ [[.exit 0 0]] }

/-- A run of the job whose session succeeds, the job ending in a status. -/
theorem run_loneSite {journal : String} {status : JobStatus} {reason : String}
    (h : returns (run loneSite none 4 (fresh loneSite (sessionWorld journal))) (fun s =>
      isDrained s.jobs &&
      s.jobs.all (fun job => job.status != .failed || job.failureReason == reason) &&
      s.world.procs.map Proc.exit == [some 0] && s.jobs.map Job.status == [status]) = true)
    (hreason : "launch_error: ".toList.isPrefixOf reason.toList = false) :
    ∃ b s, run loneSite none 4 (fresh loneSite (sessionWorld journal)) = .ok b s ∧
      isDrained s.jobs = true ∧ (∀ job ∈ s.jobs, job.launchFailed = false) ∧
      s.world.procs.map Proc.exit = [some 0] ∧ s.jobs.map Job.status = [status] := by
  obtain ⟨b, s, hrun, hends⟩ := of_returns h
  rw [Bool.and_eq_true, Bool.and_eq_true, Bool.and_eq_true, beq_iff_eq, beq_iff_eq] at hends
  obtain ⟨⟨⟨hdrained, hreasons⟩, hexits⟩, hstatus⟩ := hends
  exact ⟨b, s, hrun, hdrained, launchFailed_of_reason hreasons hreason, hexits, hstatus⟩

/-- Two runs of one job whose session returns zero in both: with `tmux` what the kernel log
says decides whether the job is done. -/
theorem schedule_independence_not_for_sessions : ∃ (w₁ w₂ : World) (b₁ b₂ : Bool)
    (s₁ s₂ : Sys World), w₁.procs = [] ∧ w₂.procs = [] ∧
      run loneSite none 4 (fresh loneSite w₁) = .ok b₁ s₁ ∧
      run loneSite none 4 (fresh loneSite w₂) = .ok b₂ s₂ ∧
      isDrained s₁.jobs = true ∧ isDrained s₂.jobs = true ∧
      (∀ job ∈ s₁.jobs, job.launchFailed = false) ∧ (∀ job ∈ s₂.jobs, job.launchFailed = false) ∧
      s₁.world.procs.map Proc.exit = [some 0] ∧ s₂.world.procs.map Proc.exit = [some 0] ∧
      s₁.jobs.map Job.status = [.done] ∧ s₂.jobs.map Job.status = [.failed] := by
  obtain ⟨b₁, s₁, hrun₁, hdrained₁, hlaunched₁, hexits₁, hstatus₁⟩ :=
    @run_loneSite "" .done "" (by decide +kernel) (by decide)
  obtain ⟨b₂, s₂, hrun₂, hdrained₂, hlaunched₂, hexits₂, hstatus₂⟩ :=
    @run_loneSite "oom-kill" .failed "oom_killed" (by decide +kernel) (by decide)
  exact ⟨sessionWorld "", sessionWorld "oom-kill", b₁, b₂, s₁, s₂, rfl, rfl, hrun₁, hrun₂, hdrained₁,
    hdrained₂, hlaunched₁, hlaunched₂, hexits₁, hexits₂, hstatus₁, hstatus₂⟩

end Nodepilot
