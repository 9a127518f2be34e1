import Nodepilot.Machine.Trial

/-!
# The life cycle of a job

A status moves along five edges only, so the terminal ones and `dormant` are never
left (`Progress`).  Together with the log of starts this gives the order of the
dependency graph: what has been started has its dependencies done, and what has
been skipped has one that will never be (`Ordered`).  Both are kept by every turn
of the job list, in any order, whatever the graph.
-/

namespace Nodepilot

open Obeys Relation

/-! ## Statuses -/

/-- The edges of the life cycle. -/
inductive JobStatus.Advance : JobStatus → JobStatus → Prop
  | launch : Advance pending running
  | launchError : Advance pending failed
  | skip : Advance pending skipped
  | succeed : Advance running done
  | fail : Advance running failed

/-- The statuses a job keeps: the terminal ones and `DORMANT`. -/
def JobStatus.settled (status : JobStatus) : Bool :=
  status.terminal || status == .dormant

theorem JobStatus.Advance.not_settled {status status' : JobStatus}
    (h : JobStatus.Advance status status') : status.settled = false := by
  cases h <;> rfl

/-- What may have become of a job list: every job has moved along the edges, a settled one
not at all. -/
structure Progress (jobs jobs' : List Job) : Prop where
  length : jobs'.length = jobs.length
  each : ∀ (i : ℕ) (a : Job), jobs[i]? = some a → ∃ b, jobs'[i]? = some b ∧ SameDeclaration a b ∧
    ReflTransGen JobStatus.Advance a.status b.status ∧ (a.status.settled = true → b = a)

namespace Progress

variable {jobs jobs' jobs'' : List Job}

theorem refl (jobs : List Job) : Progress jobs jobs :=
  ⟨rfl, fun _ a ha => ⟨a, ha, .refl a, .refl, fun _ => rfl⟩⟩

theorem trans (h : Progress jobs jobs') (h' : Progress jobs' jobs'') : Progress jobs jobs'' where
  length := h'.length.trans h.length
  each i a ha := by
    obtain ⟨b, hb, hsame, hmoved, hkept⟩ := h.each i a ha
    obtain ⟨c, hc, hsame', hmoved', hkept'⟩ := h'.each i b hb
    refine ⟨c, hc, ?_, hmoved.trans hmoved', fun hsettled => ?_⟩
    · exact ⟨hsame.id.trans hsame'.id, hsame.cores.trans hsame'.cores,
        hsame.ramGb.trans hsame'.ramGb, hsame.dependsOn.trans hsame'.dependsOn,
        hsame.exclusive.trans hsame'.exclusive⟩
    · have hba : b = a := hkept hsettled
      subst hba
      exact hkept' hsettled

/-- One job moves along an edge. -/
theorem of_modify {i : ℕ} {job : Job} {f : Job → Job} (hjob : jobs[i]? = some job)
    (hadvance : JobStatus.Advance job.status (f job).status)
    (hsame : SameDeclaration job (f job)) : Progress jobs (jobs.modify i f) where
  length := List.length_modify ..
  each k a ha := by
    rw [List.getElem?_modify, ha]
    by_cases hk : i = k
    · subst hk
      rw [hjob] at ha
      cases ha
      refine ⟨f job, by simp, hsame, .single hadvance, fun hsettled => ?_⟩
      rw [hadvance.not_settled] at hsettled
      cases hsettled
    · exact ⟨a, by simp [hk], .refl a, .refl, fun _ => rfl⟩

/-- A job of a status it keeps is there later as it was. -/
theorem mem_of_settled (h : Progress jobs jobs') {job : Job} (hmem : job ∈ jobs)
    (hsettled : job.status.settled = true) : job ∈ jobs' := by
  obtain ⟨i, hi⟩ := List.mem_iff_getElem?.mp hmem
  obtain ⟨b, hb, -, -, hkept⟩ := h.each i job hi
  rw [hkept hsettled] at hb
  exact List.mem_of_getElem? hb

/-- Where a job comes from. -/
theorem back (h : Progress jobs jobs') {i : ℕ} {b : Job} (hb : jobs'[i]? = some b) :
    ∃ a, jobs[i]? = some a ∧ SameDeclaration a b ∧ (a.status.settled = true → b = a) := by
  have hi : i < jobs.length := by
    rw [← h.length]
    exact (List.getElem?_eq_some_iff.mp hb).1
  obtain ⟨b', hb', hsame, -, hkept⟩ := h.each i jobs[i] (List.getElem?_eq_getElem hi)
  rw [hb] at hb'
  cases hb'
  exact ⟨_, List.getElem?_eq_getElem hi, hsame, hkept⟩

theorem ids (h : Progress jobs jobs') : jobs'.map Job.id = jobs.map Job.id := by
  apply List.ext_getElem?
  intro i
  rw [List.getElem?_map, List.getElem?_map]
  cases hi : jobs[i]? with
  | none =>
      have hlen : jobs'.length ≤ i := by
        rw [h.length]
        exact List.getElem?_eq_none_iff.mp hi
      rw [List.getElem?_eq_none hlen]
  | some a =>
      obtain ⟨b, hb, hsame, -⟩ := h.each i a hi
      rw [hb, Option.map_some, Option.map_some, hsame.id]

end Progress

theorem Turn.progress {site : Site} {gated : Bool} {label : Label} {jobs jobs' : List Job}
    (hturn : Turn site gated label jobs jobs') : Progress jobs jobs' := by
  cases hturn with
  | ask => exact .refl jobs
  | save => exact .refl jobs
  | spare => exact .refl jobs
  | reap hjob hrunning hend =>
      refine .of_modify hjob ?_ ⟨rfl, rfl, rfl, rfl, rfl⟩
      rw [hrunning, Job.finish_status]
      rcases hend with hend | hend <;> rw [hend]
      · exact .succeed
      · exact .fail
  | skip hjob hpending hblocker =>
      refine .of_modify hjob ?_ ⟨rfl, rfl, rfl, rfl, rfl⟩
      rw [hpending]
      exact .skip
  | launch hjob hpending hdeps hadmits hplaced =>
      refine .of_modify hjob ?_ ⟨rfl, rfl, rfl, rfl, rfl⟩
      rw [hpending]
      exact .launch
  | fail hjob hpending hdeps =>
      refine .of_modify hjob ?_ ⟨rfl, rfl, rfl, rfl, rfl⟩
      rw [hpending]
      exact .launchError
  | kill hjob hrunning =>
      refine .of_modify hjob ?_ ⟨rfl, rfl, rfl, rfl, rfl⟩
      rw [hrunning]
      exact .fail
  | clear hjob hrunning =>
      refine .of_modify hjob ?_ ⟨rfl, rfl, rfl, rfl, rfl⟩
      rw [hrunning]
      exact .fail

/-! ## Dependencies -/

theorem byId_eq_some {jobs : List Job} {dep : String} {upstream : Job}
    (h : byId jobs dep = some upstream) : upstream ∈ jobs ∧ upstream.id = dep := by
  have hmem := List.mem_of_find?_eq_some h
  have hid := List.find?_some h
  exact ⟨List.mem_reverse.mp hmem, by simpa using hid⟩

theorem byId_eq_none {jobs : List Job} {dep : String} :
    byId jobs dep = none ↔ ∀ other ∈ jobs, other.id ≠ dep := by
  simp [byId, List.find?_eq_none]

theorem depsSatisfied_done {jobs : List Job} {job : Job} (h : depsSatisfied jobs job = true) :
    ∀ dep ∈ job.dependsOn, ∃ upstream ∈ jobs, upstream.id = dep ∧ upstream.status = .done := by
  intro dep hdep
  have hdone := List.all_eq_true.mp h dep hdep
  cases hfound : byId jobs dep with
  | none =>
      rw [hfound] at hdone
      cases hdone
  | some upstream =>
      rw [hfound] at hdone
      obtain ⟨hmem, hid⟩ := byId_eq_some hfound
      exact ⟨upstream, hmem, hid, by simpa using hdone⟩

/-- A dependency that will never be done. -/
def Doomed (jobs : List Job) (dep : String) : Prop :=
  (∀ other ∈ jobs, other.id ≠ dep) ∨
    ∃ upstream ∈ jobs, upstream.id = dep ∧ (upstream.status = .failed ∨ upstream.status = .skipped)

theorem doomed_of_blocker {jobs : List Job} {deps : List String} {b : String}
    (h : blocker jobs deps = some b) : ∃ dep ∈ deps, Doomed jobs dep := by
  induction deps with
  | nil => cases h
  | cons dep rest ih =>
      rw [blocker] at h
      cases hfound : byId jobs dep with
      | none => exact ⟨dep, List.mem_cons_self .., .inl (byId_eq_none.mp hfound)⟩
      | some upstream =>
          simp only [hfound] at h
          split at h
          · rename_i hdead
            obtain ⟨hmem, hid⟩ := byId_eq_some hfound
            refine ⟨dep, List.mem_cons_self .., .inr ⟨upstream, hmem, hid, ?_⟩⟩
            simpa [JobStatus.dead] using hdead
          · obtain ⟨other, hother, hdoomed⟩ := ih h
            exact ⟨other, List.mem_cons_of_mem _ hother, hdoomed⟩

theorem Doomed.progress {jobs jobs' : List Job} {dep : String} (h : Doomed jobs dep)
    (hprogress : Progress jobs jobs') : Doomed jobs' dep := by
  rcases h with hunknown | ⟨upstream, hmem, hid, hdead⟩
  · left
    intro other hother
    obtain ⟨i, hi⟩ := List.mem_iff_getElem?.mp hother
    obtain ⟨old, hold, hsame, -⟩ := hprogress.back hi
    rw [← hsame.id]
    exact hunknown old (List.mem_of_getElem? hold)
  · right
    refine ⟨upstream, hprogress.mem_of_settled hmem ?_, hid, hdead⟩
    rcases hdead with hdead | hdead <;> rw [hdead] <;> rfl

/-- The log of starts and the dependency graph. -/
structure Ordered (jobs : List Job) (starts : List ℕ) : Prop where
  once : starts.Nodup
  waiting : ∀ (i : ℕ) (job : Job), jobs[i]? = some job → job.status = .pending → i ∉ starts
  begun : ∀ i ∈ starts, ∃ job, jobs[i]? = some job ∧ job.status ≠ .skipped ∧
    ∀ dep ∈ job.dependsOn, ∃ upstream ∈ jobs, upstream.id = dep ∧ upstream.status = .done
  skipped : ∀ (i : ℕ) (job : Job), jobs[i]? = some job → job.status = .skipped →
    ∃ dep ∈ job.dependsOn, Doomed jobs dep

theorem Ordered.of_fresh {jobs : List Job}
    (h : ∀ job ∈ jobs, job.status = .pending ∨ job.status = .dormant) : Ordered jobs [] := by
  refine ⟨List.nodup_nil, fun _ _ _ _ => List.not_mem_nil, ?_, ?_⟩
  · intro i hi
    cases hi
  · intro i job hjob hskipped
    rcases h job (List.mem_of_getElem? hjob) with hstatus | hstatus <;>
      rw [hskipped] at hstatus <;> cases hstatus

/-! ## One turn -/

theorem advance_pending {status : JobStatus} (h : ReflTransGen JobStatus.Advance status .pending) :
    status = .pending := by
  cases h with
  | refl => rfl
  | tail _ hlast => cases hlast

theorem advance_skipped {status : JobStatus} (h : ReflTransGen JobStatus.Advance status .skipped) :
    status = .skipped ∨ status = .pending := by
  cases h with
  | refl => exact .inl rfl
  | tail hpath hlast =>
      cases hlast
      exact .inr (advance_pending hpath)

/-- What has begun is not waiting later. -/
theorem Progress.begun {jobs jobs' : List Job} {jobId : String} (h : Progress jobs jobs')
    (hbegun : ∃ job ∈ jobs, job.id = jobId ∧ job.status ≠ .pending) :
    ∃ job ∈ jobs', job.id = jobId ∧ job.status ≠ .pending := by
  obtain ⟨job, hmem, hid, hnot⟩ := hbegun
  obtain ⟨i, hi⟩ := List.mem_iff_getElem?.mp hmem
  obtain ⟨job', hi', hsame, hmoved, -⟩ := h.each i job hi
  refine ⟨job', List.mem_of_getElem? hi', hsame.id.symm.trans hid, fun hpending => ?_⟩
  rw [hpending] at hmoved
  exact hnot (advance_pending hmoved)

theorem Progress.done {jobs jobs' : List Job} {jobId : String} (h : Progress jobs jobs')
    (hdone : ∃ upstream ∈ jobs, upstream.id = jobId ∧ upstream.status = .done) :
    ∃ upstream ∈ jobs', upstream.id = jobId ∧ upstream.status = .done := by
  obtain ⟨upstream, hmem, hid, hup⟩ := hdone
  exact ⟨upstream, h.mem_of_settled hmem (by rw [hup]; rfl), hid, hup⟩

/-- Only `_mark_dead_dependents` skips a job, and it has a blocker. -/
theorem Turn.skipped {site : Site} {gated : Bool} {label : Label} {jobs jobs' : List Job}
    (hturn : Turn site gated label jobs jobs') {k : ℕ} {b : Job} (hb : jobs'[k]? = some b)
    (hskipped : b.status = .skipped) :
    (∃ a, jobs[k]? = some a ∧ a.status = .skipped ∧ SameDeclaration a b) ∨
      ∃ dep ∈ b.dependsOn, Doomed jobs dep := by
  have hother : ∀ {i : ℕ} {f : Job → Job}, (∀ job, (f job).status ≠ .skipped) →
      jobs' = jobs.modify i f → ∃ a, jobs[k]? = some a ∧ a.status = .skipped ∧ SameDeclaration a b := by
    intro i f hf hjobs
    rw [hjobs] at hb
    rcases getElem?_modify_cases hb with ⟨-, hold⟩ | ⟨a, -, -, rfl⟩
    · exact ⟨b, hold, hskipped, .refl b⟩
    · exact absurd hskipped (hf a)
  cases hturn with
  | ask => exact .inl ⟨b, hb, hskipped, .refl b⟩
  | save => exact .inl ⟨b, hb, hskipped, .refl b⟩
  | spare => exact .inl ⟨b, hb, hskipped, .refl b⟩
  | reap hjob hrunning hend =>
      refine .inl (hother (fun job => ?_) rfl)
      rcases hend with hend | hend <;> simp [hend]
  | launch => exact .inl (hother (fun job => by simp) rfl)
  | fail => exact .inl (hother (fun job => by simp) rfl)
  | kill => exact .inl (hother (fun job => by simp) rfl)
  | clear => exact .inl (hother (fun job => by simp) rfl)
  | skip hjob hpending hblocker =>
      rcases getElem?_modify_cases hb with ⟨-, hold⟩ | ⟨a, -, ha, rfl⟩
      · exact .inl ⟨b, hold, hskipped, .refl b⟩
      · rw [hjob] at ha
        cases ha
        exact .inr (doomed_of_blocker hblocker)

/-- What any turn keeps, the log left as it was. -/
theorem Ordered.of_turn {site : Site} {gated : Bool} {label : Label} {jobs jobs' : List Job}
    {starts : List ℕ} (h : Ordered jobs starts) (hturn : Turn site gated label jobs jobs') :
    Ordered jobs' starts := by
  have hprogress := hturn.progress
  refine ⟨h.once, fun i b hb hpending => ?_, fun i hi => ?_, fun i b hb hskipped => ?_⟩
  · obtain ⟨a, ha, -⟩ := hprogress.back hb
    obtain ⟨b', hb', -, hmoved, -⟩ := hprogress.each i a ha
    rw [hb] at hb'
    cases hb'
    rw [hpending] at hmoved
    exact h.waiting i a ha (advance_pending hmoved)
  · obtain ⟨a, ha, hnotskipped, hdeps⟩ := h.begun i hi
    obtain ⟨b, hb, hsame, hmoved, -⟩ := hprogress.each i a ha
    refine ⟨b, hb, fun hskipped => ?_, ?_⟩
    · rw [hskipped] at hmoved
      rcases advance_skipped hmoved with hstatus | hstatus
      · exact hnotskipped hstatus
      · exact h.waiting i a ha hstatus hi
    · rw [← hsame.dependsOn]
      intro dep hdep
      obtain ⟨upstream, hmem, hid, hdone⟩ := hdeps dep hdep
      exact ⟨upstream, hprogress.mem_of_settled hmem (by rw [hdone]; rfl), hid, hdone⟩
  · rcases hturn.skipped hb hskipped with ⟨a, ha, hold, hsame⟩ | ⟨dep, hdep, hdoomed⟩
    · obtain ⟨dep, hdep, hdoomed⟩ := h.skipped i a ha hold
      exact ⟨dep, hsame.dependsOn ▸ hdep, hdoomed.progress hprogress⟩
    · exact ⟨dep, hdep, hdoomed.progress hprogress⟩

variable {W : Type} [Host W]

/-- One move keeps the order. -/
theorem Move.ordered {site : Site} {label : Label} {s s' : Sys W}
    (hmove : Move site true label s s') (h : Ordered s.jobs s.starts) :
    Ordered s'.jobs s'.starts := by
  have hkept : Ordered s'.jobs s.starts := h.of_turn hmove.turn
  have hprogress : Progress s.jobs s'.jobs := hmove.turn.progress
  rw [hmove.starts_eq]
  cases label with
  | launch i =>
      -- the one move that adds to the log: its job was waiting, its dependencies done
      obtain ⟨job, started, hjob, hpending, hdeps, hstarted, hrunning, hsame⟩ :
          ∃ job started, s.jobs[i]? = some job ∧ job.status = .pending ∧
            depsSatisfied s.jobs job = true ∧ s'.jobs[i]? = some started ∧
            started.status = .running ∧ SameDeclaration job started := by
        have hturn := hmove.turn
        generalize s'.jobs = jobs' at hturn ⊢
        cases hturn with
        | @launch _ _ job placement session now hjob hpending hdeps hadmits hplaced =>
            refine ⟨job, job.launch placement session now, hjob, hpending, hdeps rfl, ?_, rfl, ?_⟩
            · simp [hjob]
            · exact ⟨rfl, rfl, rfl, rfl, rfl⟩
      refine ⟨List.nodup_cons.mpr ⟨h.waiting i job hjob hpending, h.once⟩, ?_, ?_, hkept.skipped⟩
      · intro k b hb hbpending hmem
        rcases List.mem_cons.mp hmem with rfl | hmem
        · rw [hstarted] at hb
          cases hb
          rw [hrunning] at hbpending
          cases hbpending
        · exact hkept.waiting k b hb hbpending hmem
      · intro k hk
        rcases List.mem_cons.mp hk with rfl | hk
        · refine ⟨started, hstarted, by simp [hrunning], fun dep hdep => ?_⟩
          obtain ⟨upstream, hmem, hid, hdone⟩ :=
            depsSatisfied_done hdeps dep (hsame.dependsOn ▸ hdep)
          exact ⟨upstream, hprogress.mem_of_settled hmem (by rw [hdone]; rfl), hid, hdone⟩
        · exact hkept.begun k hk
  | _ => exact hkept

/-! ## Runs -/

/-- What happens in a run: an operation, the world moving on its own, and a stop with a
restart that finds everything saved. -/
inductive Continues (site : Site) : Sys W → Sys W → Prop
  | world {s : Sys W} (w : W) : Continues site s { s with world := w }
  | op {s s' : Sys W} (op : Op) (hallowed : op.allowed true s)
      (hop : op.program site s = .ok () s') : Continues site s s'
  | resume {s s' : Sys W} (hsaved : s.stateFile.getD site.queue = s.jobs)
      (hload : fromQueue site s = .ok () s') : Continues site s s'

theorem progress_of_path {site : Site} {gated : Bool} {kinds : Label → Bool} {s s' : Sys W}
    (hpath : ReflTransGen (Step site gated kinds) s s') : Progress s.jobs s'.jobs := by
  induction hpath with
  | refl => exact .refl _
  | tail _ hlast ih =>
      obtain ⟨label, -, hmove⟩ := hlast
      exact ih.trans hmove.turn.progress

theorem Ordered.of_path {site : Site} {kinds : Label → Bool} {s s' : Sys W}
    (h : Ordered s.jobs s.starts) (hpath : ReflTransGen (Step site true kinds) s s') :
    Ordered s'.jobs s'.starts := by
  induction hpath with
  | refl => exact h
  | tail _ hlast ih =>
      obtain ⟨label, -, hmove⟩ := hlast
      exact hmove.ordered ih

theorem Continues.progress_ordered {site : Site} {s s' : Sys W}
    (hpath : ReflTransGen (Continues site) s s') (h : Ordered s.jobs s.starts) :
    Progress s.jobs s'.jobs ∧ Ordered s'.jobs s'.starts := by
  induction hpath with
  | refl => exact ⟨.refl _, h⟩
  | tail _ hlast ih =>
      cases hlast with
      | world w => exact ih
      | op op hallowed hop =>
          have hmoves := ((op.obeys site true).returns hallowed hop).1
          exact ⟨ih.1.trans (progress_of_path hmoves), ih.2.of_path hmoves⟩
      | resume hsaved hload =>
          obtain ⟨w, -, rfl⟩ := fromQueue_eq_ok hload
          simp only [hsaved]
          exact ih

/-- A wreck has started at most one job more, and that one for the first time. -/
theorem Wreck.once {site : Site} {s s' : Sys W} (hwreck : Wreck site true s s')
    (h : Ordered s.jobs s.starts) : s'.starts.Nodup := by
  cases hwreck with
  | lost hfile hstarts => rw [hstarts]; exact h.once
  | unstarted hchosen hunstarted hfile hstarts => rw [hstarts]; exact h.once
  | killed hjob hrunning hfile hstarts => rw [hstarts]; exact h.once
  | started hchosen hstarted hfile hstarts =>
      rw [hstarts, hstarted.starts_eq.1]
      exact List.nodup_cons.mpr ⟨h.waiting _ _ hchosen.found hchosen.pending, h.once⟩

/-- Between any two states of a run every status has moved along the edges of the life
cycle, a settled job not at all; no command has been started twice, not even by an
operation that raises; what was started has its dependencies done; and what was skipped
was never started and has a dependency that is unknown, failed or skipped. -/
theorem life_cycle (site : Site)
    (hqueue : ∀ job ∈ site.queue, job.status = .pending ∨ job.status = .dormant)
    (w : W) (s s' : Sys W) (hs : ReflTransGen (Continues site) (fresh site w) s)
    (hs' : ReflTransGen (Continues site) s s') :
    (∀ (i : ℕ) (a : Job), s.jobs[i]? = some a → ∃ b, s'.jobs[i]? = some b ∧ b.id = a.id ∧
      ReflTransGen JobStatus.Advance a.status b.status ∧
      (a.status.terminal = true ∨ a.status = .dormant → b = a)) ∧
    s'.starts.Nodup ∧
    (∀ (op : Op) (e : Exc) (s'' : Sys W), op.allowed true s' →
      op.program site s' = .error e s'' → s''.starts.Nodup) ∧
    (∀ i ∈ s'.starts, ∃ job, s'.jobs[i]? = some job ∧
      ∀ dep ∈ job.dependsOn, ∃ upstream ∈ s'.jobs, upstream.id = dep ∧ upstream.status = .done) ∧
    (∀ (i : ℕ) (job : Job), s'.jobs[i]? = some job → job.status = .skipped →
      i ∉ s'.starts ∧ ∃ dep ∈ job.dependsOn, (∀ other ∈ s'.jobs, other.id ≠ dep) ∨
        ∃ upstream ∈ s'.jobs, upstream.id = dep ∧
          (upstream.status = .failed ∨ upstream.status = .skipped)) := by
  have hordered := (Continues.progress_ordered hs (.of_fresh hqueue)).2
  obtain ⟨hprogress, hordered'⟩ := Continues.progress_ordered hs' hordered
  refine ⟨fun i a ha => ?_, hordered'.once, ?_, fun i hi => ?_, fun i job hjob hskipped => ?_⟩
  · obtain ⟨b, hb, hsame, hmoved, hkept⟩ := hprogress.each i a ha
    refine ⟨b, hb, hsame.id.symm, hmoved, fun hsettled => hkept ?_⟩
    rcases hsettled with hterminal | hdormant
    · rw [JobStatus.settled, hterminal, Bool.true_or]
    · rw [hdormant]
      rfl
  · intro op e s'' hallowed hop
    obtain ⟨mid, hpath, hwreck⟩ := (op.obeys site true).raises hallowed hop
    exact hwreck.once (hordered'.of_path hpath)
  · obtain ⟨job, hjob, -, hdeps⟩ := hordered'.begun i hi
    exact ⟨job, hjob, hdeps⟩
  · refine ⟨fun hstarted => ?_, hordered'.skipped i job hjob hskipped⟩
    obtain ⟨job', hjob', hnotskipped, -⟩ := hordered'.begun i hstarted
    rw [hjob] at hjob'
    cases hjob'
    exact hnotskipped hskipped

/-- A job, one that waits for it, and one that waits for nobody. -/
def chainJobs : List Job :=
  [{ id := "a", command := "true" }, { id := "b", command := "true", dependsOn := ["a"] },
    { id := "c", command := "true", dependsOn := ["z"] }]

/-- The second tick finds the first job ended and starts the one that waited for it. -/
theorem life_cycle_chain : ∃ s : Sys World, s.jobs.map Job.status = [.done, .running, .skipped] ∧
    s.starts = [1, 0] ∧ s.starts.Nodup ∧ 2 ∉ s.starts := by
  have hends : returns ((do
      let _ ← tick (smallSite chainJobs)
      happens [.exit 0 0]
      tick (smallSite chainJobs)) (fresh (smallSite chainJobs) ({} : World))) (fun s =>
        s.jobs.map Job.status == [.done, .running, .skipped] && s.starts == [1, 0]) = true := by
    decide +kernel
  obtain ⟨changed, s, hrun, hhoped⟩ := of_returns hends
  rw [Bool.and_eq_true, beq_iff_eq, beq_iff_eq] at hhoped
  obtain ⟨changed₁, s₁, htick, hrun⟩ := bind_eq_ok.mp hrun
  obtain ⟨⟨⟩, s₂, hmodify, htick'⟩ := bind_eq_ok.mp hrun
  cases hmodify
  have hop : ∀ {s s' : Sys World} {changed : Bool}, tick (smallSite chainJobs) s = .ok changed s' →
      Continues (smallSite chainJobs) s s' := by
    intro s s' changed h
    exact .op .tick trivial (bind_eq_ok.mpr ⟨changed, s', h, rfl⟩)
  have hpath : ReflTransGen (Continues (smallSite chainJobs)) (fresh (smallSite chainJobs) {}) s :=
    ((ReflTransGen.single (hop htick)).tail (.world _)).tail (hop htick')
  obtain ⟨-, honce, -, -, hskipped⟩ :=
    life_cycle (smallSite chainJobs) (by decide) {} s s hpath .refl
  refine ⟨s, hhoped.1, hhoped.2, honce, ?_⟩
  rw [hhoped.2]
  decide

end Nodepilot
