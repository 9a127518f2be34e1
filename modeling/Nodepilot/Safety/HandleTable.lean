import Nodepilot.Safety.Killing

/-!
# The table of process handles

`Runner._procs` is indexed by pids, which the kernel gives out again.  Over a session of
one orchestrator the table is exact: it has one entry for every running job, under the
pid in its session, and the entry is a handle on the process that was started for it;
nothing else is in it (`Booked`).  A pid can only be given out again after its process
has been waited for, and then the entry is gone: a reap and a kill take it out together
with the job, a kill also where the process outlives it.

So a job is reaped by what its own process has returned (`ReapedAs`).
-/

namespace Nodepilot

open Obeys Relation

/-! ## Tables -/

theorem lookup_eq_some_iff {procs : List (ℤ × Popen)} (hkeys : (procs.map Prod.fst).Nodup) {n : ℤ}
    {proc : Popen} : procs.lookup n = some proc ↔ (n, proc) ∈ procs := by
  induction procs with
  | nil => simp
  | cons entry rest ih =>
      obtain ⟨key, other⟩ := entry
      rw [List.map_cons, List.nodup_cons] at hkeys
      rw [List.lookup_cons, List.mem_cons]
      by_cases hn : n = key
      · subst hn
        have hout : (n, proc) ∉ rest := fun hin => hkeys.1 (List.mem_map.mpr ⟨(n, proc), hin, rfl⟩)
        simp [hout, eq_comm]
      · have hne : (n == key) = false := beq_false_of_ne hn
        simp only [hne, ih hkeys.2]
        simp [hn]

theorem keys_popProc {procs : List (ℤ × Popen)} (hkeys : (procs.map Prod.fst).Nodup) (n : ℤ) :
    ((popProc procs n).map Prod.fst).Nodup :=
  hkeys.sublist (List.filter_sublist.map _)

theorem keys_setProc {procs : List (ℤ × Popen)} (hkeys : (procs.map Prod.fst).Nodup)
    (proc : Popen) : ((setProc procs proc).map Prod.fst).Nodup := by
  rw [setProc, List.map_cons, List.nodup_cons]
  refine ⟨fun hin => ?_, keys_popProc hkeys proc.pid⟩
  obtain ⟨entry, hentry, hsame⟩ := List.mem_map.mp hin
  have hne := (List.mem_filter.mp hentry).2
  rw [hsame] at hne
  simp at hne

/-- A change to one job that runs neither before nor after it leaves the running jobs. -/
theorem running_same {jobs : List Job} {i : ℕ} {job : Job} {f : Job → Job}
    (hjob : jobs[i]? = some job) (hidle : job.status ≠ .running)
    (hstop : (f job).status ≠ .running) (j : ℕ) (a : Job) (ha : a.status = .running) :
    (jobs.modify i f)[j]? = some a ↔ jobs[j]? = some a := by
  by_cases hj : j = i
  · subst hj
    rw [List.getElem?_modify_eq, hjob]
    constructor
    · intro h
      cases h
      exact absurd ha hstop
    · intro h
      cases h
      exact absurd ha hidle
  · rw [getElem?_modify_of_ne fun h => hj h.symm]

/-! ## The processes of a run -/

/-- The processes from the `n₀`-th on are those of this run: one for a job, and none for a job
that waits. -/
structure Single (n₀ : ℕ) (jobs : List Job) (w : World) : Prop where
  grown : n₀ ≤ w.procs.length
  once : ∀ (j k : ℕ) (p q : Proc), n₀ ≤ j → n₀ ≤ k → w.procs[j]? = some p → w.procs[k]? = some q →
    p.job.id = q.job.id → j = k
  begun : ∀ (k : ℕ) (p : Proc), n₀ ≤ k → w.procs[k]? = some p →
    ∃ job ∈ jobs, job.id = p.job.id ∧ job.status ≠ .pending

theorem Single.aged {n₀ : ℕ} {jobs jobs' : List Job} {w w' : World} {waited : Set ℕ}
    (h : Single n₀ jobs w) (haged : Aged waited w w') (hprogress : Progress jobs jobs') :
    Single n₀ jobs' w' where
  grown := by
    rw [haged.length]
    exact h.grown
  once j k p' q' hj hk hp' hq' hid := by
    obtain ⟨p, hp, hpages⟩ := haged.back hp'
    obtain ⟨q, hq, hqages⟩ := haged.back hq'
    refine h.once j k p q hj hk hp hq ?_
    rw [← hpages.job, ← hqages.job, hid]
  begun k q hk hq := by
    obtain ⟨p, hp, hages⟩ := haged.back hq
    rw [hages.job]
    exact hprogress.begun (h.begun k p hk hp)

/-- A process is started for a job that waits. -/
theorem Single.started {n₀ k i : ℕ} {jobs : List Job} {w w' : World} {job : Job} {f : Job → Job}
    (h : Single n₀ jobs w) (hids : (jobs.map Job.id).Nodup) (hjob : jobs[i]? = some job)
    (hpending : job.status = .pending) (hprogress : Progress jobs (jobs.modify i f))
    (hrunning : (f job).status = .running) (hid : (f job).id = job.id)
    (hgrown : w.procs.length ≤ w'.procs.length)
    (hback : ∀ (l : ℕ) (q : Proc), w'.procs[l]? = some q →
      (∃ p, w.procs[l]? = some p ∧ Ages p q) ∨ (l = k ∧ q.job.id = job.id)) :
    Single n₀ (jobs.modify i f) w' := by
  have hnone : ∀ (l : ℕ) (p : Proc), n₀ ≤ l → w.procs[l]? = some p → p.job.id ≠ job.id := by
    intro l p hl hp hsame
    obtain ⟨other, hmem, hother, hnot⟩ := h.begun l p hl hp
    obtain ⟨j, hj⟩ := List.mem_iff_getElem?.mp hmem
    have hij : j = i := by
      by_contra hne
      exact id_ne_of_ne hids hj hjob hne (hother.trans hsame)
    subst hij
    rw [hj, Option.some.injEq] at hjob
    exact hnot (hjob ▸ hpending)
  refine ⟨h.grown.trans hgrown, fun j l p' q' hj hl hp' hq' hsame => ?_, fun l q hl hq => ?_⟩
  · rcases hback j p' hp' with ⟨p, hp, hpages⟩ | ⟨rfl, hpid⟩
    · rcases hback l q' hq' with ⟨q, hq, hqages⟩ | ⟨rfl, hqid⟩
      · refine h.once j l p q hj hl hp hq ?_
        rw [← hpages.job, ← hqages.job, hsame]
      · rw [hpages.job, hqid] at hsame
        exact absurd hsame (hnone j p hj hp)
    · rcases hback l q' hq' with ⟨q, hq, hqages⟩ | ⟨rfl, -⟩
      · rw [hqages.job, hpid] at hsame
        exact absurd hsame.symm (hnone l q hl hq)
      · rfl
  · rcases hback l q hq with ⟨p, hp, hages⟩ | ⟨-, hqid⟩
    · rw [hages.job]
      exact hprogress.begun (h.begun l p hl hp)
    · refine ⟨f job, List.mem_of_getElem? (i := i) ?_, hid.trans hqid.symm, ?_⟩
      · rw [List.getElem?_modify_eq, hjob]
        rfl
      · rw [hrunning]
        decide

/-! ## The books -/

/-- The table has one entry for every running job, on the process the run has started for it. -/
structure Booked (n₀ : ℕ) (s : Sys World) : Prop where
  ids : (s.jobs.map Job.id).Nodup
  well : WellFormed s.world
  single : Single n₀ s.jobs s.world
  keys : (s.procs.map Prod.fst).Nodup
  handle : ∀ (i : ℕ) (job : Job), s.jobs[i]? = some job → job.status = .running →
    ∃ n k p, HasHandle s.procs s.world job n k p ∧ n₀ ≤ k
  entry : ∀ entry ∈ s.procs, ∃ (i : ℕ) (job : Job) (n : ℕ), s.jobs[i]? = some job ∧ job.status = .running ∧
    job.session = pidSession n ∧ entry.1 = n

namespace Booked

variable {n₀ : ℕ} {s s' : Sys World}

/-- What leaves the running jobs and the table. -/
theorem keep (h : Booked n₀ s) (hprogress : Progress s.jobs s'.jobs)
    (hsame : ∀ (i : ℕ) (job : Job), job.status = .running →
      (s'.jobs[i]? = some job ↔ s.jobs[i]? = some job))
    (hprocs : s'.procs = s.procs) (haged : Aged ∅ s.world s'.world)
    (hwell : WellFormed s'.world) : Booked n₀ s' where
  ids := by
    rw [hprogress.ids]
    exact h.ids
  well := hwell
  single := h.single.aged haged hprogress
  keys := by
    rw [hprocs]
    exact h.keys
  handle i job hjob hrunning := by
    obtain ⟨n, k, p, hhandle, hk⟩ := h.handle i job ((hsame i job hrunning).mp hjob) hrunning
    obtain ⟨q, hq⟩ := hhandle.aged haged (Set.notMem_empty k)
    exact ⟨n, k, q, hq.of_procs (by rw [hprocs]), hk⟩
  entry entry hentry := by
    rw [hprocs] at hentry
    obtain ⟨i, job, n, hjob, hrunning, hsession, hkey⟩ := h.entry entry hentry
    exact ⟨i, job, n, (hsame i job hrunning).mpr hjob, hrunning, hsession, hkey⟩

/-- A running job ends, and its entry is taken out. -/
theorem close (h : Booked n₀ s) {i n k : ℕ} {job : Job} {p : Proc} {f : Job → Job}
    (hjob : s.jobs[i]? = some job) (hhandle : HasHandle s.procs s.world job n k p)
    (hjobs : s'.jobs = s.jobs.modify i f) (hprogress : Progress s.jobs s'.jobs)
    (hstop : (f job).status ≠ .running) (hprocs : s'.procs = popProc s.procs n)
    (haged : Aged {k} s.world s'.world) (hwell : WellFormed s'.world) : Booked n₀ s' where
  ids := by
    rw [hprogress.ids]
    exact h.ids
  well := hwell
  single := h.single.aged haged hprogress
  keys := by
    rw [hprocs]
    exact keys_popProc h.keys n
  handle j other hother hrunning := by
    rw [hjobs] at hother
    rcases getElem?_modify_cases hother with ⟨hne, hold⟩ | ⟨a, -, ha, rfl⟩
    · obtain ⟨m, l, q, hkept, hl⟩ := h.handle j other hold hrunning
      obtain ⟨hm, hkl⟩ := hkept.apart hhandle (id_ne_of_ne h.ids hold hjob hne)
      obtain ⟨q', hq'⟩ := hkept.aged haged (by simpa using hkl)
      refine ⟨m, l, q', hq'.of_procs ?_, hl⟩
      rw [hprocs]
      exact lookup_popProc_of_ne (by simpa using hm)
    · rw [hjob] at ha
      cases ha
      exact absurd hrunning hstop
  entry entry hentry := by
    rw [hprocs] at hentry
    obtain ⟨hmem, hne⟩ := List.mem_filter.mp hentry
    obtain ⟨j, other, m, hother, hrunning, hsession, hkey⟩ := h.entry entry hmem
    have hj : j ≠ i := by
      rintro rfl
      rw [hother] at hjob
      cases hjob
      rw [pidSession_injective (hsession.symm.trans hhandle.session)] at hkey
      simp [hkey] at hne
    refine ⟨j, other, m, ?_, hrunning, hsession, hkey⟩
    rw [hjobs, getElem?_modify_of_ne hj.symm]
    exact hother

/-- A waiting job is started, and its entry is made. -/
theorem enter (h : Booked n₀ s) {i n k : ℕ} {job : Job} {p : Proc} {f : Job → Job}
    (hjob : s.jobs[i]? = some job) (hpending : job.status = .pending)
    (hjobs : s'.jobs = s.jobs.modify i f) (hprogress : Progress s.jobs s'.jobs)
    (hrunning : (f job).status = .running) (hid : (f job).id = job.id)
    (hprocs : s'.procs = setProc s.procs ⟨n, k⟩) (hlast : k = s.world.procs.length)
    (hnew : HasHandle s'.procs s'.world (f job) n k p)
    (hothers : ∀ job' n' k' p', HasHandle s.procs s.world job' n' k' p' →
      ∃ q, HasHandle s'.procs s'.world job' n' k' q)
    (hgrown : s.world.procs.length ≤ s'.world.procs.length)
    (hback : ∀ (l : ℕ) (q : Proc), s'.world.procs[l]? = some q →
      (∃ p, s.world.procs[l]? = some p ∧ Ages p q) ∨ (l = k ∧ q.job.id = job.id))
    (hwell : WellFormed s'.world) : Booked n₀ s' where
  ids := by
    rw [hprogress.ids]
    exact h.ids
  well := hwell
  single := by
    rw [hjobs] at hprogress ⊢
    exact h.single.started h.ids hjob hpending hprogress hrunning hid hgrown hback
  keys := by
    rw [hprocs]
    exact keys_setProc h.keys _
  handle j other hother hrunning' := by
    rw [hjobs] at hother
    rcases getElem?_modify_cases hother with ⟨-, hold⟩ | ⟨a, -, ha, rfl⟩
    · obtain ⟨m, l, q, hkept, hl⟩ := h.handle j other hold hrunning'
      obtain ⟨q', hq'⟩ := hothers other m l q hkept
      exact ⟨m, l, q', hq', hl⟩
    · rw [hjob] at ha
      cases ha
      refine ⟨n, k, p, hnew, ?_⟩
      rw [hlast]
      exact h.single.grown
  entry entry hentry := by
    rw [hprocs] at hentry
    rcases List.mem_cons.mp hentry with rfl | hold
    · refine ⟨i, f job, n, ?_, hrunning, hnew.session, rfl⟩
      rw [hjobs, List.getElem?_modify_eq, hjob]
      rfl
    · obtain ⟨j, other, m, hother, hrunning', hsession, hkey⟩ :=
        h.entry entry (List.mem_filter.mp hold).1
      have hj : j ≠ i := by
        rintro rfl
        rw [hother] at hjob
        cases hjob
        rw [hpending] at hrunning'
        cases hrunning'
      refine ⟨j, other, m, ?_, hrunning', hsession, hkey⟩
      rw [hjobs, getElem?_modify_of_ne hj.symm]
      exact hother

end Booked

/-! ## Reaped jobs -/

/-- The job at an index has been reaped by what the process has returned that the run has
started for it. -/
def ReapedAs (n₀ : ℕ) (s : Sys World) (i : ℕ) : Prop :=
  ∃ job k p rc, s.jobs[i]? = some job ∧ n₀ ≤ k ∧ s.world.procs[k]? = some p ∧
    p.job.id = job.id ∧ p.exit = some rc ∧ job.exitCode = some (normalise rc) ∧
    (job.status = .done ∨ job.status = .failed) ∧ (job.status = .done ↔ normalise rc = 0)

theorem ReapedAs.kept {n₀ i : ℕ} {s s' : Sys World} (h : ReapedAs n₀ s i)
    (hprogress : Progress s.jobs s'.jobs) (hgrows : Grows s.world s'.world) :
    ReapedAs n₀ s' i := by
  obtain ⟨job, k, p, rc, hjob, hk, hp, howner, hexit, hcode, hstatus, hdone⟩ := h
  obtain ⟨job', hjob', -, -, hkept⟩ := hprogress.each i job hjob
  have hsettled : job.status.settled = true := by
    rcases hstatus with hstatus | hstatus <;> rw [hstatus] <;> rfl
  rw [hkept hsettled] at hjob'
  obtain ⟨q, hq, hages⟩ := hgrows.procs k p hp
  refine ⟨job, k, q, rc, hjob', hk, hq, ?_, hages.exit rc hexit, hcode, hstatus, hdone⟩
  rw [hages.job]
  exact howner

/-! ## The moves of a session -/

/-- The moves of ticks, kills and saves. -/
def Label.inSession (label : Label) : Bool :=
  label.inTick || label.inKill

section Moves

variable {site : Site} {label : Label} {n₀ : ℕ} {s s' : Sys World}

/-- A move of a session keeps the books. -/
theorem Move.booked (hmove : Move site true label s s') (hrunner : site.config.runner ≠ "tmux")
    (hlabel : label.inSession = true) (h : Booked n₀ s) : Booked n₀ s' := by
  have hprogress := hmove.turn.progress
  have hwell := hmove.onward.wellFormed h.well
  cases hmove with
  | ask hask => exact h.keep hprogress (fun _ _ _ => Iff.rfl) rfl (Later.aged (.single hask)) hwell
  | @probe _ i job w hjob hrunning halive =>
      obtain ⟨n, k, p, hhandle, -⟩ := h.handle i job hjob hrunning
      have hworld := (isAlive_handle_machine hhandle.session hhandle.handle halive).2.1 rfl
      refine h.keep hprogress (fun _ _ _ => Iff.rfl) rfl ?_ hwell
      rw [hworld]
      exact World.advance_aged ∅ _
  | save => exact h.keep hprogress (fun _ _ _ => Iff.rfl) rfl (.refl _ _) hwell
  | @skip _ i job b w now hjob hpending hblocker htime =>
      refine h.keep hprogress (running_same hjob ?_ (by simp)) rfl
        (Later.aged (.of_ok rfl htime)) hwell
      rw [hpending]
      decide
  | @fail _ i job placement argv e w w₁ w₂ now hchosen hunstarted htime =>
      refine h.keep hprogress (running_same hchosen.found ?_ (by simp)) rfl ?_ hwell
      · rw [hchosen.pending]
        decide
      · exact ((Later.aged hchosen.later).trans (hunstarted.aged hrunner)).trans
          (Later.aged (.of_ok rfl htime))
  | @reap _ i job outcome w₁ w₂ w₃ w₄ now cooldown hjob hrunning hdead hreap htime hcooled =>
      obtain ⟨n, k, p, hhandle, -⟩ := h.handle i job hjob hrunning
      obtain ⟨haged, q, rc, hint, -, -, houtcome⟩ :=
        reap_aged hhandle.session hhandle.handle hdead hreap htime hcooled
      refine h.close hjob hhandle rfl hprogress ?_ (forgotten_pidSession hhandle.session _) haged
        hwell
      rw [Job.finish_status, houtcome]
      rcases classify_status (some (normalise rc)) hint with hend | hend <;> rw [hend] <;> decide
  | @kill _ i job procs w₁ w₂ now hjob hrunning hkill htime =>
      obtain ⟨n, k, p, hhandle, -⟩ := h.handle i job hjob hrunning
      obtain ⟨w, haged, heq⟩ := killJob_handle_machine hhandle.session hhandle.handle hkill
      have hprocs : procs = popProc s.procs n := congrArg Sys.procs heq
      have hworld : w₁ = w := congrArg Sys.world heq
      subst hprocs hworld
      refine h.close hjob hhandle rfl hprogress (by simp) rfl ?_ hwell
      exact haged.trans ((Later.aged (.of_ok rfl htime)).mono (Set.empty_subset _))
  | @launch _ s₁ i job placement argv w w₂ now hchosen hstarted htime =>
      obtain ⟨n, k, p, hjobs, hprocs, hlast, hnew, hothers⟩ := hstarted.handles hrunner
      have hbefore : Aged ∅ s.world w := Later.aged hchosen.later
      have hafter : Aged ∅ s₁.world w₂ := Later.aged (.of_ok rfl htime)
      obtain ⟨q, hq⟩ := hnew.aged hafter (Set.notMem_empty k)
      refine h.enter (p := q) hchosen.found hchosen.pending ?_ hprogress
        (Job.launch_status placement (pidSession n) now job) rfl hprocs ?_ ?_ ?_ ?_ ?_ hwell
      · simp only [hjobs, placing, List.modify_modify_eq]
        rfl
      · rw [hlast]
        exact hbefore.length
      · exact ⟨hq.session, hq.handle, hq.proc, hq.track, hq.owner, hq.uncollected, hq.child⟩
      · intro job' n' k' p' hhandle
        obtain ⟨p₁, hp₁⟩ := hhandle.aged hbefore (Set.notMem_empty k')
        obtain ⟨p₂, hp₂⟩ := hothers job' n' k' p₁ hp₁
        exact hp₂.aged hafter (Set.notMem_empty k')
      · exact (hbefore.grows.trans (hstarted.onward.grows.trans hafter.grows)).length_le
      · intro l q' hq'
        obtain ⟨q₁, hq₁, hages⟩ := hafter.back hq'
        obtain ⟨w₁, haged₁, -, hadds⟩ := hstarted.adds hrunner
        rcases hadds l q₁ hq₁ with ⟨p₁, hp₁, hages₁⟩ | ⟨hl, hjob, -⟩
        · obtain ⟨p₀, hp₀, hages₀⟩ := hbefore.back hp₁
          exact .inl ⟨p₀, hp₀, (hages₀.toAges.trans hages₁).trans hages.toAges⟩
        · refine .inr ⟨?_, ?_⟩
          · rw [hl, haged₁.length, hlast]
          · rw [hages.job, hjob]
            rfl
  | spare => cases hlabel
  | clear => cases hlabel

/-- A tick leaves a running job, or reaps it by what its process has returned. -/
theorem Move.reaps (hmove : Move site true label s s') (hlabel : label.inTick = true)
    (h : Booked n₀ s) {i : ℕ} {job : Job} (hjob : s.jobs[i]? = some job)
    (hrunning : job.status = .running) : s'.jobs[i]? = some job ∨ ReapedAs n₀ s' i := by
  have hround : label.inRound = true := by
    rw [Label.inRound, hlabel, Bool.true_or]
  rcases hmove.running_kept hround hjob hrunning with hkept | rfl
  · exact .inl hkept
  · right
    cases hmove with
    | @reap _ _ job' outcome w₁ w₂ w₃ w₄ now cooldown hjob' _ hdead hreap htime hcooled =>
        rw [hjob] at hjob'
        cases hjob'
        obtain ⟨n, k, p, hhandle, hk⟩ := h.handle i job hjob hrunning
        obtain ⟨haged, q, rc, hint, hq, hexit, rfl⟩ :=
          reap_aged hhandle.session hhandle.handle hdead hreap htime hcooled
        obtain ⟨hcode, hdone⟩ := @classify_normalise rc hint
        refine ⟨Job.finish (classify (some (normalise rc)) hint) now job, k, q, rc, ?_, hk, hq, ?_,
          hexit, hcode, classify_status _ _, ?_⟩
        · rw [List.getElem?_modify_eq, hjob]
          rfl
        · obtain ⟨q', hq', hages⟩ := haged.procs k p hhandle.proc
          have hsame : q' = q := Option.some.inj (hq'.symm.trans hq)
          rw [← hsame, hages.job]
          exact hhandle.owner
        · rw [Job.finish_status, hdone, normalise_eq_zero]

/-- What the moves of a session leave. -/
theorem Booked.path {kinds : Label → Bool} (hrunner : site.config.runner ≠ "tmux")
    (hkinds : ∀ label, kinds label = true → label.inSession = true)
    (hpath : ReflTransGen (Step site true kinds) s s') (h : Booked n₀ s) :
    Booked n₀ s' ∧ ∀ i, ReapedAs n₀ s i → ReapedAs n₀ s' i := by
  induction hpath with
  | refl => exact ⟨h, fun _ hreaped => hreaped⟩
  | tail _ hlast ih =>
      obtain ⟨hmid, hkept⟩ := ih
      obtain ⟨label, hlabel, hmove⟩ := hlast
      refine ⟨hmove.booked hrunner (hkinds label hlabel) hmid, fun i hreaped => ?_⟩
      exact (hkept i hreaped).kept hmove.turn.progress hmove.onward.grows

/-- What a tick leaves of the jobs that ran before it. -/
theorem Booked.tick (hrunner : site.config.runner ≠ "tmux")
    (hpath : ReflTransGen (Step site true Label.inTick) s s') (h : Booked n₀ s) {i : ℕ} {job : Job}
    (hjob : s.jobs[i]? = some job) (hrunning : job.status = .running) :
    s'.jobs[i]? = some job ∨ ReapedAs n₀ s' i := by
  have hsession : ∀ label : Label, label.inTick = true → label.inSession = true := by
    intro label hlabel
    rw [Label.inSession, hlabel, Bool.true_or]
  induction hpath with
  | refl => exact .inl hjob
  | tail hpath hlast ih =>
      have hmid := (h.path hrunner hsession hpath).1
      obtain ⟨label, hlabel, hmove⟩ := hlast
      rcases ih with hkept | hreaped
      · exact hmove.reaps hlabel hmid hkept hrunning
      · exact .inr (hreaped.kept hmove.turn.progress hmove.onward.grows)

end Moves

/-! ## Sessions -/

/-- A child that has ended is waited for without a handle, as Python does with the children that
were dropped from the table before they ended. -/
def World.cleanUp (k : ℕ) (w : World) : World :=
  { w with procs := w.procs.modify k fun p => if p.exit = none then p else { p with collected := true } }

theorem World.cleanUp_aged (k : ℕ) (w : World) : Aged {k} w (w.cleanUp k) := by
  refine .of_modify rfl rfl rfl fun p _ => ?_
  split
  · exact .refl _ p
  · rename_i hended
    exact ⟨⟨rfl, rfl, rfl, fun _ h => h, fun _ => rfl, fun _ => .inr hended⟩, rfl, nofun⟩

/-- What one orchestrator does from a state on, with the jobs it has reaped: the indices of the
jobs that a tick has found running and has left not running. -/
inductive Session (site : Site) (s₀ : Sys World) : Set ℕ → Sys World → Prop
  | start : Session site s₀ ∅ s₀
  | event {reaped : Set ℕ} {s : Sys World} (event : Event) (h : Session site s₀ reaped s) :
      Session site s₀ reaped { s with world := event.apply s.world }
  | cleanUp {reaped : Set ℕ} {s : Sys World} (k : ℕ) (h : Session site s₀ reaped s)
      (hdropped : ∀ entry ∈ s.procs, entry.2.serial ≠ k) :
      Session site s₀ reaped { s with world := s.world.cleanUp k }
  | tick {reaped : Set ℕ} {s s' : Sys World} {changed : Bool} (h : Session site s₀ reaped s)
      (hrun : Nodepilot.tick site s = .ok changed s') :
      Session site s₀ (reaped ∪ {i | ∃ a b, s.jobs[i]? = some a ∧ a.status = .running ∧
        s'.jobs[i]? = some b ∧ b.status ≠ .running}) s'
  | save {reaped : Set ℕ} {s s' : Sys World} (h : Session site s₀ reaped s)
      (hrun : saveState s = .ok () s') : Session site s₀ reaped s'
  | kill {reaped : Set ℕ} {s s' : Sys World} {killed : Bool} (jobId : String)
      (h : Session site s₀ reaped s) (hrun : Nodepilot.kill jobId s = .ok killed s') :
      Session site s₀ reaped s'

theorem Booked.world {n₀ : ℕ} {s : Sys World} {w : World} {waited : Set ℕ} (h : Booked n₀ s)
    (haged : Aged waited s.world w) (hfree : ∀ entry ∈ s.procs, entry.2.serial ∉ waited)
    (hwell : WellFormed w) : Booked n₀ { s with world := w } := by
  refine ⟨h.ids, hwell, h.single.aged haged (.refl _), h.keys, fun i job hjob hrunning => ?_,
    h.entry⟩
  obtain ⟨n, k, p, hhandle, hk⟩ := h.handle i job hjob hrunning
  have hin := (lookup_eq_some_iff h.keys).mp hhandle.handle
  obtain ⟨q, hq⟩ := hhandle.aged haged (hfree _ hin)
  exact ⟨n, k, q, hq, hk⟩

/-- A session keeps the books, and reaps jobs by what their processes have returned. -/
theorem Session.booked {site : Site} {s₀ s : Sys World} {reaped : Set ℕ}
    (hrunner : site.config.runner ≠ "tmux") (hids : (s₀.jobs.map Job.id).Nodup)
    (hidle : AllIdle s₀.jobs) (hempty : s₀.procs = []) (hwell : WellFormed s₀.world)
    (h : Session site s₀ reaped s) :
    Booked s₀.world.procs.length s ∧ ∀ i ∈ reaped, ReapedAs s₀.world.procs.length s i := by
  induction h with
  | start =>
      have hnone : ∀ (k : ℕ) (p : Proc), s₀.world.procs.length ≤ k → s₀.world.procs[k]? ≠ some p := by
        intro k p hk hp
        rw [List.getElem?_eq_none hk] at hp
        cases hp
      refine ⟨⟨hids, hwell, ⟨le_rfl, ?_, ?_⟩, ?_, ?_, ?_⟩, nofun⟩
      · intro j k p q hj hk hp
        exact absurd hp (hnone j p hj)
      · intro k p hk hp
        exact absurd hp (hnone k p hk)
      · rw [hempty]
        exact List.nodup_nil
      · intro i job hjob hrunning
        exact absurd hrunning (hidle job (List.mem_of_getElem? hjob))
      · rw [hempty]
        exact nofun
  | @event reaped s event _ ih =>
      have haged := Event.aged ∅ s.world event
      have hwell' := ih.1.well.aged haged (Event.others s.world event)
      refine ⟨ih.1.world haged (fun _ _ => Set.notMem_empty _) hwell', fun i hi => ?_⟩
      exact (ih.2 i hi).kept (.refl _) haged.grows
  | @cleanUp reaped s k _ hdropped ih =>
      have haged := World.cleanUp_aged k s.world
      have hwell' := ih.1.well.aged haged fun o ho => .inl ho
      refine ⟨ih.1.world haged (fun entry hentry => by simpa using hdropped entry hentry) hwell',
        fun i hi => ?_⟩
      exact (ih.2 i hi).kept (.refl _) haged.grows
  | @tick reaped s s' changed _ hrun ih =>
      have hsession : ∀ label : Label, label.inTick = true → label.inSession = true := by
        intro label hlabel
        rw [Label.inSession, hlabel, Bool.true_or]
      have hpath := ((tick_obeys site).returns trivial hrun).1
      obtain ⟨hbooked, hkept⟩ := ih.1.path hrunner hsession hpath
      refine ⟨hbooked, ?_⟩
      rintro i (hold | ⟨a, b, ha, harunning, hb, hstopped⟩)
      · exact hkept i (ih.2 i hold)
      · rcases ih.1.tick hrunner hpath ha harunning with hsame | hreaped
        · rw [hb] at hsame
          cases hsame
          exact absurd harunning hstopped
        · exact hreaped
  | @save reaped s s' _ hrun ih =>
      have hsession : ∀ label : Label, label.inSave = true → label.inSession = true := by
        intro label hlabel
        cases label with
        | ask => rfl
        | save => rfl
        | _ => cases hlabel
      have hpath := ((saveState_obeys site true).returns trivial hrun).1
      obtain ⟨hbooked, hkept⟩ := ih.1.path hrunner hsession hpath
      exact ⟨hbooked, fun i hi => hkept i (ih.2 i hi)⟩
  | @kill reaped s s' killed jobId _ hrun ih =>
      have hsession : ∀ label : Label, label.inKill = true → label.inSession = true := by
        intro label hlabel
        rw [Label.inSession, hlabel, Bool.or_true]
      have hpath := ((kill_obeys site true jobId).returns trivial hrun).1
      obtain ⟨hbooked, hkept⟩ := ih.1.path hrunner hsession hpath
      exact ⟨hbooked, fun i hi => hkept i (ih.2 i hi)⟩

/-! ## Exactness -/

/-- The one process the session has started for a job. -/
structure StartedFor (s₀ s : Sys World) (job : Job) (k : ℕ) (p : Proc) : Prop where
  new : s₀.world.procs.length ≤ k
  proc : s.world.procs[k]? = some p
  owner : p.job.id = job.id
  only : ∀ (j : ℕ) (q : Proc), s₀.world.procs.length ≤ j → s.world.procs[j]? = some q →
    q.job.id = job.id → j = k

/-- The session of a pid. -/
def keySession (pid : ℤ) : String :=
  "pid:" ++ String.ofList (intText pid)

theorem Booked.startedFor {s₀ s : Sys World} {job : Job} {k : ℕ} {p : Proc}
    (h : Booked s₀.world.procs.length s) (hk : s₀.world.procs.length ≤ k)
    (hp : s.world.procs[k]? = some p) (howner : p.job.id = job.id) : StartedFor s₀ s job k p where
  new := hk
  proc := hp
  owner := howner
  only j q hj hq hid := h.single.once j k q p hj hk hq hp (hid.trans howner.symm)

/-- Running jobs of one session are one job. -/
theorem Booked.session_injective {n₀ : ℕ} {s : Sys World} (h : Booked n₀ s) {a b : Job}
    (ha : a ∈ running s.jobs) (hb : b ∈ running s.jobs) (hsession : a.session = b.session) :
    a = b := by
  obtain ⟨ha, harunning⟩ := List.mem_filter.mp ha
  obtain ⟨hb, hbrunning⟩ := List.mem_filter.mp hb
  obtain ⟨i, hi⟩ := List.mem_iff_getElem?.mp ha
  obtain ⟨j, hj⟩ := List.mem_iff_getElem?.mp hb
  obtain ⟨n, k, p, hhandle, -⟩ := h.handle i a hi (by simpa using harunning)
  obtain ⟨n', k', p', hhandle', -⟩ := h.handle j b hj (by simpa using hbrunning)
  by_contra hne
  have hid : a.id ≠ b.id := fun hid => hne (List.inj_on_of_nodup_map h.ids ha hb hid)
  refine (hhandle.apart hhandle' hid).1 (pidSession_injective ?_)
  rw [← hhandle.session, ← hhandle'.session, hsession]

/-- In a session of the subprocess backend that begins with no running job, the table of handles
has one entry for each running job and no other, under the pid in the job's session and on the
process that was started for it; running jobs have different sessions; and a job that was
reaped has the exit code of its own process, and is done if that is zero and else failed. -/
theorem handle_table_exact (site : Site) (hrunner : site.config.runner ≠ "tmux") (s₀ s : Sys World)
    (hids : (s₀.jobs.map Job.id).Nodup) (hidle : AllIdle s₀.jobs) (hempty : s₀.procs = [])
    (hwell : WellFormed s₀.world) (reaped : Set ℕ) (h : Session site s₀ reaped s) :
    (s.procs.map fun entry => keySession entry.1).Perm ((running s.jobs).map Job.session) ∧
    ((running s.jobs).map Job.session).Nodup ∧
    (∀ job ∈ running s.jobs, ∃ n k p, job.session = pidSession n ∧ ((n : ℤ), ⟨n, k⟩) ∈ s.procs ∧
      StartedFor s₀ s job k p ∧ p.track = .pid n) ∧
    ∀ i ∈ reaped, ∃ job k p rc, s.jobs[i]? = some job ∧ StartedFor s₀ s job k p ∧
      p.exit = some rc ∧ job.exitCode = some (normalise rc) ∧
      (job.status = .done ↔ normalise rc = 0) ∧ (normalise rc ≠ 0 → job.status = .failed) := by
  obtain ⟨hbooked, hreaped⟩ := h.booked hrunner hids hidle hempty hwell
  have hsessions : ((running s.jobs).map Job.session).Nodup := by
    refine List.Nodup.map_on (fun a ha b hb => hbooked.session_injective ha hb) ?_
    exact (List.Nodup.of_map Job.id hbooked.ids).filter _
  have hhandles : ∀ job ∈ running s.jobs, ∃ n k p, job.session = pidSession n ∧
      ((n : ℤ), ⟨n, k⟩) ∈ s.procs ∧ StartedFor s₀ s job k p ∧ p.track = .pid n := by
    intro job hmem
    obtain ⟨hmem, hrunning⟩ := List.mem_filter.mp hmem
    obtain ⟨i, hi⟩ := List.mem_iff_getElem?.mp hmem
    obtain ⟨n, k, p, hhandle, hk⟩ := hbooked.handle i job hi (by simpa using hrunning)
    exact ⟨n, k, p, hhandle.session, (lookup_eq_some_iff hbooked.keys).mp hhandle.handle,
      hbooked.startedFor hk hhandle.proc hhandle.owner, hhandle.track⟩
  have hkeys : (s.procs.map fun entry => keySession entry.1).Nodup := by
    refine List.Nodup.map_on (fun x hx y hy hsame => ?_) (List.Nodup.of_map Prod.fst hbooked.keys)
    obtain ⟨-, -, m, -, -, -, hm⟩ := hbooked.entry x hx
    obtain ⟨-, -, n, -, -, -, hn⟩ := hbooked.entry y hy
    rw [hm, hn] at hsame
    have hkey : x.1 = y.1 := by
      rw [hm, hn, pidSession_injective hsame]
    exact List.inj_on_of_nodup_map hbooked.keys hx hy hkey
  refine ⟨?_, hsessions, hhandles, fun i hi => ?_⟩
  · rw [List.perm_ext_iff_of_nodup hkeys hsessions]
    intro session
    rw [List.mem_map, List.mem_map]
    constructor
    · rintro ⟨entry, hentry, rfl⟩
      obtain ⟨i, job, n, hjob, hrunning, hsession, hkey⟩ := hbooked.entry entry hentry
      refine ⟨job, List.mem_filter.mpr ⟨List.mem_of_getElem? hjob, by simpa using hrunning⟩, ?_⟩
      rw [hsession, hkey]
      rfl
    · rintro ⟨job, hmem, rfl⟩
      obtain ⟨n, k, p, hsession, hentry, -, -⟩ := hhandles job hmem
      exact ⟨_, hentry, hsession.symm⟩
  · obtain ⟨job, k, p, rc, hjob, hk, hp, howner, hexit, hcode, hstatus, hdone⟩ := hreaped i hi
    refine ⟨job, k, p, rc, hjob, hbooked.startedFor hk hp howner, hexit, hcode, hdone, ?_⟩
    intro hne
    exact hstatus.resolve_left fun h => hne (hdone.mp h)

/-! ## On the machine -/

/-- Two jobs are started; the process of the first dies of signal 9 and is reaped. -/
theorem handle_table_exact_twoJobs : ∃ (reaped : Set ℕ) (s : Sys World), 0 ∈ reaped ∧
    s.jobs.map Job.status = [.failed, .running] ∧
    (s.procs.map fun entry => keySession entry.1).Perm ((running s.jobs).map Job.session) ∧
    ((running s.jobs).map Job.session).Nodup ∧
    ∀ i ∈ reaped, ∃ job k p rc, s.jobs[i]? = some job ∧
      StartedFor (fresh (smallSite twoJobs) {}) s job k p ∧ p.exit = some rc ∧
      job.exitCode = some (normalise rc) ∧ (job.status = .done ↔ normalise rc = 0) ∧
      (normalise rc ≠ 0 → job.status = .failed) := by
  obtain ⟨changed, s₁, htick, hends⟩ := of_returns
    (show returns (tick (smallSite twoJobs) (fresh (smallSite twoJobs) {})) (fun s₁ =>
      returns (tick (smallSite twoJobs)
        { s₁ with world := (Event.exit 0 (-9)).apply s₁.world }) (fun s₂ =>
        s₁.jobs.map Job.status == [.running, .running] &&
          s₂.jobs.map Job.status == [.failed, .running])) = true by decide +kernel)
  obtain ⟨changed', s₂, htick', hends⟩ := of_returns hends
  rw [Bool.and_eq_true, beq_iff_eq, beq_iff_eq] at hends
  obtain ⟨hbefore, hafter⟩ := hends
  have hstart : Session (smallSite twoJobs) (fresh (smallSite twoJobs) {}) ∅
      (fresh (smallSite twoJobs) {}) := .start
  have hsession := ((hstart.tick htick).event (.exit 0 (-9))).tick htick'
  have hexact := handle_table_exact (smallSite twoJobs) (by decide) _ s₂ (by decide) (by decide) rfl
    (.of_empty rfl) _ hsession
  refine ⟨_, s₂, .inr ?_, hafter, hexact.1, hexact.2.1, hexact.2.2.2⟩
  have hget : ∀ {jobs : List Job} {first second : JobStatus},
      jobs.map Job.status = [first, second] → ∃ a, jobs[0]? = some a ∧ a.status = first := by
    intro jobs first second hmap
    have hfirst : (jobs.map Job.status)[0]? = some first := by
      rw [hmap]
      rfl
    rw [List.getElem?_map] at hfirst
    exact Option.map_eq_some_iff.mp hfirst
  obtain ⟨a, ha, hrunning⟩ := hget hbefore
  obtain ⟨b, hb, hfailed⟩ := hget hafter
  refine ⟨a, b, ha, hrunning, hb, ?_⟩
  rw [hfailed]
  decide

end Nodepilot
