import Nodepilot.Lib.Commutes
import Nodepilot.Machine.Trial

/-!
# Failed starts

What becomes of a launch pass when the start of one candidate raises.  `_launch`
catches two classes of exceptions; the standard library raises more of them.

For the candidates after it, a job that has failed is as good as a job that
waits: neither runs, neither is done.  So the turns of the pass commute with
failing a job that waits, and the pass goes on after a caught exception exactly
as it would with the candidate left out.  An exception that is not caught ends
the tick with the job still waiting.
-/

namespace Nodepilot

open Obeys Relation

variable {W : Type}

/-! ## Failing a job that waits -/

/-- The job at an index is replaced. -/
def struck (i : ℕ) (failed : Job) (jobs : List Job) : List Job :=
  jobs.modify i fun _ => failed

/-- The job at an index of a state is replaced. -/
def strike (i : ℕ) (failed : Job) (s : Sys W) : Sys W :=
  { s with jobs := struck i failed s.jobs }

section Struck

variable {i j : ℕ} {job failed : Job} {jobs : List Job}

theorem struck_self (hjob : jobs[i]? = some job) : (struck i failed jobs)[i]? = some failed := by
  simp [struck, hjob]

theorem struck_other (hne : j ≠ i) : (struck i failed jobs)[j]? = jobs[j]? := by
  simp [struck, List.getElem?_modify_ne, hne.symm]

/-- Rewriting a job is replacing it. -/
theorem modify_eq_struck (hjob : jobs[i]? = some job) (f : Job → Job) :
    jobs.modify i f = struck i (f job) jobs := by
  apply List.ext_getElem?
  intro k
  by_cases hk : i = k
  · subst hk
    simp [struck, hjob]
  · simp [struck, hk]

/-- Different jobs may be rewritten in any order. -/
theorem struck_modify (hne : j ≠ i) (f : Job → Job) :
    (struck i failed jobs).modify j f = struck i failed (jobs.modify j f) := by
  apply List.ext_getElem?
  intro k
  by_cases hk : j = k
  · subst hk
    simp [struck, hne.symm]
  · simp [struck, List.getElem?_modify, hk]

/-- Only the running jobs occupy cores. -/
theorem occupiedFrom_running (occ : Finset ℤ) (jobs : List Job) :
    occupiedFrom occ jobs = occupiedFrom occ (running jobs) := by
  induction jobs generalizing occ with
  | nil => rfl
  | cons first rest ih =>
      by_cases hrunning : first.status = .running
      · rw [running, List.filter_cons_of_pos (by simpa using hrunning)]
        simp only [occupiedFrom, ih]
        rfl
      · rw [running, List.filter_cons_of_neg (by simpa using hrunning), occupiedFrom,
          if_neg fun h => hrunning h.1]
        exact ih occ

/-- Whether the job an id stands for is done, if there is one. -/
def doneAt (jobs : List Job) (dep : String) : Option Bool :=
  (byId jobs dep).map fun upstream => upstream.status == .done

theorem depsSatisfied_eq (jobs : List Job) (job : Job) :
    depsSatisfied jobs job = job.dependsOn.all fun dep => (doneAt jobs dep).getD false := by
  unfold depsSatisfied doneAt
  congr 1
  funext dep
  cases byId jobs dep <;> rfl

/-- The last job with an id, of a list with one more job in front. -/
theorem byId_cons (first : Job) (rest : List Job) (dep : String) :
    byId (first :: rest) dep = (byId rest dep).or (if first.id == dep then some first else none) := by
  rw [byId, List.reverse_cons, List.find?_append]
  congr 1
  by_cases hid : first.id == dep <;> simp [hid]

theorem doneAt_struck (hjob : jobs[i]? = some job) (hid : failed.id = job.id)
    (hbefore : job.status ≠ .done) (hafter : failed.status ≠ .done) (dep : String) :
    doneAt (struck i failed jobs) dep = doneAt jobs dep := by
  induction jobs generalizing i with
  | nil => cases hjob
  | cons first rest ih =>
      simp only [doneAt, byId_cons, struck, Option.map_or] at ih ⊢
      cases i with
      | zero =>
          have hfirst : first = job := by simpa using hjob
          subst hfirst
          rw [List.modify_zero_cons, byId_cons, Option.map_or, hid]
          by_cases hdep : (first.id == dep) = true
          · have hsame : (failed.status == .done) = (first.status == .done) := by
              rw [beq_eq_false_iff_ne.mpr hafter, beq_eq_false_iff_ne.mpr hbefore]
            simp only [hdep, if_true, Option.map_some, hsame]
          · simp only [hdep, if_neg, Bool.false_eq_true, not_false_eq_true]
      | succ i =>
          rw [List.modify_succ_cons, byId_cons, Option.map_or]
          rw [ih hjob]

/-- A job that waits and one that has failed are the same to admission control, to the
allocator and to the dependents. -/
structure Alike (job failed : Job) : Prop where
  id : failed.id = job.id
  pending : job.status = .pending
  failed : failed.status = .failed

namespace Alike

theorem running_struck (h : Alike job failed) (hjob : jobs[i]? = some job) :
    running (struck i failed jobs) = running jobs := by
  apply running_modify_idle hjob
  · rw [h.pending]
    decide
  · rw [h.failed]
    decide

theorem occupiedCores_struck (h : Alike job failed) (site : Site) (hjob : jobs[i]? = some job) :
    occupiedCores site (struck i failed jobs) = occupiedCores site jobs := by
  rw [occupiedCores, occupiedFrom_running, h.running_struck hjob, ← occupiedFrom_running]
  rfl

theorem depsSatisfied_struck (h : Alike job failed) (hjob : jobs[i]? = some job) (other : Job) :
    depsSatisfied (struck i failed jobs) other = depsSatisfied jobs other := by
  have hbefore : job.status ≠ .done := by
    rw [h.pending]
    decide
  have hafter : failed.status ≠ .done := by
    rw [h.failed]
    decide
  simp only [depsSatisfied_eq, doneAt_struck hjob h.id hbefore hafter]

end Alike

end Struck

/-! ## The pass does not look at it -/

section Commuting

variable [Host W] {i j : ℕ} {job failed : Job}

theorem canLaunch_struck (h : Alike job failed) {jobs : List Job} (hjob : jobs[i]? = some job)
    (config : Config) (other : Job) :
    canLaunch (W := W) config other (struck i failed jobs) = canLaunch config other jobs := by
  unfold canLaunch
  rw [h.running_struck hjob]

/-- A program for which it makes no difference whether a waiting job has failed before or
fails afterwards. -/
abbrev Blind {α : Type} (i : ℕ) (job failed : Job) (m : M W α) : Prop :=
  Commutes (fun s => s.jobs[i]? = some job) (strike i failed) m

theorem Asking.blind {α : Type} {m : M W α} (h : Asking m) : Blind i job failed m :=
  h.commutes (fun jobs => jobs[i]? = some job) (struck i failed)

theorem blind_call {α : Type} (c : Syscall α) : Blind i job failed (call c : M W α) :=
  call_commutes (fun jobs => jobs[i]? = some job) (struck i failed) c

omit [Host W] in
theorem blind_liftExcept {α : Type} (x : Except Exc α) :
    Blind i job failed (liftExcept x : M W α) := by
  cases x with
  | ok a => exact .pure a
  | error e => exact .throw e

omit [Host W] in
theorem blind_setJob (hne : j ≠ i) (f : Job → Job) :
    Blind i job failed (setJob j f : M W Unit) := by
  refine .modify (fun s _ => ?_) fun s hs => ?_
  · simp only [strike, struck_modify hne]
  · change (s.jobs.modify j f)[i]? = some job
    simpa [List.getElem?_modify_ne, hne] using hs

theorem blind_startSubprocess (hne : j ≠ i) (site : Site) (other : Job) (argv : List String)
    (workdir : String) :
    Blind i job failed (startSubprocess (W := W) site j other argv workdir) := by
  refine .bind (blind_call _) fun proc => ?_
  refine .bind (.modify (fun s _ => rfl) fun s hs => hs) fun _ => ?_
  refine .bind (blind_setJob hne _) fun _ => ?_
  refine .bind (.modify (fun s _ => rfl) fun s hs => hs) fun _ => ?_
  exact .bind (asking_setOomScoreAdj _ _).blind fun _ => .pure _

theorem blind_startTmux (hne : j ≠ i) (other : Job) (argv : List String) (workdir : String) :
    Blind i job failed (startTmux (W := W) j other argv workdir) := by
  refine .bind (blind_call _) fun _ => .bind (blind_call _) fun _ => ?_
  refine .bind (.modify (fun s _ => rfl) fun s hs => hs) fun _ => ?_
  exact blind_setJob hne _

theorem blind_start (hne : j ≠ i) (site : Site) (other : Job) (argv : List String) :
    Blind i job failed (start (W := W) site j other argv) := by
  refine .bind (asking_workdirOf other).blind fun workdir => ?_
  split
  · exact blind_startTmux hne other argv workdir
  · exact blind_startSubprocess hne site other argv workdir

theorem blind_launch (h : Alike job failed) (hne : j ≠ i) (site : Site) :
    Blind i job failed (launch (W := W) site j) := by
  refine .get_bind (fun s hs => ?_) fun s _ => ?_
  · simp only [strike, struck_other hne, h.occupiedCores_struck site hs]
  cases s.jobs[j]? with
  | none => exact .pure false
  | some other =>
      refine .bind (blind_liftExcept _) fun occupied => .bind (blind_liftExcept _) fun chosen => ?_
      cases chosen with
      | none => exact .pure false
      | some placement =>
          refine .bind (blind_setJob hne _) fun _ => ?_
          refine .bind (asking_buildCommand site _ placement).blind fun argv => ?_
          -- the start of another candidate, with whatever it raises
          have hstart : Blind i job failed
              (start (W := W) site j (other.place placement) argv) := blind_start hne site _ argv
          refine .bind (tryExcept_commutes (hstart.bind fun _ => .pure none) fun e =>
            .pure (some e)) fun failure => ?_
          cases failure with
          | some e =>
              refine .bind (blind_setJob hne _) fun _ => .bind (blind_call _) fun now => ?_
              exact .bind (blind_setJob hne _) fun _ => .pure true
          | none =>
              refine .bind (blind_setJob hne _) fun _ => .bind (blind_call _) fun now => ?_
              exact .bind (blind_setJob hne _) fun _ => .pure true

/-- A turn for one candidate takes no notice of another that has failed. -/
theorem blind_launchCandidate (h : Alike job failed) (hne : j ≠ i) (site : Site) :
    Blind i job failed (launchCandidate (W := W) site j) := by
  refine .get_bind (fun s hs => ?_) fun s _ => ?_
  · simp only [strike, struck_other hne, h.depsSatisfied_struck hs, canLaunch_struck h hs]
  cases s.jobs[j]? with
  | none => exact .pure false
  | some other =>
      dsimp only
      split
      · refine .bind (asking_canLaunch site.config other s.jobs).blind fun decision => ?_
        split
        · exact blind_launch h hne site
        · exact .pure false
      · exact .pure false

/-- So does the rest of a pass. -/
theorem blind_sweep (h : Alike job failed) (site : Site) {rest : List ℕ} (hrest : i ∉ rest) :
    Blind i job failed (sweep (launchCandidate (W := W) site) rest) := by
  refine .sweep fun j hj => blind_launchCandidate h ?_ site
  intro heq
  exact hrest (heq ▸ hj)

end Commuting

/-! ## The failing turn -/

section Failing

variable [Host W] {site : Site} {i : ℕ} {s : Sys W} {job : Job} {placement : Placement} {e : Exc}
  {w w' : W} {now : ℚ}

/-- A candidate of a launch pass is admitted and placed, and its start raises while the
orchestrator lives on; the world is left as `w`. -/
structure StartRaises (site : Site) (i : ℕ) (s : Sys W) (job : Job) (placement : Placement)
    (e : Exc) (w : W) : Prop where
  found : s.jobs[i]? = some job
  pending : job.status = .pending
  deps : depsSatisfied s.jobs job = true
  placed : Placeable site s.jobs job placement
  lives : e.cls ≠ .died
  raised : ∃ decision w₁ argv w₂ s₃,
    canLaunch site.config job s.jobs s = .ok decision { s with world := w₁ } ∧
      decision.ok = true ∧
      buildCommand site (job.place placement) placement (placing s i placement w₁) =
        .ok argv (placing s i placement w₂) ∧
      start site i (job.place placement) argv (placing s i placement w₂) = .error e s₃ ∧
      s₃.world = w

/-- The classes `_launch` catches. -/
def caughtAtLaunch (cls : ExcClass) : Bool :=
  cls.isOSError || cls == .runtimeError

/-- What `_launch` makes of a job whose start raised. -/
def unlaunched (placement : Placement) (e : Exc) (now : ℚ) (job : Job) : Job :=
  Job.fail ("launch_error: " ++ e.message) now (job.place placement)

namespace StartRaises

/-- A start that raises has moved nothing but the world. -/
theorem start_eq (h : StartRaises site i s job placement e w) :
    ∃ decision w₁ argv w₂,
      canLaunch site.config job s.jobs s = .ok decision { s with world := w₁ } ∧
      decision.ok = true ∧
      buildCommand site (job.place placement) placement (placing s i placement w₁) =
        .ok argv (placing s i placement w₂) ∧
      start site i (job.place placement) argv (placing s i placement w₂) =
        .error e (placing s i placement w) := by
  obtain ⟨decision, w₁, argv, w₂, s₃, hdecision, hok, hargv, hstart, hworld⟩ := h.raised
  rcases start_eq_error hstart with ⟨w₃, -, rfl⟩ | ⟨hdied, -⟩
  · cases hworld
    exact ⟨decision, w₁, argv, w₂, hdecision, hok, hargv, hstart⟩
  · exact absurd hdied h.lives

/-- An exception of the two classes fails the job and is forgotten. -/
theorem launchCandidate_caught (h : StartRaises site i s job placement e w)
    (hcaught : caughtAtLaunch e.cls = true) (htime : Host.answer .time w = .ok now w') :
    launchCandidate site i s =
      .ok true (strike i (unlaunched placement e now job) { s with world := w' }) := by
  obtain ⟨decision, w₁, argv, w₂, hdecision, hok, hargv, hstart⟩ := h.start_eq
  obtain ⟨occupied, hoccupied, hplaced⟩ := h.placed
  refine bind_eq_ok.mpr ⟨s, s, rfl, ?_⟩
  simp only [h.found, h.deps, if_true]
  refine bind_eq_ok.mpr ⟨decision, _, hdecision, ?_⟩
  rw [if_pos hok]
  refine bind_eq_ok.mpr ⟨_, _, rfl, ?_⟩
  simp only [h.found]
  refine bind_eq_ok.mpr ⟨occupied, _, liftExcept_eq_ok.mpr ⟨hoccupied, rfl⟩, ?_⟩
  refine bind_eq_ok.mpr ⟨some placement, _, liftExcept_eq_ok.mpr ⟨hplaced, rfl⟩, ?_⟩
  refine bind_eq_ok.mpr ⟨(), placing s i placement w₁, rfl, ?_⟩
  refine bind_eq_ok.mpr ⟨argv, _, hargv, ?_⟩
  refine bind_eq_ok.mpr ⟨some e, placing s i placement w, ?_, ?_⟩
  · exact tryExcept_eq_ok.mpr
      (Or.inr ⟨e, _, bind_eq_error.mpr (Or.inl hstart), hcaught, rfl⟩)
  · -- the handler writes the failure and the time over the placement
    refine bind_eq_ok.mpr ⟨(), _, rfl, ?_⟩
    refine bind_eq_ok.mpr ⟨now, _, call_eq_ok.mpr ⟨w', htime, rfl⟩, ?_⟩
    refine bind_eq_ok.mpr ⟨(), _, rfl, ?_⟩
    rw [pure_apply]
    simp only [strike, ← modify_eq_struck h.found (unlaunched placement e now), placing,
      List.modify_modify_eq]
    rfl

/-- Any other exception ends the turn, with the job still waiting. -/
theorem launchCandidate_uncaught (h : StartRaises site i s job placement e w)
    (huncaught : caughtAtLaunch e.cls = false) :
    launchCandidate site i s = .error e (placing s i placement w) := by
  obtain ⟨decision, w₁, argv, w₂, hdecision, hok, hargv, hstart⟩ := h.start_eq
  obtain ⟨occupied, hoccupied, hplaced⟩ := h.placed
  refine bind_eq_error.mpr (Or.inr ⟨s, s, rfl, ?_⟩)
  simp only [h.found, h.deps, if_true]
  refine bind_eq_error.mpr (Or.inr ⟨decision, _, hdecision, ?_⟩)
  rw [if_pos hok]
  refine bind_eq_error.mpr (Or.inr ⟨_, _, rfl, ?_⟩)
  simp only [h.found]
  refine bind_eq_error.mpr (Or.inr ⟨occupied, _, liftExcept_eq_ok.mpr ⟨hoccupied, rfl⟩, ?_⟩)
  refine bind_eq_error.mpr (Or.inr ⟨some placement, _, liftExcept_eq_ok.mpr ⟨hplaced, rfl⟩, ?_⟩)
  refine bind_eq_error.mpr (Or.inr ⟨(), placing s i placement w₁, rfl, ?_⟩)
  refine bind_eq_error.mpr (Or.inr ⟨argv, _, hargv, ?_⟩)
  refine bind_eq_error.mpr (Or.inl ?_)
  exact tryExcept_eq_error.mpr (Or.inl ⟨bind_eq_error.mpr (Or.inl hstart), huncaught⟩)

end StartRaises

end Failing

/-! ## The tick -/

section Tick

variable [Host W] {site : Site} {s p s₁ : Sys W}

/-- What the turns of a pass leave as it was: the jobs of no candidate, and what has been
started already. -/
theorem sweep_keeps {items : List ℕ} {b : Bool} {s' : Sys W}
    (hwaiting : ∀ j ∈ items, s.pendingAt j) (hnodup : items.Nodup)
    (h : sweep (launchCandidate site) items s = .ok b s') :
    s.starts <:+ s'.starts ∧ ∀ k, k ∉ items → s'.jobs[k]? = s.jobs[k]? := by
  induction items generalizing s b with
  | nil =>
      cases h
      exact ⟨List.suffix_refl _, fun k _ => rfl⟩
  | cons i rest ih =>
      obtain ⟨hfresh, hrest⟩ := List.nodup_cons.mp hnodup
      obtain ⟨first, s₂, hfirst, h⟩ := bind_eq_ok.mp h
      obtain ⟨later, s₃, hlater, hpure⟩ := bind_eq_ok.mp h
      cases hpure
      have hturn := launchCandidate_turn (hwaiting i (List.mem_cons_self ..)) hfirst
      have hothers : ∀ k, k ≠ i → s₂.jobs[k]? = s.jobs[k]? := fun k hk =>
        others_of_launched hk hturn
      have hstarts : s.starts <:+ s₂.starts := by
        rcases hturn with ⟨-, hmove | hmove⟩ | ⟨-, hasks⟩
        · rw [hmove.starts_eq]
          exact List.suffix_cons i s.starts
        · rw [hmove.starts_eq]
        · obtain ⟨w, -, rfl⟩ := asks_eq hasks
          exact List.suffix_refl _
      have hwaiting' : ∀ j ∈ rest, s₂.pendingAt j := by
        intro j hj
        have hne : j ≠ i := fun heq => hfresh (heq ▸ hj)
        obtain ⟨job, hjob, hpending⟩ := hwaiting j (List.mem_cons_of_mem i hj)
        exact ⟨job, (hothers j hne).trans hjob, hpending⟩
      obtain ⟨hstarts', hothers'⟩ := ih hwaiting' hrest hlater
      refine ⟨hstarts.trans hstarts', fun k hk => ?_⟩
      rw [hothers' k fun hmem => hk (List.mem_cons_of_mem i hmem)]
      exact hothers k fun heq => hk (heq ▸ List.mem_cons_self ..)

/-- In the tick from `s` the launch pass begins in `p`, and comes in `s₁` to a candidate. -/
structure Reaches (site : Site) (s p : Sys W) (before : List ℕ) (i : ℕ) (after : List ℕ)
    (s₁ : Sys W) : Prop where
  begins : ∃ reaped s₂ marked s₃, reapFinished site s = .ok reaped s₂ ∧
    markDeadDependents s₂ = .ok marked s₃ ∧ enforcePins s₃ = .ok () p
  order : pendingOrder p.jobs = before ++ i :: after
  turns : ∃ b, sweep (launchCandidate site) before p = .ok b s₁

/-- What a tick leaves in which the start of one candidate has raised, where the pass
without that candidate leaves `s'`. -/
structure Aftermath (site : Site) (s s₁ : Sys W) (i : ℕ) (after : List ℕ) (e : Exc) (failed : Job)
    (s' : Sys W) : Prop where
  tick : tick site s = .ok true (strike i failed s')
  ended : ∃ job, (struck i failed s'.jobs)[i]? = some job ∧ job.status = .failed ∧
    job.failureReason = "launch_error: " ++ e.message
  running : running (struck i failed s'.jobs) = running s'.jobs
  cores : occupiedCores site (struck i failed s'.jobs) = occupiedCores site s'.jobs
  kept : s₁.starts <:+ s'.starts ∧ ∀ k, k ∉ after → s'.jobs[k]? = s₁.jobs[k]?
  saved : ∀ s'', saveState (strike i failed s') = .ok () s'' →
    round site s = .ok () s'' ∧ s''.stateFile = some (struck i failed s'.jobs)

/-- The start of a candidate has raised `e`, and the tick comes to the end to which the pass
comes without that candidate: the candidate apart, the same jobs start on the same blocks. -/
structure Contained (site : Site) (s p s₁ : Sys W) (before : List ℕ) (i : ℕ) (after : List ℕ)
    (e : Exc) (failed : Job) (w : W) : Prop where
  returns : ∀ later s', sweep (launchCandidate site) after { s₁ with world := w } = .ok later s' →
    Aftermath site s s₁ i after e failed s'
  raises : ∀ e' s', sweep (launchCandidate site) after { s₁ with world := w } = .error e' s' →
    tick site s = .error e' (strike i failed s')
  decisions : ∀ mid j rest later s', after = mid ++ j :: rest →
    sweep (launchCandidate site) mid { s₁ with world := w } = .ok later s' →
    (∃ b, sweep (launchCandidate site) (before ++ i :: mid) p = .ok b (strike i failed s')) ∧
      ∀ job, canLaunch site.config job (struck i failed s'.jobs) (strike i failed s') =
        carry (strike i failed) (canLaunch site.config job s'.jobs s')

namespace Reaches

variable {before after : List ℕ} {i : ℕ}

theorem distinct (h : Reaches site s p before i after s₁) : (before ++ i :: after).Nodup := by
  rw [← h.order]
  exact nodup_pendingOrder p.jobs

/-- The candidates still to come wait. -/
theorem waiting (h : Reaches site s p before i after s₁) : ∀ j ∈ i :: after, s₁.pendingAt j := by
  intro j hj
  obtain ⟨b, hturns⟩ := h.turns
  have hwaiting : ∀ k ∈ before ++ i :: after, p.pendingAt k := by
    intro k hk
    rw [← h.order] at hk
    exact mem_pendingOrder.mp hk
  obtain ⟨hbefore, -, hapart⟩ := List.nodup_append.mp h.distinct
  obtain ⟨-, hothers⟩ := sweep_keeps
    (fun k hk => hwaiting k (List.mem_append_left _ hk)) hbefore hturns
  have hj' : j ∉ before := fun hmem => hapart j hmem j hj rfl
  obtain ⟨job, hjob, hpending⟩ := hwaiting j (List.mem_append_right _ hj)
  exact ⟨job, (hothers j hj').trans hjob, hpending⟩

/-- The tick, as far as the pass decides it. -/
theorem tick_eq (h : Reaches site s p before i after s₁) :
    ∃ early, tick site s = (sweep (launchCandidate site) (i :: after) >>= fun later =>
      pure (early || later)) s₁ := by
  obtain ⟨reaped, s₂, marked, s₃, hreap, hmark, henforce⟩ := h.begins
  obtain ⟨b, hturns⟩ := h.turns
  refine ⟨(reaped || marked) || b, ?_⟩
  have hpass : launchPending site p = (sweep (launchCandidate site) (i :: after) >>= fun later =>
      pure (b || later)) s₁ := by
    calc launchPending site p
        = sweep (launchCandidate site) (pendingOrder p.jobs) p := bind_of_ok rfl
      _ = sweep (launchCandidate site) (before ++ i :: after) p := by rw [h.order]
      _ = _ := sweep_append hturns
  rw [tick, bind_of_ok hreap, bind_of_ok hmark, bind_of_ok henforce]
  cases hrest : sweep (launchCandidate site) (i :: after) s₁ with
  | ok later s₄ =>
      rw [bind_of_ok hrest] at hpass ⊢
      rw [bind_of_ok hpass]
      simp only [Bool.or_assoc]
  | error e s₄ =>
      rw [bind_of_error hrest] at hpass ⊢
      exact bind_of_error hpass

end Reaches

variable {before after : List ℕ} {i : ℕ} {job : Job} {placement : Placement} {e : Exc} {w w' : W}
  {now : ℚ}

/-- A save writes the jobs as they are. -/
theorem saveState_saves {s' : Sys W} (h : saveState s = .ok () s') :
    s'.stateFile = some s.jobs := by
  obtain ⟨now, s₂, htime, h⟩ := bind_eq_ok.mp h
  obtain ⟨w, -, rfl⟩ := call_eq_ok.mp htime
  obtain ⟨⟨⟩, s₃, hwrite, h⟩ := bind_eq_ok.mp h
  obtain ⟨w₂, -, rfl⟩ := call_eq_ok.mp hwrite
  cases h
  rfl

theorem alike_unlaunched (hpending : job.status = .pending) :
    Alike job (unlaunched placement e now job) :=
  ⟨rfl, hpending, rfl⟩

/-- After a caught exception the rest of the pass goes as without the candidate. -/
theorem contained_of_caught (hreach : Reaches site s p before i after s₁)
    (hraises : StartRaises site i s₁ job placement e w) (htime : Host.answer .time w = .ok now w')
    (hcaught : caughtAtLaunch e.cls = true) :
    Contained site s p s₁ before i after e (unlaunched placement e now job) w' := by
  have hturn := hraises.launchCandidate_caught hcaught htime
  have halike : Alike job (unlaunched placement e now job) := alike_unlaunched hraises.pending
  have hapart : i ∉ after ∧ after.Nodup :=
    List.nodup_cons.mp (List.nodup_append.mp hreach.distinct).2.1
  have hfound : ({ s₁ with world := w' } : Sys W).jobs[i]? = some job := hraises.found
  -- what is left of the pass, after the failed job and without it
  have hrest : ∀ {items : List ℕ}, i ∉ items →
      sweep (launchCandidate site) items
        (strike i (unlaunched placement e now job) { s₁ with world := w' }) =
      carry (strike i (unlaunched placement e now job))
        (sweep (launchCandidate site) items { s₁ with world := w' }) := by
    intro items hitems
    exact (blind_sweep halike site hitems).same _ hfound
  obtain ⟨early, htick⟩ := hreach.tick_eq
  rw [sweep] at htick
  refine ⟨fun later s' hafter => ?_, fun e' s' hafter => ?_, ?_⟩
  · have hkept : s'.jobs[i]? = some job :=
      (blind_sweep halike site hapart.1).keeps _ later s' hfound hafter
    have hends : tick site s = .ok true (strike i (unlaunched placement e now job) s') := by
      have hpass := hrest hapart.1
      rw [hafter, carry_ok] at hpass
      have hall : sweep (launchCandidate site) (i :: after) s₁ =
          .ok true (strike i (unlaunched placement e now job) s') := by
        rw [sweep, bind_of_ok hturn, bind_of_ok hpass]
        rfl
      rw [sweep] at hall
      rw [htick, bind_of_ok hall, Bool.or_true]
      rfl
    have hwaiting : ∀ j ∈ after, ({ s₁ with world := w' } : Sys W).pendingAt j := fun j hj =>
      hreach.waiting j (List.mem_cons_of_mem i hj)
    have hkeeps := sweep_keeps (s := { s₁ with world := w' }) hwaiting hapart.2 hafter
    refine ⟨hends, ⟨_, struck_self hkept, rfl, rfl⟩, halike.running_struck hkept,
      halike.occupiedCores_struck site hkept, hkeeps, fun s'' hsave => ?_⟩
    refine ⟨bind_eq_ok.mpr ⟨true, _, hends, hsave⟩, ?_⟩
    exact saveState_saves hsave
  · have hpass := hrest hapart.1
    rw [hafter, carry_error] at hpass
    have hall : sweep (launchCandidate site) (i :: after) s₁ =
        .error e' (strike i (unlaunched placement e now job) s') := by
      rw [sweep, bind_of_ok hturn, bind_of_error hpass]
    rw [sweep] at hall
    rw [htick, bind_of_error hall]
  · intro mid j rest later s' hsplit hmid
    have hmem : i ∉ mid := by
      intro hmem
      apply hapart.1
      rw [hsplit]
      exact List.mem_append_left _ hmem
    have hkept : s'.jobs[i]? = some job :=
      (blind_sweep halike site hmem).keeps _ later s' hfound hmid
    obtain ⟨b, hturns⟩ := hreach.turns
    refine ⟨⟨b || (true || later), ?_⟩, fun other => ?_⟩
    · have hpass := hrest hmem
      rw [hmid, carry_ok] at hpass
      have hall : sweep (launchCandidate site) (i :: mid) s₁ =
          .ok (true || later) (strike i (unlaunched placement e now job) s') := by
        rw [sweep, bind_of_ok hturn, bind_of_ok hpass]
        rfl
      rw [sweep_append hturns, bind_of_ok hall]
      rfl
    · rw [canLaunch_struck halike hkept]
      exact (asking_canLaunch site.config other s'.jobs).blind.same s' hkept

/-- An exception that is not caught escapes from the tick, the job still waiting. -/
theorem tick_of_uncaught (hreach : Reaches site s p before i after s₁)
    (hraises : StartRaises site i s₁ job placement e w) (huncaught : caughtAtLaunch e.cls = false) :
    tick site s = .error e (placing s₁ i placement w) := by
  obtain ⟨early, htick⟩ := hreach.tick_eq
  rw [sweep] at htick
  rw [htick]
  exact bind_of_error (bind_of_error (hraises.launchCandidate_uncaught huncaught))

theorem not_contained_of_uncaught (hreach : Reaches site s p before i after s₁)
    (hraises : StartRaises site i s₁ job placement e w) (huncaught : caughtAtLaunch e.cls = false) :
    ¬ Contained site s p s₁ before i after e (unlaunched placement e now job) w' := by
  intro hcontained
  have hescapes := tick_of_uncaught hreach hraises huncaught
  cases hafter : sweep (launchCandidate site) after { s₁ with world := w' } with
  | ok later s' =>
      have hends := (hcontained.returns later s' hafter).tick
      rw [hescapes] at hends
      cases hends
  | error e' s' =>
      -- the job has not failed where the exception escapes
      have hends := hcontained.raises e' s' hafter
      rw [hescapes] at hends
      have hstates : placing s₁ i placement w = strike i (unlaunched placement e now job) s' :=
        (EStateM.Result.error.inj hends).2
      have hjobs := congrArg (fun state => (state.jobs[i]?).map Job.status) hstates
      simp only [placing, strike, List.getElem?_modify_eq, hraises.found] at hjobs
      have hfailed : ((struck i (unlaunched placement e now job) s'.jobs)[i]?).map Job.status ≠
          some .pending := by
        simp only [struck, List.getElem?_modify_eq]
        cases s'.jobs[i]? <;> simp [unlaunched]
      apply hfailed
      rw [← hjobs]
      exact congrArg some hraises.pending

/-- A failed start is contained in its tick exactly if its exception is one of the two classes
`_launch` catches. -/
theorem launch_failure_contained (site : Site) (s p s₁ : Sys W) (before : List ℕ) (i : ℕ)
    (after : List ℕ) (job : Job) (placement : Placement) (e : Exc) (w w' : W) (now : ℚ)
    (hreach : Reaches site s p before i after s₁)
    (hraises : StartRaises site i s₁ job placement e w)
    (htime : Host.answer .time w = .ok now w') :
    Contained site s p s₁ before i after e (unlaunched placement e now job) w' ↔
      e.cls.isOSError = true ∨ e.cls = .runtimeError := by
  have hclasses : caughtAtLaunch e.cls = true ↔ e.cls.isOSError = true ∨ e.cls = .runtimeError := by
    simp [caughtAtLaunch]
  rw [← hclasses]
  constructor
  · intro hcontained
    by_contra huncaught
    exact not_contained_of_uncaught hreach hraises (Bool.eq_false_iff.mpr huncaught) hcontained
  · exact contained_of_caught hreach hraises htime

end Tick

/-! ## On the machine -/

/-- Whether the start of a candidate raises `e`, once it has been admitted and placed, and
nothing happens after it. -/
def startFails (site : Site) (i : ℕ) (s : Sys World) (job : Job) (placement : Placement) (e : Exc) :
    Bool :=
  match canLaunch site.config job s.jobs s with
  | .error _ _ => false
  | .ok decision s₁ =>
      decision.ok &&
        match buildCommand site (job.place placement) placement (placing s i placement s₁.world) with
        | .error _ _ => false
        | .ok argv s₂ =>
            match start site i (job.place placement) argv s₂ with
            | .ok _ _ => false
            | .error e' s₃ => e' == e && s₃.world.agenda.isEmpty

theorem startRaises_of_startFails {site : Site} {i : ℕ} {s : Sys World} {job : Job}
    {placement : Placement} {e : Exc} (hjob : s.jobs[i]? = some job)
    (hpending : job.status = .pending) (hdeps : depsSatisfied s.jobs job = true)
    (hplaced : Placeable site s.jobs job placement) (hlives : e.cls ≠ .died)
    (hfails : startFails site i s job placement e = true) :
    ∃ w, StartRaises site i s job placement e w ∧ w.agenda = [] := by
  unfold startFails at hfails
  cases hdecision : canLaunch site.config job s.jobs s with
  | error e' s₁ =>
      rw [hdecision] at hfails
      cases hfails
  | ok decision s₁ =>
      rw [hdecision] at hfails
      obtain ⟨hok, hfails⟩ := Bool.and_eq_true_iff.mp hfails
      obtain ⟨w₁, -, rfl⟩ := (quiet_canLaunch _ _ _).of_ok hdecision
      cases hargv : buildCommand site (job.place placement) placement (placing s i placement w₁) with
      | error e' s₂ =>
          simp only [hargv] at hfails
          cases hfails
      | ok argv s₂ =>
          simp only [hargv] at hfails
          obtain ⟨w₂, -, rfl⟩ := (quiet_buildCommand _ _ _).of_ok hargv
          cases hstart : start site i (job.place placement) argv
              { placing s i placement w₁ with world := w₂ } with
          | ok a s₃ =>
              simp only [hstart] at hfails
              cases hfails
          | error e' s₃ =>
              simp only [hstart] at hfails
              obtain ⟨hsame, hagenda⟩ := Bool.and_eq_true_iff.mp hfails
              have hsame : e' = e := beq_iff_eq.mp hsame
              subst hsame
              refine ⟨s₃.world, ⟨hjob, hpending, hdeps, hplaced, hlives, ?_⟩,
                List.isEmpty_iff.mp hagenda⟩
              exact ⟨decision, w₁, argv, w₂, s₃, hdecision, hok, hargv, hstart, rfl⟩

/-- Three jobs that fit two nodes of four cores. -/
def trioJobs : List Job :=
  [{ id := "a", command := "true", cores := 2 }, { id := "b", command := "true", cores := 3 },
    { id := "c", command := "true", cores := 1 }]

def trioSite : Site :=
  smallSite trioJobs smallConfig reserved_smallConfig

/-- A machine on which the second `Popen` raises. -/
def failing (e : Exc) : World :=
  { agenda := List.replicate 13 [] ++ [[.raise e]] }

/-- The second job, and the block it is given. -/
def secondJob : Job :=
  { id := "b", command := "true", cores := 3 }

def secondBlock : Placement :=
  { cpuList := "4-6", node := 1 }

/-- The first candidate has been started, and the start of the second raises. -/
def secondFails (e : Exc) (s : Sys World) : Bool :=
  s.jobs[1]? == some secondJob && s.starts == [0] && s.stateFile == none &&
    startFails trioSite 1 s secondJob secondBlock e

theorem placeable_second {s : Sys World} (hoccupied : occupiedCores trioSite s.jobs = .ok {0, 1}) :
    Placeable trioSite s.jobs secondJob secondBlock :=
  ⟨{0, 1}, hoccupied, by decide +kernel⟩

/-- The launch pass on such a machine comes to the second job, whose start raises. -/
theorem reaches_second {e : Exc} (hlives : e.cls ≠ .died)
    (hfails : returns (sweep (launchCandidate trioSite) [0] (fresh trioSite (failing e)))
      (fun s => secondFails e s && decide (occupiedCores trioSite s.jobs = .ok {0, 1})) = true) :
    ∃ (s₁ : Sys World) (w w' : World) (now : ℚ), s₁.starts = [0] ∧ s₁.stateFile = none ∧
      Reaches trioSite (fresh trioSite (failing e)) (fresh trioSite (failing e)) [0] 1 [2] s₁ ∧
      StartRaises trioSite 1 s₁ secondJob secondBlock e w ∧ Host.answer .time w = .ok now w' := by
  obtain ⟨b, s₁, hturns, hends⟩ := of_returns hfails
  simp only [secondFails, Bool.and_eq_true, beq_iff_eq, decide_eq_true_eq] at hends
  obtain ⟨⟨⟨⟨hjob, hstarts⟩, hfile⟩, hstart⟩, hoccupied⟩ := hends
  obtain ⟨w, hraises, hagenda⟩ := startRaises_of_startFails hjob rfl rfl
    (placeable_second hoccupied) hlives hstart
  refine ⟨s₁, w, w, w.clock, hstarts, hfile, ⟨?_, ?_, b, hturns⟩, hraises, ?_⟩
  · exact ⟨false, _, false, _, rfl, rfl, rfl⟩
  · change pendingOrder trioJobs = [0] ++ 1 :: [2]
    decide +kernel
  · change w.answer .time = _
    simp [World.answer, World.failure, World.advance, World.effect, hagenda]

/-- `Popen` raises an `OSError` for the second of three jobs, after the first has started. -/
theorem launch_failure_contained_trio : ∃ (s₁ : Sys World) (w' : World) (now : ℚ),
    s₁.starts = [0] ∧ Contained trioSite (fresh trioSite (failing ⟨.osError, "no"⟩))
      (fresh trioSite (failing ⟨.osError, "no"⟩)) s₁ [0] 1 [2] ⟨.osError, "no"⟩
      (unlaunched secondBlock ⟨.osError, "no"⟩ now secondJob) w' := by
  have hfails : returns (sweep (launchCandidate trioSite) [0]
      (fresh trioSite (failing ⟨.osError, "no"⟩))) (fun s => secondFails ⟨.osError, "no"⟩ s &&
        decide (occupiedCores trioSite s.jobs = .ok {0, 1})) = true := by
    decide +kernel
  obtain ⟨s₁, w, w', now, hstarts, -, hreach, hraises, htime⟩ := reaches_second (by decide) hfails
  have hcontained := launch_failure_contained trioSite _ _ s₁ [0] 1 [2] secondJob secondBlock _ w w'
    now hreach hraises htime
  exact ⟨s₁, w', now, hstarts, hcontained.mpr (Or.inl rfl)⟩

/-- `Popen` raises a `ValueError` for the second of three jobs: the tick ends with it, the
first job started and nothing saved. -/
theorem launch_failure_escapes :
    (∃ s' : Sys World, tick trioSite (fresh trioSite (failing ⟨.valueError, "embedded null byte"⟩)) =
      .error ⟨.valueError, "embedded null byte"⟩ s' ∧ s'.starts = [0] ∧ s'.stateFile = none) ∧
    ¬ ∀ (site : Site) (s p s₁ : Sys World) (before : List ℕ) (i : ℕ) (after : List ℕ) (job : Job)
      (placement : Placement) (e : Exc) (w w' : World) (now : ℚ),
      Reaches site s p before i after s₁ → StartRaises site i s₁ job placement e w →
      Host.answer .time w = .ok now w' →
      Contained site s p s₁ before i after e (unlaunched placement e now job) w' := by
  have hfails : returns (sweep (launchCandidate trioSite) [0]
      (fresh trioSite (failing ⟨.valueError, "embedded null byte"⟩)))
      (fun s => secondFails ⟨.valueError, "embedded null byte"⟩ s &&
        decide (occupiedCores trioSite s.jobs = .ok {0, 1})) = true := by
    decide +kernel
  obtain ⟨s₁, w, w', now, hstarts, hfile, hreach, hraises, htime⟩ :=
    reaches_second (by decide) hfails
  refine ⟨⟨_, tick_of_uncaught hreach hraises rfl, hstarts, hfile⟩, fun h => ?_⟩
  have hcontained := h trioSite _ _ s₁ [0] 1 [2] secondJob secondBlock _ w w' now hreach hraises
    htime
  exact not_contained_of_uncaught hreach hraises rfl hcontained

end Nodepilot
