import Nodepilot.Machine.Restart
import Nodepilot.Machine.Trial
import Nodepilot.Safety.Exclusivity
import Nodepilot.Safety.LifeCycle

/-!
# Crashes between two effects

The orchestrator may die between any two of its effects; what it started lives on,
and the next orchestrator knows of it by the state file alone.  A tick is saved at
its end: whoever dies after a start and before that save leaves a process that the
state file calls pending, and the next orchestrator starts the job again.

The run is a `Crashing` one: orchestrators follow each other, each of them up until
it dies or stops.  Such a death costs the processes of the job that is `lost` with it,
and no others.  Two invariants carry the proof of this.

* While an orchestrator is up, every living process of a job that is not lost is owned
  by a running job (`Secure`), so a launch is of another job and onto other CPUs.  A job
  that owns a living process is never found dead, whether by handle, pid or session.
* While none is up, a living process whose job the state file calls running is
  owned by that job as it was saved (`Resumable`), since a running job is written
  again only when it ends.

A job that is not lost is called running by the state file while it has a living process,
so the second gives the first to the next orchestrator.
-/

namespace Nodepilot

open Obeys Relation

/-! ## Runs -/

/-- Whether there is an orchestrator. -/
inductive Phase
  | up
  | down
  deriving DecidableEq

/-- A living process is not taken for a dead one, once its handle is lost: its name does not make
it look like a zombie, and its session has the name it is asked for by. -/
def Recognisable (p : Proc) : Prop :=
  match p.track with
  | .pid _ => p.child = true ∨ legible p.comm
  | .session name => name = sessionName p.job.id

def Shown (lost : Set String) (w : World) : Prop :=
  ∀ p ∈ w.procs, p.exit = none → p.job.id ∉ lost → Recognisable p

/-- The jobs that the next orchestrator loads. -/
def Sys.saved (site : Site) (s : Sys World) : List Job :=
  s.stateFile.getD site.queue

/-- Every process that lives, but for those of lost jobs, has a job that is saved as running. -/
def Recorded (site : Site) (lost : Set String) (s : Sys World) : Prop :=
  ∀ p ∈ s.world.procs, p.exit = none → p.job.id ∉ lost →
    ∃ job ∈ s.saved site, job.id = p.job.id ∧ job.status = .running

/-- The states of the runs of a site in which orchestrators follow each other, each of which may
die at any effect.  A job that is not `lost` is saved as running whenever an orchestrator takes over
while a process of it lives, and its living processes are recognisable. -/
inductive Crashing (site : Site) (lost : Set String) : Phase → Sys World → Prop
  | fresh {w : World} (hprocs : w.procs = []) (hlaunches : w.launches = []) :
      Crashing site lost .down (fresh site w)
  | event {phase : Phase} {s : Sys World} (event : Event) (h : Crashing site lost phase s) :
      Crashing site lost phase { s with world := event.apply s.world }
  /-- The next orchestrator is constructed. -/
  | resume {s s' : Sys World} (h : Crashing site lost .down s)
      (hload : fromQueue site s = .ok () s') (hrecorded : Recorded site lost s) :
      Crashing site lost .up s'
  | startUp {s s' : Sys World} (h : Crashing site lost .up s)
      (hrun : Nodepilot.startUp site s = .ok () s')
      (hshown : Throughout (Shown lost) s.world s'.world) : Crashing site lost .up s'
  | round {s s' : Sys World} (h : Crashing site lost .up s)
      (hrun : Nodepilot.round site s = .ok () s')
      (hshown : Throughout (Shown lost) s.world s'.world) : Crashing site lost .up s'
  /-- The orchestrator stops or dies between two rounds. -/
  | stops {s : Sys World} (h : Crashing site lost .up s) :
      Crashing site lost .down { s with world := s.world.orphan }
  /-- It dies of an exception, which may come at any effect. -/
  | dies {s s' : Sys World} {e : Exc} (h : Crashing site lost .up s)
      (hrun : Nodepilot.startUp site s = .error e s' ∨ Nodepilot.round site s = .error e s')
      (hshown : Throughout (Shown lost) s.world s'.world) :
      Crashing site lost .down { s' with world := s'.world.orphan }

/-- Every start was of a job that had no living process, and onto CPUs of no living process, those
of lost jobs left aside. -/
def StartsApart (lost : Set String) (w : World) : Prop :=
  ∀ launch ∈ w.launches, ∀ other ∈ launch.alive, other.id ∉ lost →
    launch.job.id ≠ other.id ∧ Disjoint (blockOf launch.job) (blockOf other)

/-! ## Owners -/

/-- A job as it is while the process started for it lives. -/
structure Owns (job : Job) (p : Proc) : Prop where
  running : job.status = .running
  id : job.id = p.job.id
  block : blockOf job = blockOf p.job
  session : job.session = p.reference

/-- What a process owes its owner never changes. -/
theorem Owns.congr {job : Job} {p q : Proc} (h : Owns job p) (htrack : q.track = p.track)
    (hjob : q.job = p.job) : Owns job q := by
  refine ⟨h.running, ?_, ?_, ?_⟩
  · rw [h.id, hjob]
  · rw [h.block, hjob]
  · rw [h.session, Proc.reference, Proc.reference, htrack, hjob]

/-- The process of a job that is not lost was its process before. -/
theorem Ages.kept {p q : Proc} {lost : Set String} (h : Ages p q) (hq : q.job.id ∉ lost) :
    p.job.id ∉ lost := by
  rwa [← h.job]

/-- What holds of the table whoever looks at it. -/
structure Standing (site : Site) (lost : Set String) (w : World) : Prop where
  well : WellFormed w
  apart : StartsApart lost w
  sessions : ∀ p ∈ w.procs, ∀ name, p.track = .session name → site.config.runner = "tmux"

/-- The saved jobs are what the jobs in memory were once, and a job that was running then is
running as it was or not at all. -/
structure Behind (saved jobs : List Job) : Prop where
  progress : Progress saved jobs
  running : ∀ (i : ℕ) (a b : Job), saved[i]? = some a → jobs[i]? = some b → a.status = .running →
    b.status = .running → b = a

/-- An orchestrator is up, and every process that lives is owned, if its job is not lost. -/
structure Secure (site : Site) (lost : Set String) (s : Sys World) : Prop where
  standing : Standing site lost s.world
  ids : (s.jobs.map Job.id).Nodup
  handles : Handles s.procs s.world
  held : Held s.procs s.world
  owned : ∀ p ∈ s.world.procs, p.exit = none → p.job.id ∉ lost → ∃ job ∈ s.jobs, Owns job p
  tmux : site.config.runner = "tmux" → "tmux" ∈ s.world.programs
  behind : Behind (s.saved site) s.jobs

/-- No orchestrator is up, and a living process whose job is saved as running is owned by it. -/
structure Resumable (site : Site) (lost : Set String) (s : Sys World) : Prop where
  standing : Standing site lost s.world
  ids : ((s.saved site).map Job.id).Nodup
  orphans : ∀ p ∈ s.world.procs, p.child = false
  owned : ∀ p ∈ s.world.procs, p.exit = none → p.job.id ∉ lost → ∀ job ∈ s.saved site,
    job.id = p.job.id → job.status = .running → Owns job p

section Worlds

variable {site : Site} {lost : Set String} {w w' : World}

theorem StartsApart.of_launches (h : StartsApart lost w) (hlaunches : w'.launches = w.launches) :
    StartsApart lost w' := by
  intro launch hmem
  rw [hlaunches] at hmem
  exact h launch hmem

theorem Standing.stays (h : Standing site lost w) (hstays : Stays w w') (hwell : WellFormed w') :
    Standing site lost w' where
  well := hwell
  apart := h.apart.of_launches hstays.launches
  sessions q hq name htrack := by
    obtain ⟨p, hp, hages⟩ := hstays.back_mem hq
    exact h.sessions p hp name (hages.track.symm.trans htrack)

theorem mem_orphan {q : Proc} (hq : q ∈ w.orphan.procs) :
    ∃ p ∈ w.procs, q = { p with child := false } := by
  obtain ⟨p, hp, rfl⟩ := List.mem_map.mp hq
  exact ⟨p, hp, rfl⟩

theorem Standing.orphan (h : Standing site lost w) : Standing site lost w.orphan where
  well := h.well.orphan
  apart := h.apart
  sessions q hq name htrack := by
    obtain ⟨p, hp, rfl⟩ := mem_orphan hq
    exact h.sessions p hp name htrack

end Worlds

/-! ## Jobs and saved jobs -/

namespace Behind

variable {saved jobs jobs' : List Job}

theorem refl (jobs : List Job) : Behind jobs jobs := by
  refine ⟨.refl jobs, fun i a b ha hb _ _ => ?_⟩
  rw [ha] at hb
  exact (Option.some.inj hb).symm

/-- A job that was saved as running is not pending. -/
theorem not_pending (h : Behind saved jobs) {i : ℕ} {a b : Job} (ha : saved[i]? = some a)
    (hb : jobs[i]? = some b) (hrunning : a.status = .running) : b.status ≠ .pending := by
  obtain ⟨b', hb', -, hmoved, -⟩ := h.progress.each i a ha
  have hsame : b' = b := Option.some.inj (hb'.symm.trans hb)
  subst hsame
  intro hpending
  rw [hpending] at hmoved
  rw [advance_pending hmoved] at hrunning
  cases hrunning

/-- Only a pending job is made running. -/
theorem turn {site : Site} {gated : Bool} {label : Label} (h : Behind saved jobs)
    (hturn : Turn site gated label jobs jobs') : Behind saved jobs' := by
  refine ⟨h.progress.trans hturn.progress, fun i a b ha hb hrunning hstill => ?_⟩
  have hstopped : ∀ {j : ℕ} {f : Job → Job}, (∀ job, (f job).status ≠ .running) →
      jobs' = jobs.modify j f → b = a := by
    intro j f hstop hjobs
    rw [hjobs] at hb
    rcases getElem?_modify_cases hb with ⟨-, hold⟩ | ⟨c, -, -, rfl⟩
    · exact h.running i a b ha hold hrunning hstill
    · exact absurd hstill (hstop c)
  cases hturn with
  | ask => exact h.running i a b ha hb hrunning hstill
  | save => exact h.running i a b ha hb hrunning hstill
  | spare => exact h.running i a b ha hb hrunning hstill
  | @reap _ _ _ outcome _ _ _ hend =>
      refine hstopped (fun job => ?_) rfl
      rcases hend with hend | hend <;> simp [hend]
  | skip => exact hstopped (fun job => by simp) rfl
  | fail => exact hstopped (fun job => by simp) rfl
  | kill => exact hstopped (fun job => by simp) rfl
  | clear => exact hstopped (fun job => by simp) rfl
  | launch hjob hpending =>
      rcases getElem?_modify_cases hb with ⟨-, hold⟩ | ⟨c, rfl, hc, rfl⟩
      · exact h.running i a b ha hold hrunning hstill
      · rw [hjob] at hc
        cases hc
        exact absurd hpending (h.not_pending ha hjob hrunning)

end Behind

theorem Move.behind {site : Site} {gated : Bool} {label : Label} {s s' : Sys World}
    (hmove : Move site gated label s s') (h : Behind (s.saved site) s.jobs) :
    Behind (s'.saved site) s'.jobs := by
  by_cases hsave : label = .save
  · subst hsave
    cases hmove
    exact .refl s.jobs
  · have hfile : s'.stateFile = s.stateFile := by
      rw [hmove.stateFile_eq]
      cases label <;> first | rfl | exact absurd rfl hsave
    rw [Sys.saved, hfile]
    exact h.turn hmove.turn

/-! ## Moves of an orchestrator -/

section Moves

variable {site : Site} {lost : Set String} {gated : Bool} {label : Label} {s s' : Sys World}

/-- A job that owns a living process is not found dead. -/
theorem Secure.not_dead (h : Secure site lost s) {job : Job} {p : Proc}
    (hdead : isAlive job s = .ok false s') (hmem : p ∈ s'.world.procs) (halive : p.exit = none)
    (howns : Owns job p) (hshown : Recognisable p) : False := by
  obtain ⟨w, hseen, hworld⟩ := (looking_isAlive job).of_ok hdead
  have hstays : Stays s.world s'.world := by
    rw [hworld]
    exact (Seen.aged hseen).stays
  obtain ⟨p₀, hp₀, hages⟩ := hstays.back_mem hmem
  cases htrack : p.track with
  | pid n =>
      have hsession : job.session = pidSession n := by
        rw [howns.session, Proc.reference, htrack]
      refine dead_ended hsession h.standing.well h.handles hdead hmem htrack (fun hnone _ => ?_) halive
      rw [Recognisable, htrack] at hshown
      rcases hshown with hchild | hlegible
      · -- a child has a handle
        obtain ⟨k, hk⟩ := List.mem_iff_getElem?.mp hp₀
        have hheld := h.held n k p₀ hk (hages.alive halive) (hages.child.symm.trans hchild)
          (hages.track.symm.trans htrack)
        rw [hnone] at hheld
        cases hheld
      · exact hlegible
  | session name =>
      have hsession : job.session = tmuxSession (sessionName p.job.id) := by
        rw [howns.session, Proc.reference, htrack]
      rw [Recognisable, htrack] at hshown
      subst hshown
      have htmux : "tmux" ∈ s.world.programs :=
        h.tmux (h.standing.sessions p₀ hp₀ _ (hages.track.symm.trans htrack))
      have htarget := tmuxAlive_machine htmux (isAlive_tmux hsession hdead)
      have hsessions : sessionName p.job.id ∈ s'.world.sessions :=
        World.mem_sessions.mpr ⟨p, hmem, htrack, halive⟩
      rw [World.target, if_pos hsessions] at htarget
      cases htarget

/-- A job has been found dead, some time before the world became `w'`. -/
def FoundDead (job : Job) (s : Sys World) (w' : World) : Prop :=
  ∃ w, isAlive job s = .ok false { s with world := w } ∧ Seen w w'

/-- What was found dead owns no living process. -/
theorem Secure.not_foundDead (h : Secure site lost s) {job : Job} {w' : World} {p : Proc}
    (hdead : FoundDead job s w') (hshown : Throughout (Shown lost) s.world w') (hmem : p ∈ w'.procs)
    (halive : p.exit = none) (hkept : p.job.id ∉ lost) (howns : Owns job p) : False := by
  obtain ⟨w, hprobe, hseen⟩ := hdead
  obtain ⟨w₁, hbefore, hworld⟩ := (looking_isAlive job).of_ok hprobe
  cases hworld
  obtain ⟨q, hq, hages⟩ := (Seen.aged hseen).stays.back_mem hmem
  have hqalive := hages.alive halive
  exact h.not_dead hprobe hq hqalive (howns.congr hages.track.symm hages.job.symm)
    (hshown w (Seen.tended hbefore).onward (Seen.tended hseen).onward q hq hqalive (hages.kept hkept))

/-- But for a kill, a move ends a running job only if it has found it dead. -/
theorem Move.found_dead (hmove : Move site gated label s s') (hkill : ∀ i, label ≠ .kill i) {j : ℕ}
    {job : Job} (hjob : s.jobs[j]? = some job) (hrunning : job.status = .running) :
    s'.jobs[j]? = some job ∨ FoundDead job s s'.world := by
  have hother : ∀ {i : ℕ} {f : Job → Job}, j ≠ i → (s.jobs.modify i f)[j]? = some job := by
    intro i f hne
    simpa [List.getElem?_modify_ne, hne.symm] using hjob
  have hne : ∀ {i : ℕ} {other : Job}, s.jobs[i]? = some other → other.status = .pending → j ≠ i := by
    rintro i other hother hpending rfl
    rw [hjob] at hother
    cases hother
    rw [hrunning] at hpending
    cases hpending
  cases hmove with
  | ask => exact Or.inl hjob
  | probe => exact Or.inl hjob
  | spare => exact Or.inl hjob
  | save => exact Or.inl hjob
  | @reap _ i _ _ _ _ _ _ _ _ hfound _ hdead hreap htime hcooled =>
      by_cases hi : j = i
      · subst hi
        rw [hjob] at hfound
        cases hfound
        obtain ⟨rc, w', hint, w'', -, hbefore, hafter, hsame, -⟩ := reap_eq_ok hreap
        cases hsame
        have hrest := Later.seen ((hafter.trans (.of_ok rfl htime)).trans hcooled.later)
        exact Or.inr ⟨_, hdead, hbefore.trans hrest⟩
      · exact Or.inl (hother hi)
  | @clear _ i _ _ _ _ _ hfound _ hdead hscope htime =>
      by_cases hi : j = i
      · subst hi
        rw [hjob] at hfound
        cases hfound
        obtain ⟨w', hafter, hworld⟩ := (quiet_aliveScope site job).of_ok hscope
        cases hworld
        have hrest : Later _ _ := .of_ok rfl htime
        exact Or.inr ⟨_, hdead, Later.seen (Later.trans hafter hrest)⟩
      · exact Or.inl (hother hi)
  | skip hfound hpending => exact Or.inl (hother (hne hfound hpending))
  | fail hchosen => exact Or.inl (hother (hne hchosen.found hchosen.pending))
  | launch hchosen hstarted =>
      obtain ⟨session, hlist⟩ := hstarted.launched
      simp only [hlist]
      exact Or.inl (hother (hne hchosen.found hchosen.pending))
  | kill => exact absurd rfl (hkill _)

/-- But for starts and kills, a move forgets at most the handle of a job it has found dead. -/
theorem Move.forgets (hmove : Move site gated label s s') (hlaunch : ∀ i, label ≠ .launch i)
    (hkill : ∀ i, label ≠ .kill i) : s'.procs = s.procs ∨
      ∃ job, s'.procs = forgotten job s.procs ∧ FoundDead job s s'.world := by
  cases hmove with
  | reap hjob hrunning hdead hreap htime hcooled =>
      obtain ⟨rc, w', hint, w'', -, hbefore, hafter, hsame, -⟩ := reap_eq_ok hreap
      cases hsame
      have hrest := Later.seen ((hafter.trans (.of_ok rfl htime)).trans hcooled.later)
      exact Or.inr ⟨_, rfl, _, hdead, hbefore.trans hrest⟩
  | launch => exact absurd rfl (hlaunch _)
  | kill => exact absurd rfl (hkill _)
  | _ => exact Or.inl rfl

/-- A move that starts nothing keeps every living process owned. -/
theorem Move.secure_of_stays (hmove : Move site gated label s s') (hlaunch : ∀ i, label ≠ .launch i)
    (hkill : ∀ i, label ≠ .kill i) (hshown : Throughout (Shown lost) s.world s'.world) (h : Secure site lost s) :
    Secure site lost s' := by
  have hstays : Stays s.world s'.world := hmove.stays hlaunch hkill
  have hwell : WellFormed s'.world := hmove.onward.wellFormed h.standing.well
  have hlookup : ∀ (n : ℕ) (proc : Popen), s'.procs.lookup (n : ℤ) = some proc →
      s.procs.lookup (n : ℤ) = some proc := by
    intro n proc hproc
    rcases hmove.forgets hlaunch hkill with hsame | ⟨job, hsame, -⟩
    · rwa [hsame] at hproc
    · rw [hsame] at hproc
      exact lookup_of_forgotten hproc
  refine ⟨h.standing.stays hstays hwell, ?_, (h.handles.stays hstays).of_lookup hlookup,
    fun n k p hp halive hchild htrack => ?_, fun p hp halive hkept => ?_, fun hrunner => ?_,
    hmove.behind h.behind⟩
  · rw [hmove.turn.progress.ids]
    exact h.ids
  · obtain ⟨p₀, hp₀, hages⟩ := hstays.back hp
    have hheld := h.held n k p₀ hp₀ (hages.alive halive) (hages.child.symm.trans hchild)
      (hages.track.symm.trans htrack)
    rcases hmove.forgets hlaunch hkill with hsame | ⟨job, hsame, w, hdead, hseen⟩
    · rw [hsame]
      exact hheld
    · rw [hsame]
      refine lookup_forgotten hheld fun digits htracked hparse => ?_
      -- the handle is that of the process, which would have ended
      obtain ⟨-, -, hended⟩ := isAlive_held_machine htracked hparse hheld hdead
      obtain ⟨q, rc, hq, hexit⟩ := hended rfl
      obtain ⟨q', hq', hages'⟩ := (Seen.aged hseen).stays.procs k q hq
      rw [hp] at hq'
      cases hq'
      rw [hages'.exit rc hexit] at halive
      cases halive
  · obtain ⟨p₀, hp₀, hages⟩ := hstays.back_mem hp
    obtain ⟨job, hjob, howns⟩ := h.owned p₀ hp₀ (hages.alive halive) (hages.kept hkept)
    obtain ⟨j, hj⟩ := List.mem_iff_getElem?.mp hjob
    have howns' : Owns job p := howns.congr hages.track hages.job
    rcases hmove.found_dead hkill hj howns.running with hstill | hdead
    · exact ⟨job, List.mem_of_getElem? hstill, howns'⟩
    · exact (h.not_foundDead hdead hshown hp halive hkept howns').elim
  · rw [hmove.onward.grows.programs]
    exact h.tmux hrunner

/-- What is about to be started is not running. -/
theorem Chosen.ne_of_running {i j : ℕ} {job other : Job} {placement : Placement} {w : World}
    (hchosen : Chosen site gated i job placement s w) (hother : s.jobs[j]? = some other)
    (hrunning : other.status = .running) : i ≠ j := by
  rintro rfl
  have hsame : other = job := Option.some.inj (hother.symm.trans hchosen.found)
  rw [hsame, hchosen.pending] at hrunning
  cases hrunning

/-- A start is of a job that has no living process, and onto CPUs of no living process. -/
theorem Secure.start_apart {i : ℕ} {job : Job} {placement : Placement} {w w₀ : World} (h : Secure site lost s)
    (hchosen : Chosen site gated i job placement s w) (hstays : Stays s.world w₀) {other : Job}
    (hother : other ∈ w₀.aliveJobs) (hkept : other.id ∉ lost) :
    job.id ≠ other.id ∧ Disjoint (blockOf (job.place placement)) (blockOf other) := by
  obtain ⟨q, hq, rfl⟩ := List.mem_map.mp hother
  obtain ⟨hq, halive⟩ := List.mem_filter.mp hq
  obtain ⟨p, hp, hages⟩ := hstays.back_mem hq
  obtain ⟨owner, howner, howns⟩ := h.owned p hp (hages.alive (by simpa using halive)) (hages.kept hkept)
  obtain ⟨j, hj⟩ := List.mem_iff_getElem?.mp howner
  have hne : i ≠ j := hchosen.ne_of_running hj howns.running
  rw [hages.job, ← howns.id, ← howns.block]
  exact ⟨id_ne_of_ne h.ids hchosen.found hj hne,
    (holds_of_placeable (job.place placement) hchosen.placed rfl rfl rfl).2 owner howner howns.running⟩

/-- The table after a start. -/
theorem Secure.standing_of_began {i : ℕ} {job : Job} {placement : Placement} {w w₀ w₁ : World}
    {p : Proc} (h : Secure site lost s) (hchosen : Chosen site gated i job placement s w)
    (hbegan : Began site i (job.place placement) (placing s i placement w) s' w₀ w₁ p)
    (hwell : WellFormed s'.world) : Standing site lost s'.world := by
  have hlater : Stays s.world w := (Later.aged hchosen.later).stays
  have hbefore : Stays s.world w₀ := hlater.trans hbegan.before
  refine ⟨hwell, fun launch hmem other hother hkept => ?_, fun q hq name htrack => ?_⟩
  · rw [hbegan.after.launches, hbegan.launches] at hmem
    rcases List.mem_cons.mp hmem with rfl | hold
    · exact h.start_apart hchosen hbefore hother hkept
    · rw [show (placing s i placement w).world.launches = s.world.launches from hlater.launches] at hold
      exact h.standing.apart launch hold other hother hkept
  · obtain ⟨k, hk⟩ := List.mem_iff_getElem?.mp hq
    rcases hbegan.back hk with ⟨q₀, hq₀, hages⟩ | ⟨-, hages⟩
    · obtain ⟨p₀, hp₀, hages₀⟩ := hbefore.back hq₀
      exact h.standing.sessions p₀ (List.mem_of_getElem? hp₀) name
        ((hages₀.trans hages).track.symm.trans htrack)
    · rcases hbegan.handles with ⟨-, hpid, -⟩ | ⟨hrunner, -, -⟩
      · rw [hages.track, hpid] at htrack
        cases htrack
      · exact hrunner

/-- A start keeps every living process owned: the new one by the job it was started for. -/
theorem Move.secure_of_launch {i : ℕ} (hmove : Move site gated (.launch i) s s') (h : Secure site lost s) :
    Secure site lost s' := by
  have hbehind := hmove.behind h.behind
  have hids : (s'.jobs.map Job.id).Nodup := by
    rw [hmove.turn.progress.ids]
    exact h.ids
  have hwell : WellFormed s'.world := hmove.onward.wellFormed h.standing.well
  have hprograms : s'.world.programs = s.world.programs := hmove.onward.grows.programs
  cases hmove with
  | @launch _ s₁ _ job placement argv w w₂ now hchosen hstarted htime =>
      obtain ⟨w₀, w₁, p, hbegan⟩ := hstarted.began
      have hlater : Stays s.world w := (Later.aged hchosen.later).stays
      have hbefore : Stays s.world w₀ := hlater.trans hbegan.before
      have hwell₀ : WellFormed w := (Later.onward hchosen.later).wellFormed h.standing.well
      have hafter : Stays s₁.world w₂ := (Later.aged (.of_ok rfl htime)).stays
      have hstanding := h.standing_of_began hchosen hbegan (hstarted.onward.wellFormed hwell₀)
      have hhandles : Handles s₁.procs s₁.world :=
        hbegan.keepsHandles hwell₀ (h.handles.stays hlater)
      have hheld : Held s₁.procs s₁.world := hbegan.keepsHeld hwell₀ (h.held.stays hlater)
      have hjobs : s₁.jobs.modify i (Job.begin now) =
          s.jobs.modify i fun j => Job.begin now (Job.track p.reference (Job.place placement j)) := by
        rw [hbegan.jobs, placing, List.modify_modify_eq, List.modify_modify_eq]
        rfl
      refine ⟨hstanding.stays hafter hwell, hids, hhandles.stays hafter, hheld.stays hafter,
        fun q hq halive hkept => ?_, fun hrunner => ?_, hbehind⟩
      · obtain ⟨q₁, hq₁, hages⟩ := hafter.back_mem hq
        obtain ⟨k, hk⟩ := List.mem_iff_getElem?.mp hq₁
        rw [hjobs]
        rcases hbegan.back hk with ⟨q₀, hq₀, hages'⟩ | ⟨-, hages'⟩
        · obtain ⟨p₀, hp₀, hages₀⟩ := hbefore.back hq₀
          have hall : Ages p₀ q := (hages₀.trans hages').trans hages
          obtain ⟨owner, howner, howns⟩ :=
            h.owned p₀ (List.mem_of_getElem? hp₀) (hall.alive halive) (hall.kept hkept)
          obtain ⟨j, hj⟩ := List.mem_iff_getElem?.mp howner
          refine ⟨owner, ?_, howns.congr hall.track hall.job⟩
          have hne : i ≠ j := hchosen.ne_of_running hj howns.running
          exact List.mem_of_getElem? ((getElem?_modify_of_ne hne).trans hj)
        · have hall : Ages p q := hages'.trans hages
          have howns : Owns (Job.begin now (Job.track p.reference (job.place placement))) p := by
            refine ⟨rfl, ?_, ?_, rfl⟩ <;> rw [hbegan.owner] <;> rfl
          refine ⟨_, List.mem_of_getElem? (i := i) ?_, howns.congr hall.track hall.job⟩
          rw [List.getElem?_modify_eq, hchosen.found]
          rfl
      · rw [hprograms]
        exact h.tmux hrunner

/-- A move of an orchestrator keeps every living process owned. -/
theorem Move.secure (hmove : Move site gated label s s') (hkill : ∀ i, label ≠ .kill i)
    (hshown : Throughout (Shown lost) s.world s'.world) (h : Secure site lost s) : Secure site lost s' := by
  by_cases hlaunch : ∃ i, label = .launch i
  · obtain ⟨i, rfl⟩ := hlaunch
    exact hmove.secure_of_launch h
  · exact hmove.secure_of_stays (fun i hi => hlaunch ⟨i, hi⟩) hkill hshown h

end Moves

/-! ## Deaths -/

section Deaths

variable {site : Site} {lost : Set String} {gated : Bool} {s s' : Sys World}

/-- A saved job stands where the job of its id stands in memory. -/
theorem Secure.saved_at (h : Secure site lost s) {a b : Job} {j : ℕ} (ha : a ∈ s.saved site)
    (hb : s.jobs[j]? = some b) (hid : a.id = b.id) : (s.saved site)[j]? = some a := by
  obtain ⟨i, hi⟩ := List.mem_iff_getElem?.mp ha
  obtain ⟨b', hb', hsame, -⟩ := h.behind.progress.each i a hi
  have hij : i = j := by
    by_contra hne
    exact id_ne_of_ne h.ids hb' hb hne (hsame.id.symm.trans hid)
  subst hij
  exact hi

/-- The saved job of a living process owns it, if it was running. -/
theorem Secure.saved_owns (h : Secure site lost s) {a : Job} {p : Proc} (hmem : p ∈ s.world.procs)
    (halive : p.exit = none) (hkept : p.job.id ∉ lost) (ha : a ∈ s.saved site) (hid : a.id = p.job.id)
    (hrunning : a.status = .running) : Owns a p := by
  obtain ⟨b, hb, howns⟩ := h.owned p hmem halive hkept
  obtain ⟨j, hj⟩ := List.mem_iff_getElem?.mp hb
  have hsaved : (s.saved site)[j]? = some a := h.saved_at ha hj (hid.trans howns.id.symm)
  have hsame : b = a := h.behind.running j a b hsaved hj hrunning howns.running
  exact hsame ▸ howns

/-- What is left when nothing was started since. -/
theorem Secure.resumable (h : Secure site lost s) (hstays : Stays s.world s'.world)
    (hwell : WellFormed s'.world) (hfile : s'.stateFile = s.stateFile) :
    Resumable site lost { s' with world := s'.world.orphan } := by
  have hsaved : Sys.saved site { s' with world := s'.world.orphan } = s.saved site := by
    rw [Sys.saved, Sys.saved, hfile]
  refine ⟨(h.standing.stays hstays hwell).orphan, ?_, fun p hp => ?_,
    fun p hp halive hkept a ha hid hrunning => ?_⟩
  · rw [hsaved, ← h.behind.progress.ids]
    exact h.ids
  · obtain ⟨q, -, rfl⟩ := mem_orphan hp
    rfl
  · obtain ⟨q, hq, rfl⟩ := mem_orphan hp
    obtain ⟨p₀, hp₀, hages⟩ := hstays.back_mem hq
    rw [hsaved] at ha
    have hid' : a.id = p₀.job.id := hid.trans (congrArg Job.id hages.job)
    exact (h.saved_owns hp₀ (hages.alive halive) (hages.kept hkept) ha hid' hrunning).congr hages.track
      hages.job

/-- What is left where a turn broke off. -/
theorem Wreck.resumable (hwreck : Wreck site gated s s') (h : Secure site lost s) :
    Resumable site lost { s' with world := s'.world.orphan } := by
  have hwell : WellFormed s'.world := hwreck.onward.wellFormed h.standing.well
  cases hwreck with
  | lost hfile _ hseen => exact h.resumable (Seen.aged hseen).stays hwell hfile
  | unstarted hchosen hunstarted hfile _ hlater =>
      have hbefore : Stays s.world _ := (Later.aged hchosen.later).stays
      exact h.resumable ((hbefore.trans hunstarted.stays).trans (Later.aged hlater).stays) hwell hfile
  | killed _ _ hfile _ htended => exact h.resumable htended.stays hwell hfile
  | @started s₁ i job placement argv w hchosen hstarted hfile _ hlater =>
      obtain ⟨w₀, w₁, p, hbegan⟩ := hstarted.began
      have hchosenLater : Stays s.world w := (Later.aged hchosen.later).stays
      have hbefore : Stays s.world w₀ := hchosenLater.trans hbegan.before
      have hafter : Stays s₁.world s'.world := (Later.aged hlater).stays
      have hwell₁ : WellFormed s₁.world :=
        hstarted.onward.wellFormed ((Later.onward hchosen.later).wellFormed h.standing.well)
      have hstanding := (h.standing_of_began hchosen hbegan hwell₁).stays hafter hwell
      have hsaved : Sys.saved site { s' with world := s'.world.orphan } = s.saved site := by
        rw [Sys.saved, Sys.saved, hfile]
      refine ⟨hstanding.orphan, ?_, fun q hq => ?_, fun q hq halive hkept a ha hid hrunning => ?_⟩
      · rw [hsaved, ← h.behind.progress.ids]
        exact h.ids
      · obtain ⟨r, -, rfl⟩ := mem_orphan hq
        rfl
      · obtain ⟨r, hr, rfl⟩ := mem_orphan hq
        rw [hsaved] at ha
        obtain ⟨q₁, hq₁, hages⟩ := hafter.back_mem hr
        obtain ⟨k, hk⟩ := List.mem_iff_getElem?.mp hq₁
        rcases hbegan.back hk with ⟨q₀, hq₀, hages'⟩ | ⟨-, hages'⟩
        · obtain ⟨p₀, hp₀, hages₀⟩ := hbefore.back hq₀
          have hall : Ages p₀ r := (hages₀.trans hages').trans hages
          have hid' : a.id = p₀.job.id := hid.trans (congrArg Job.id hall.job)
          exact (h.saved_owns (List.mem_of_getElem? hp₀) (hall.alive halive) (hall.kept hkept) ha hid'
            hrunning).congr hall.track hall.job
        · -- the process just started: the job was pending, and not saved as running
          have hjob : r.job = job.place placement :=
            (hages.job.trans hages'.job).trans hbegan.owner
          have hat := h.saved_at ha hchosen.found (hid.trans (show r.job.id = job.id by rw [hjob]; rfl))
          exact absurd hchosen.pending (h.behind.not_pending hat hchosen.found hrunning)

end Deaths

/-! ## What a run keeps -/

/-- The invariant of a run. -/
def Phase.Keeps (site : Site) (lost : Set String) : Phase → Sys World → Prop
  | .up, s => Secure site lost s
  | .down, s => Resumable site lost s

section Runs

variable {site : Site} {lost : Set String} {phase : Phase} {s s' : Sys World}

/-- The next orchestrator has found tmux, if it needs it. -/
theorem tmux_of_fromQueue (hload : fromQueue site s = .ok () s')
    (hrunner : site.config.runner = "tmux") : "tmux" ∈ s'.world.programs := by
  obtain ⟨⟨⟩, s₁, hmodify, hload⟩ := bind_eq_ok.mp hload
  cases hmodify
  rw [if_pos hrunner] at hload
  obtain ⟨found, s₂, hcall, hload⟩ := bind_eq_ok.mp hload
  obtain ⟨w, hanswer, rfl⟩ := call_eq_ok.mp hcall
  cases found with
  | false => cases hload
  | true =>
      cases hload
      have heffect := answer_ok hanswer
      rw [World.effect, EStateM.Result.ok.injEq] at heffect
      obtain ⟨hfound, rfl⟩ := heffect
      exact List.contains_iff_mem.mp hfound

/-- The next orchestrator owns what the state file calls running. -/
theorem Resumable.secure (h : Resumable site lost s) (hload : fromQueue site s = .ok () s')
    (hrecorded : Recorded site lost s) : Secure site lost s' := by
  have htmux := tmux_of_fromQueue hload
  obtain ⟨w, hlater, rfl⟩ := fromQueue_eq_ok hload
  have hstays : Stays s.world w := (Later.aged hlater).stays
  have hwell : WellFormed w := (Later.onward hlater).wellFormed h.standing.well
  refine ⟨h.standing.stays hstays hwell, h.ids, .nil w, fun n k p hp _ hchild _ => ?_,
    fun p hp halive hkept => ?_, htmux, .refl _⟩
  · obtain ⟨p₀, hp₀, hages⟩ := hstays.back hp
    rw [hages.child, h.orphans p₀ (List.mem_of_getElem? hp₀)] at hchild
    cases hchild
  · obtain ⟨p₀, hp₀, hages⟩ := hstays.back_mem hp
    have halive₀ := hages.alive halive
    have hkept₀ := hages.kept hkept
    obtain ⟨job, hjob, hid, hrunning⟩ := hrecorded p₀ hp₀ halive₀ hkept₀
    exact ⟨job, hjob, (h.owned p₀ hp₀ halive₀ hkept₀ job hjob hid hrunning).congr hages.track hages.job⟩

theorem Secure.path {kinds : Label → Bool} (hkinds : ∀ i, kinds (.kill i) = false)
    (hpath : ReflTransGen (Step site true kinds) s s') {w' : World} (hend : Onward s'.world w')
    (hshown : Throughout (Shown lost) s.world w') (h : Secure site lost s) : Secure site lost s' := by
  induction hpath using ReflTransGen.head_induction_on with
  | refl => exact h
  | head hstep hrest ih =>
      obtain ⟨label, hlabel, hmove⟩ := hstep
      have hafter : Onward _ w' := (onward_of_path hrest).trans hend
      refine ih (hshown.part hmove.onward (.refl _)) (hmove.secure ?_ (hshown.part (.refl _) hafter) h)
      rintro i rfl
      rw [hkinds i] at hlabel
      cases hlabel

theorem Secure.event (h : Secure site lost s) (event : Event) :
    Secure site lost { s with world := event.apply s.world } := by
  have hstays : Stays s.world (event.apply s.world) := (Event.aged ∅ s.world event).stays
  have hwell : WellFormed (event.apply s.world) := Event.wellFormed_foldl h.standing.well [event]
  refine ⟨h.standing.stays hstays hwell, h.ids, h.handles.stays hstays, h.held.stays hstays,
    fun p hp halive hkept => ?_, fun hrunner => ?_, h.behind⟩
  · obtain ⟨p₀, hp₀, hages⟩ := hstays.back_mem hp
    obtain ⟨job, hjob, howns⟩ := h.owned p₀ hp₀ (hages.alive halive) (hages.kept hkept)
    exact ⟨job, hjob, howns.congr hages.track hages.job⟩
  · have hprograms := (Event.aged ∅ s.world event).programs
    rw [hprograms]
    exact h.tmux hrunner

theorem Resumable.event (h : Resumable site lost s) (event : Event) :
    Resumable site lost { s with world := event.apply s.world } := by
  have hstays : Stays s.world (event.apply s.world) := (Event.aged ∅ s.world event).stays
  have hwell : WellFormed (event.apply s.world) := Event.wellFormed_foldl h.standing.well [event]
  refine ⟨h.standing.stays hstays hwell, h.ids, fun p hp => ?_,
    fun p hp halive hkept job hjob hid hrunning => ?_⟩
  · obtain ⟨p₀, hp₀, hages⟩ := hstays.back_mem hp
    rw [hages.child]
    exact h.orphans p₀ hp₀
  · obtain ⟨p₀, hp₀, hages⟩ := hstays.back_mem hp
    have hid' : job.id = p₀.job.id := hid.trans (congrArg Job.id hages.job)
    exact (h.owned p₀ hp₀ (hages.alive halive) (hages.kept hkept) job hjob hid' hrunning).congr
      hages.track hages.job

theorem Crashing.kept (hids : (site.queue.map Job.id).Nodup) (h : Crashing site lost phase s) :
    Phase.Keeps site lost phase s := by
  induction h with
  | @fresh w hprocs hlaunches =>
      have hnone : ∀ p, p ∉ w.procs := by simp [hprocs]
      refine ⟨⟨.of_empty hprocs, fun launch hmem => ?_, fun p hp => absurd hp (hnone p)⟩, hids,
        fun p hp => absurd hp (hnone p), fun p hp => absurd hp (hnone p)⟩
      have hlog : launch ∈ w.launches := hmem
      rw [hlaunches] at hlog
      cases hlog
  | @event phase s event _ ih =>
      cases phase with
      | up => exact Secure.event ih event
      | down => exact Resumable.event ih event
  | resume _ hload hrecorded ih => exact Resumable.secure ih hload hrecorded
  | startUp _ hrun hshown ih =>
      have hpath := ((startUp_obeys site).returns trivial hrun).1
      exact Secure.path (fun _ => rfl) hpath (.refl _) hshown ih
  | round _ hrun hshown ih =>
      have hpath := ((round_obeys site).returns trivial hrun).1
      exact Secure.path (fun _ => rfl) hpath (.refl _) hshown ih
  | stops _ ih => exact Secure.resumable ih (.refl _) (Secure.standing ih).well rfl
  | dies _ hrun hshown ih =>
      rcases hrun with hrun | hrun
      · obtain ⟨mid, hpath, hwreck⟩ := (startUp_obeys site).raises trivial hrun
        exact hwreck.resumable (Secure.path (fun _ => rfl) hpath hwreck.onward hshown ih)
      · obtain ⟨mid, hpath, hwreck⟩ := (round_obeys site).raises trivial hrun
        exact hwreck.resumable (Secure.path (fun _ => rfl) hpath hwreck.onward hshown ih)

theorem Crashing.standing (h : Crashing site lost phase s) (hids : (site.queue.map Job.id).Nodup) :
    Standing site lost s.world := by
  have hkept := h.kept hids
  cases phase with
  | up => exact Secure.standing hkept
  | down => exact Resumable.standing hkept

/-- Wherever the orchestrators of a run have died, no start is of a job or onto CPUs of a living
process, but for the processes of lost jobs: those that lived when an orchestrator took over and
were not saved as running, and those that cannot be recognised. -/
theorem crash_confined (site : Site) (hids : (site.queue.map Job.id).Nodup) (lost : Set String)
    (phase : Phase) (s : Sys World) (h : Crashing site lost phase s) :
    ∀ launch ∈ s.world.launches, ∀ other ∈ launch.alive, other.id ∉ lost →
      launch.job.id ≠ other.id ∧ Disjoint (blockOf launch.job) (blockOf other) :=
  (h.standing hids).apart

/-- In a run in which whatever lives when an orchestrator takes over is saved as running, and
whatever lives can be recognised, no job is started while an earlier process of it lives, and none
is given a CPU of a living process, wherever the orchestrators before it died. -/
theorem crash_safe (site : Site) (hids : (site.queue.map Job.id).Nodup) (phase : Phase) (s : Sys World)
    (h : Crashing site ∅ phase s) : ∀ launch ∈ s.world.launches, ∀ other ∈ launch.alive,
      launch.job.id ≠ other.id ∧ Disjoint (blockOf launch.job) (blockOf other) := by
  intro launch hmem other hother
  exact (h.standing hids).apart launch hmem other hother (Set.notMem_empty other.id)

end Runs

/-! ## A death that costs nothing, and one that does -/

/-- Every process has a session of the name it is asked for by. -/
def InSessions (w : World) : Prop :=
  ∀ q ∈ w.procs, q.track = .session (sessionName q.job.id)

instance (w : World) : Decidable (InSessions w) :=
  inferInstanceAs (Decidable (∀ q ∈ w.procs, q.track = .session (sessionName q.job.id)))

theorem InSessions.shown {lost : Set String} {w w' : World} (h : InSessions w') :
    Throughout (Shown lost) w w' := by
  intro v _ hv p hp _ _
  obtain ⟨k, hk⟩ := List.mem_iff_getElem?.mp hp
  obtain ⟨q, hq, hages⟩ := hv.grows.procs k p hk
  have htrack := h q (List.mem_of_getElem? hq)
  rw [hages.track, hages.job] at htrack
  rw [Recognisable, htrack]

instance (site : Site) (lost : Set String) [DecidablePred (· ∈ lost)] (s : Sys World) :
    Decidable (Recorded site lost s) :=
  inferInstanceAs (Decidable (∀ p ∈ s.world.procs, p.exit = none → p.job.id ∉ lost →
    ∃ job ∈ s.saved site, job.id = p.job.id ∧ job.status = .running))

/-- Three jobs that fill a node each, of which two run at a time, each in a session of its own. -/
def sessionsSite : Site :=
  smallSite
    [{ id := "a", command := "true", cores := 4 }, { id := "b", command := "true", cores := 4 },
      { id := "c", command := "true", cores := 4 }]
    { smallConfig with runner := "tmux" } reserved_smallConfig

/-- The orchestrator dies while two jobs run, one of them ends, and the next orchestrator gives
its CPUs to the third job. -/
theorem crash_safe_sessions : ∃ s : Sys World,
    s.world.launches.map (fun launch => (launch.job.id, launch.alive.map Job.id)) =
      [("c", ["a"]), ("b", ["a"]), ("a", [])] ∧
    ∀ launch ∈ s.world.launches, ∀ other ∈ launch.alive,
      launch.job.id ≠ other.id ∧ Disjoint (blockOf launch.job) (blockOf other) := by
  let afterwards (s : Sys World) : Sys World :=
    { s with world := (Event.exit 1 0).apply s.world.orphan }
  obtain ⟨⟨⟩, s₁, hload, hrest⟩ := of_returns
    (show returns (fromQueue sessionsSite (fresh sessionsSite
        { programs := ["tmux"], agenda := List.replicate 22 [] ++ [[Event.die]] })) (fun s₁ =>
      returns (round sessionsSite s₁) fun s₂ => decide (InSessions s₂.world) &&
      raises (round sessionsSite s₂) fun s₃ => decide (InSessions s₃.world) &&
      decide (Recorded sessionsSite ∅ (afterwards s₃)) &&
      returns (fromQueue sessionsSite (afterwards s₃)) fun s₄ =>
      returns (startUp sessionsSite s₄) fun s₅ => decide (InSessions s₅.world) &&
      returns (round sessionsSite s₅) fun s₆ => decide (InSessions s₆.world) &&
      s₆.world.launches.map (fun launch => (launch.job.id, launch.alive.map Job.id)) ==
        [("c", ["a"]), ("b", ["a"]), ("a", [])]) = true by decide +kernel)
  have hfirst : Recorded sessionsSite ∅ (fresh sessionsSite
      { programs := ["tmux"], agenda := List.replicate 22 [] ++ [[Event.die]] }) := by decide
  have hup₁ : Crashing sessionsSite ∅ .up s₁ := .resume (.fresh rfl rfl) hload hfirst
  obtain ⟨⟨⟩, s₂, hround, hrest⟩ := of_returns hrest
  rw [Bool.and_eq_true, decide_eq_true_eq] at hrest
  have hup₂ : Crashing sessionsSite ∅ .up s₂ := .round hup₁ hround hrest.1.shown
  obtain ⟨e, s₃, hdeath, hrest⟩ := of_raises hrest.2
  simp only [Bool.and_eq_true, decide_eq_true_eq] at hrest
  obtain ⟨⟨hshown, hrecorded⟩, hrest⟩ := hrest
  have hdown : Crashing sessionsSite ∅ .down (afterwards s₃) :=
    .event (.exit 1 0) (.dies hup₂ (Or.inr hdeath) hshown.shown)
  obtain ⟨⟨⟩, s₄, hload', hrest⟩ := of_returns hrest
  obtain ⟨⟨⟩, s₅, hstart, hrest⟩ := of_returns hrest
  rw [Bool.and_eq_true, decide_eq_true_eq] at hrest
  have hup₅ : Crashing sessionsSite ∅ .up s₅ :=
    .startUp (.resume hdown hload' hrecorded) hstart hrest.1.shown
  obtain ⟨⟨⟩, s₆, hround', hrest⟩ := of_returns hrest.2
  simp only [Bool.and_eq_true, decide_eq_true_eq, beq_iff_eq] at hrest
  have hup₆ : Crashing sessionsSite ∅ .up s₆ := .round hup₅ hround' hrest.1.shown
  exact ⟨s₆, hrest.2, crash_safe sessionsSite (by decide) .up s₆ hup₆⟩

/-- The same with a job that cannot be started before another is done, and one that comes last. -/
def lostSite : Site :=
  smallSite
    [{ id := "a", command := "true", cores := 4 }, { id := "d", command := "true" },
      { id := "b", command := "true", cores := 4, dependsOn := ["d"] },
      { id := "c", command := "true", cores := 4, priority := 200 }]
    { smallConfig with runner := "tmux" } reserved_smallConfig

/-- The orchestrator dies after it has started the third job, before the save.  The next one puts
the last job onto the CPUs of this lost one, but not onto those of the first. -/
theorem crash_confined_lost : ∃ s : Sys World,
    s.world.launches.map (fun launch => (launch.job.id, launch.alive.map Job.id)) =
      [("c", ["a", "b"]), ("b", ["a"]), ("d", ["a"]), ("a", [])] ∧
    ∀ launch ∈ s.world.launches, ∀ other ∈ launch.alive, other.id ∉ ({"b"} : Set String) →
      launch.job.id ≠ other.id ∧ Disjoint (blockOf launch.job) (blockOf other) := by
  let first : Sys World :=
    fresh lostSite { programs := ["tmux"], agenda := List.replicate 34 [] ++ [[Event.die]] }
  let exited (s : Sys World) : Sys World := { s with world := (Event.exit 1 0).apply s.world }
  let orphaned (s : Sys World) : Sys World := { s with world := s.world.orphan }
  obtain ⟨⟨⟩, s₁, hload, hrest⟩ := of_returns
    (show returns (fromQueue lostSite first) (fun s₁ =>
      returns (round lostSite s₁) fun s₂ => decide (InSessions s₂.world) &&
      raises (round lostSite (exited s₂)) fun s₃ => decide (InSessions s₃.world) &&
      decide (Recorded lostSite {"b"} (orphaned s₃)) &&
      returns (fromQueue lostSite (orphaned s₃)) fun s₄ =>
      returns (startUp lostSite s₄) fun s₅ => decide (InSessions s₅.world) &&
      returns (round lostSite s₅) fun s₆ => decide (InSessions s₆.world) &&
      s₆.world.launches.map (fun launch => (launch.job.id, launch.alive.map Job.id)) ==
        [("c", ["a", "b"]), ("b", ["a"]), ("d", ["a"]), ("a", [])]) = true by decide +kernel)
  have hfirst : Recorded lostSite {"b"} first := by decide
  have hup₁ : Crashing lostSite {"b"} .up s₁ := .resume (.fresh rfl rfl) hload hfirst
  obtain ⟨⟨⟩, s₂, hround, hrest⟩ := of_returns hrest
  rw [Bool.and_eq_true, decide_eq_true_eq] at hrest
  have hup₂ : Crashing lostSite {"b"} .up (exited s₂) :=
    .event (.exit 1 0) (.round hup₁ hround hrest.1.shown)
  obtain ⟨e, s₃, hdeath, hrest⟩ := of_raises hrest.2
  simp only [Bool.and_eq_true, decide_eq_true_eq] at hrest
  obtain ⟨⟨hshown, hrecorded⟩, hrest⟩ := hrest
  have hdown : Crashing lostSite {"b"} .down (orphaned s₃) := .dies hup₂ (Or.inr hdeath) hshown.shown
  obtain ⟨⟨⟩, s₄, hload', hrest⟩ := of_returns hrest
  obtain ⟨⟨⟩, s₅, hstart, hrest⟩ := of_returns hrest
  rw [Bool.and_eq_true, decide_eq_true_eq] at hrest
  have hup₅ : Crashing lostSite {"b"} .up s₅ :=
    .startUp (.resume hdown hload' hrecorded) hstart hrest.1.shown
  obtain ⟨⟨⟩, s₆, hround', hrest⟩ := of_returns hrest.2
  simp only [Bool.and_eq_true, decide_eq_true_eq, beq_iff_eq] at hrest
  have hup₆ : Crashing lostSite {"b"} .up s₆ := .round hup₅ hround' hrest.1.shown
  exact ⟨s₆, hrest.2, crash_confined lostSite (by decide) {"b"} .up s₆ hup₆⟩

/-- Two jobs, of which the first has been started and not saved when the orchestrator dies: the
next one starts it again, beside the living process and on its CPUs. -/
theorem crash_restarts :
    ¬ ∀ (site : Site) (phase : Phase) (s : Sys World), (site.queue.map Job.id).Nodup →
      Crashing site Set.univ phase s → ∀ launch ∈ s.world.launches, ∀ other ∈ launch.alive,
        launch.job.id ≠ other.id ∧ Disjoint (blockOf launch.job) (blockOf other) := by
  intro h
  have hrecorded : ∀ s, Recorded (smallSite twoJobs) Set.univ s :=
    fun s p _ _ hkept => absurd (Set.mem_univ p.job.id) hkept
  have hshown : ∀ w w' : World, Throughout (Shown Set.univ) w w' :=
    fun w w' v _ _ p _ _ hkept => absurd (Set.mem_univ p.job.id) hkept
  obtain ⟨⟨⟩, s₁, hload, hrest⟩ := of_returns
    (show returns (fromQueue (smallSite twoJobs) (fresh (smallSite twoJobs)
        { agenda := List.replicate 8 [] ++ [[Event.die]] })) (fun s₁ =>
      returns (startUp (smallSite twoJobs) s₁) fun s₂ =>
      raises (round (smallSite twoJobs) s₂) fun s₃ =>
      returns (fromQueue (smallSite twoJobs) { s₃ with world := s₃.world.orphan }) fun s₄ =>
      returns (startUp (smallSite twoJobs) s₄) fun s₅ =>
      returns (round (smallSite twoJobs) s₅) fun s₆ =>
      s₆.world.launches.any fun launch => launch.alive.any fun other =>
        launch.job.id == other.id) = true by decide +kernel)
  obtain ⟨⟨⟩, s₂, hstart, hrest⟩ := of_returns hrest
  obtain ⟨e, s₃, hdeath, hrest⟩ := of_raises hrest
  obtain ⟨⟨⟩, s₄, hload', hrest⟩ := of_returns hrest
  obtain ⟨⟨⟩, s₅, hstart', hrest⟩ := of_returns hrest
  obtain ⟨⟨⟩, s₆, hround, hagain⟩ := of_returns hrest
  have hup₂ : Crashing (smallSite twoJobs) Set.univ .up s₂ :=
    .startUp (.resume (.fresh rfl rfl) hload (hrecorded _)) hstart (hshown _ _)
  have hdown := hup₂.dies (Or.inr hdeath) (hshown _ _)
  have hup₆ := ((hdown.resume hload' (hrecorded _)).startUp hstart' (hshown _ _)).round hround (hshown _ _)
  obtain ⟨launch, hlaunch, hagain⟩ := List.any_eq_true.mp hagain
  obtain ⟨other, hother, hsame⟩ := List.any_eq_true.mp hagain
  exact (h (smallSite twoJobs) .up s₆ (by decide) hup₆ launch hlaunch other hother).1 (beq_iff_eq.mp hsame)

end Nodepilot
