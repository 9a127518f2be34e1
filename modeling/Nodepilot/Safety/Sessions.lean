import Nodepilot.Machine.Probes
import Nodepilot.Machine.Trial

/-!
# Sessions of different jobs

With `tmux` a job is addressed by a name made from its id, in three commands.  A
name that is not that of a session may still mean one: the only session whose name
begins with it.  And a name with `:` or `.` in it means no session at all, since no
session is called so.

So the sessions of a set of jobs are kept apart, whatever the runner is asked and
whenever they end, if and only if no id has such a character and none is the
beginning of another (`sessions_apart`).
-/

namespace Nodepilot

open Obeys Relation

/-! ## Names -/

/-- Ids that `tmux` tells apart. -/
def Separable (ids : List String) : Prop :=
  (∀ id ∈ ids, '.' ∉ id.toList ∧ ':' ∉ id.toList) ∧
    ∀ a ∈ ids, ∀ b ∈ ids, a.toList <+: b.toList → a = b

instance (ids : List String) : Decidable (Separable ids) := by
  unfold Separable
  infer_instance

theorem sessionName_toList (id : String) :
    (sessionName id).toList = "nodepilot_".toList ++ id.toList :=
  String.toList_append

theorem sessionName_injective {a b : String} (h : sessionName a = sessionName b) : a = b := by
  have hlists := congrArg String.toList h
  rw [sessionName_toList, sessionName_toList, List.append_cancel_left_eq] at hlists
  exact String.toList_injective hlists

theorem sessionName_prefix {a b : String} :
    (sessionName a).toList.isPrefixOf (sessionName b).toList = true ↔ a.toList <+: b.toList := by
  rw [List.isPrefixOf_iff_prefix, sessionName_toList, sessionName_toList,
    List.prefix_append_right_inj]

theorem map_special_eq_iff (chars : List Char) :
    (chars.map fun c => if c = ':' ∨ c = '.' then '_' else c) = chars ↔
      '.' ∉ chars ∧ ':' ∉ chars := by
  induction chars with
  | nil => simp
  | cons c rest ih =>
      rw [List.map_cons, List.cons.injEq, ih]
      by_cases hc : c = ':' ∨ c = '.'
      · rw [if_pos hc]
        rcases hc with rfl | rfl <;> simp
      · rw [if_neg hc]
        rw [not_or] at hc
        simp [Ne.symm hc.1, Ne.symm hc.2]

/-- A session is called as it was to be called if no character of the name is special. -/
theorem sessionText_eq_iff {name : String} :
    World.sessionText name = name ↔ '.' ∉ name.toList ∧ ':' ∉ name.toList := by
  rw [← map_special_eq_iff]
  constructor
  · intro h
    have htext := congrArg String.toList h
    rwa [World.sessionText, String.toList_ofList] at htext
  · intro h
    rw [World.sessionText, h, String.ofList_toList]

theorem sessionText_sessionName {id : String} :
    World.sessionText (sessionName id) = sessionName id ↔ '.' ∉ id.toList ∧ ':' ∉ id.toList := by
  rw [sessionText_eq_iff, sessionName_toList]
  have hdot : '.' ∉ "nodepilot_".toList := by decide
  have hcolon : ':' ∉ "nodepilot_".toList := by decide
  simp only [List.mem_append, hdot, hcolon, false_or]

/-! ## The table -/

/-- Every process of the table is the session of its job, and ended by nobody else. -/
def Named (ids : List String) (w : World) : Prop :=
  ∀ p ∈ w.procs, p.job.id ∈ ids ∧ p.track = .session (sessionName p.job.id) ∧
    ∀ target, p.removedBy = some target → target = sessionName p.job.id

namespace Named

variable {ids : List String} {w w' : World}

theorem aged {waited : Set ℕ} (h : Named ids w) (haged : Aged waited w w') : Named ids w' := by
  intro q hq
  obtain ⟨k, hk⟩ := List.mem_iff_getElem?.mp hq
  obtain ⟨p, hp, hages⟩ := haged.back hk
  rw [hages.job, hages.track, hages.removedBy]
  exact h p (List.mem_of_getElem? hp)

/-- The name of a session means that session or none. -/
theorem target_eq (h : Named ids w) (hids : Separable ids) {id session : String} (hid : id ∈ ids)
    (htarget : w.target (sessionName id) = some session) : session = sessionName id := by
  unfold World.target at htarget
  split at htarget
  · cases htarget
    rfl
  · rename_i hmissing
    split at htarget
    · rename_i hfilter
      cases htarget
      have hfound : session ∈ w.sessions.filter fun session =>
          (sessionName id).toList.isPrefixOf session.toList := by
        rw [hfilter]
        exact List.mem_singleton_self _
      obtain ⟨hsession, hbegins⟩ := List.mem_filter.mp hfound
      obtain ⟨p, hp, htrack, halive⟩ := World.mem_sessions.mp hsession
      obtain ⟨hmem, hname, -⟩ := h p hp
      rw [htrack, Track.session.injEq] at hname
      -- the session found is of a job whose id begins with this one
      rw [hname, sessionName_prefix] at hbegins
      have hsame : id = p.job.id := hids.2 id hid p.job.id hmem hbegins
      rw [hname, hsame]
    · cases htarget

theorem target_isSome (h : Named ids w) (hids : Separable ids) {id : String} (hid : id ∈ ids) :
    (w.target (sessionName id)).isSome = true ↔ ∃ p ∈ w.procs, p.job.id = id ∧ p.exit = none := by
  have hsession : sessionName id ∈ w.sessions ↔ ∃ p ∈ w.procs, p.job.id = id ∧ p.exit = none := by
    rw [World.mem_sessions]
    constructor
    · rintro ⟨p, hp, htrack, halive⟩
      obtain ⟨-, hname, -⟩ := h p hp
      rw [htrack, Track.session.injEq] at hname
      exact ⟨p, hp, (sessionName_injective hname).symm, halive⟩
    · rintro ⟨p, hp, rfl, halive⟩
      exact ⟨p, hp, (h p hp).2.1, halive⟩
  rw [← hsession]
  constructor
  · intro hsome
    obtain ⟨session, htarget⟩ := Option.isSome_iff_exists.mp hsome
    have hsame := h.target_eq hids hid htarget
    subst hsame
    by_contra hmissing
    rw [World.target, if_neg hmissing] at htarget
    split at htarget
    · rename_i found hfilter
      cases htarget
      have hfound : sessionName id ∈ w.sessions.filter fun session =>
          (sessionName id).toList.isPrefixOf session.toList := by
        rw [hfilter]
        exact List.mem_singleton_self _
      exact hmissing (List.mem_filter.mp hfound).1
    · cases htarget
  · intro hmem
    rw [World.target, if_pos hmem]
    rfl

/-- A `kill-session` for a job ends its session alone. -/
theorem kill (h : Named ids w) (hids : Separable ids) {id : String} (hid : id ∈ ids) {rc : ℤ}
    (hkill : Host.answer (.tmuxKillSession (sessionName id)) w = .ok rc w') : Named ids w' := by
  have hadvance : Named ids w.advance := h.aged (w.advance_aged ∅)
  obtain ⟨-, ⟨-, rfl⟩ | ⟨session, htarget, hprocs⟩⟩ := tmuxKillSession_machine hkill
  · exact hadvance
  have hsame := hadvance.target_eq hids hid htarget
  subst hsame
  intro q hq
  rw [hprocs] at hq
  obtain ⟨p, hp, rfl⟩ := List.mem_map.mp hq
  obtain ⟨hmem, hname, hremoved⟩ := hadvance p hp
  unfold World.endSession
  split
  · rename_i hended
    refine ⟨hmem, hname, fun target htarget => ?_⟩
    cases htarget
    rw [hname, Track.session.injEq] at hended
    exact hended.1.symm
  · exact ⟨hmem, hname, hremoved⟩

theorem newSession (h : Named ids w) (hids : Separable ids) {job : Job} (hid : job.id ∈ ids)
    {line : String} {env : List (String × String)}
    (hnew : Host.answer (.tmuxNewSession job (sessionName job.id) line env) w = .ok () w') :
    Named ids w' := by
  have hadvance : Named ids w.advance := h.aged (w.advance_aged ∅)
  obtain ⟨hprocs, -⟩ := tmuxNewSession_machine hnew
  intro p hp
  rw [hprocs] at hp
  rcases List.mem_append.mp hp with hp | hp
  · exact hadvance p hp
  · rw [List.mem_singleton.mp hp]
    refine ⟨hid, ?_, nofun⟩
    exact congrArg Track.session (sessionText_sessionName.mpr (hids.1 job.id hid))

end Named

/-! ## What a runner is asked -/

/-- A call of the runner, about the job at an index. -/
inductive RunnerCall
  | start (i : ℕ) (argv : List String)
  | kill (i : ℕ)
  | isAlive (i : ℕ)

namespace RunnerCall

/-- The job the call is about. -/
def index : RunnerCall → ℕ
  | start i _ | kill i | isAlive i => i

/-- The program the call runs on its job. -/
def program (site : Site) (job : Job) : RunnerCall → M World Unit
  | start i argv => Nodepilot.start site i job argv
  | kill _ => killJob job
  | isAlive _ => do let _ ← Nodepilot.isAlive job

end RunnerCall

/-- What happens to a runner: its host moves, or it is asked something, and answers or
raises. -/
inductive Serves (site : Site) : Sys World → Sys World → Prop
  | world {s : Sys World} (events : List Event) :
      Serves site s { s with world := events.foldl Event.apply s.world }
  | returns {s s' : Sys World} {job : Job} (c : RunnerCall) (hjob : s.jobs[c.index]? = some job)
      (h : c.program site job s = .ok () s') : Serves site s s'
  | raises {s s' : Sys World} {job : Job} {e : Exc} (c : RunnerCall)
      (hjob : s.jobs[c.index]? = some job) (h : c.program site job s = .error e s') :
      Serves site s s'

/-- The runner has ended no session on behalf of another job, and says rightly of every job
whether its session is there. -/
structure KeepsApart (s : Sys World) : Prop where
  removed : ∀ p ∈ s.world.procs, ∀ target, p.removedBy = some target →
    target = sessionName p.job.id
  alive : ∀ job ∈ s.jobs, ∀ (alive : Bool) (s' : Sys World), isAlive job s = .ok alive s' →
    (alive = true ↔ ∃ p ∈ s'.world.procs, p.job.id = job.id ∧ p.exit = none)

/-- The jobs and their sessions. -/
structure Apart (ids : List String) (s : Sys World) : Prop where
  named : Named ids s.world
  tmux : "tmux" ∈ s.world.programs
  jobs : s.jobs.map Job.id = ids
  session : ∀ job ∈ s.jobs, job.session = "" ∨ job.session = tmuxSession (sessionName job.id)
  started : ∀ p ∈ s.world.procs, ∃ job ∈ s.jobs, job.id = p.job.id ∧ job.session ≠ ""

namespace Apart

variable {ids : List String} {s s' : Sys World}

theorem mem_ids (h : Apart ids s) {job : Job} (hmem : job ∈ s.jobs) : job.id ∈ ids := by
  rw [← h.jobs]
  exact List.mem_map_of_mem hmem

/-- The jobs of a world whose table holds the same sessions. -/
theorem of_world (h : Apart ids s) {w : World} (hnamed : Named ids w)
    (hprograms : w.programs = s.world.programs)
    (hback : ∀ q ∈ w.procs, ∃ p ∈ s.world.procs, q.job = p.job) :
    Apart ids { s with world := w } := by
  refine ⟨hnamed, hprograms ▸ h.tmux, h.jobs, h.session, fun q hq => ?_⟩
  obtain ⟨p, hp, hjob⟩ := hback q hq
  rw [hjob]
  exact h.started p hp

theorem of_aged (h : Apart ids s) {waited : Set ℕ} {w : World}
    (haged : Aged waited s.world w) : Apart ids { s with world := w } := by
  refine h.of_world (h.named.aged haged) haged.programs fun q hq => ?_
  obtain ⟨k, hk⟩ := List.mem_iff_getElem?.mp hq
  obtain ⟨p, hp, hages⟩ := haged.back hk
  exact ⟨p, List.mem_of_getElem? hp, hages.job⟩

theorem of_kill (h : Apart ids s) (hids : Separable ids) {id : String}
    (hid : id ∈ ids) {rc : ℤ} {w : World}
    (hkill : Host.answer (.tmuxKillSession (sessionName id)) s.world = .ok rc w) :
    Apart ids { s with world := w } := by
  have hadvance : Apart ids { s with world := s.world.advance } := h.of_aged (s.world.advance_aged ∅)
  have hgrows : Grows s.world w := (Onward.of_ok hkill).grows
  refine h.of_world (h.named.kill hids hid hkill) hgrows.programs fun q hq => ?_
  obtain ⟨-, ⟨-, rfl⟩ | ⟨session, -, hprocs⟩⟩ := tmuxKillSession_machine hkill
  · obtain ⟨k, hk⟩ := List.mem_iff_getElem?.mp hq
    obtain ⟨p, hp, hages⟩ := (s.world.advance_aged ∅).back hk
    exact ⟨p, List.mem_of_getElem? hp, hages.job⟩
  · rw [hprocs] at hq
    obtain ⟨q', hq', rfl⟩ := List.mem_map.mp hq
    obtain ⟨k, hk⟩ := List.mem_iff_getElem?.mp hq'
    obtain ⟨p, hp, hages⟩ := (s.world.advance_aged ∅).back hk
    refine ⟨p, List.mem_of_getElem? hp, ?_⟩
    exact (World.ages_endSession session (sessionName id) q').job.trans hages.job

theorem of_new (h : Apart ids s) (hids : Separable ids) {i : ℕ} {job : Job}
    (hjob : s.jobs[i]? = some job) {line : String} {env : List (String × String)}
    {starts : List ℕ} {w : World}
    (hnew : Host.answer (.tmuxNewSession job (sessionName job.id) line env) s.world = .ok () w) :
    Apart ids { s with
      jobs := s.jobs.modify i (Job.track (tmuxSession (sessionName job.id)))
      starts := starts
      world := w } := by
  have hmem : job ∈ s.jobs := List.mem_of_getElem? hjob
  have hgrows : Grows s.world w := (Onward.of_ok hnew).grows
  obtain ⟨hprocs, -⟩ := tmuxNewSession_machine hnew
  have hnamed : ∀ (k : ℕ) (other : Job), s.jobs[k]? = some other → other.session ≠ "" ∨ k = i →
      ∃ other' ∈ s.jobs.modify i (Job.track (tmuxSession (sessionName job.id))),
        other'.id = other.id ∧ other'.session ≠ "" := by
    intro k other hother hsession
    by_cases hk : i = k
    · subst hk
      refine ⟨Job.track (tmuxSession (sessionName job.id)) other, ?_, rfl, tmuxSession_ne_empty _⟩
      exact List.mem_of_getElem? (by rw [List.getElem?_modify_eq, hother]; rfl)
    · refine ⟨other, List.mem_of_getElem? ((getElem?_modify_of_ne hk).trans hother), rfl, ?_⟩
      exact hsession.resolve_right (Ne.symm hk)
  refine ⟨h.named.newSession hids (h.mem_ids hmem) hnew, hgrows.programs ▸ h.tmux, ?_, ?_, ?_⟩
  · have hids' : (s.jobs.modify i (Job.track (tmuxSession (sessionName job.id)))).map Job.id =
        s.jobs.map Job.id := map_modify_of_eq fun _ => rfl
    exact hids'.trans h.jobs
  · intro job' hjob'
    rcases mem_modify hjob' with hold | ⟨a, ha, rfl⟩
    · exact h.session job' hold
    · rw [hjob] at ha
      cases ha
      exact .inr rfl
  · intro q hq
    rw [hprocs] at hq
    rcases List.mem_append.mp hq with hq | hq
    · obtain ⟨n, hn⟩ := List.mem_iff_getElem?.mp hq
      obtain ⟨p, hp, hages⟩ := (s.world.advance_aged ∅).back hn
      obtain ⟨other, hother, hid, hsession⟩ := h.started p (List.mem_of_getElem? hp)
      obtain ⟨k, hk⟩ := List.mem_iff_getElem?.mp hother
      obtain ⟨other', hmem', hid', hsession'⟩ := hnamed k other hk (.inl hsession)
      refine ⟨other', hmem', ?_, hsession'⟩
      rw [hid', hid, hages.job]
    · rw [List.mem_singleton.mp hq]
      exact hnamed i job hjob (.inr rfl)

/-- A start of a job, if it comes back. -/
theorem of_started (h : Apart ids s) (hids : Separable ids) {site : Site}
    (hrunner : site.config.runner = "tmux") {i : ℕ} {job : Job} {argv : List String}
    (hjob : s.jobs[i]? = some job) (hstarted : Started site i job argv s s') : Apart ids s' := by
  cases hstarted with
  | subprocess hsub => exact absurd hrunner hsub
  | @tmux line rc w₁ w₂ w₃ _ hbefore hkill hnew =>
      have hid : job.id ∈ ids := h.mem_ids (List.mem_of_getElem? hjob)
      have hready : Apart ids { s with world := w₁ } := h.of_aged (Later.aged hbefore)
      have hkilled : Apart ids { s with world := w₂ } := hready.of_kill hids hid hkill
      exact hkilled.of_new hids hjob hnew

/-- A start of a job, if it raises. -/
theorem of_unstarted (h : Apart ids s) (hids : Separable ids) {site : Site}
    (hrunner : site.config.runner = "tmux") {job : Job} {argv : List String} {e : Exc} {w : World}
    (hmem : job ∈ s.jobs) (hunstarted : Unstarted site job argv s.world e w) :
    Apart ids { s with world := w } := by
  have hid : job.id ∈ ids := h.mem_ids hmem
  cases hunstarted with
  | getcwd hbefore => exact h.of_aged (Later.aged hbefore)
  | popen hsub => exact absurd hrunner hsub
  | killSession _ hbefore hkill =>
      have hready := h.of_aged (Later.aged hbefore)
      rw [answer_error hkill]
      exact hready.of_aged (World.advance_aged ∅ _)
  | newSession _ hbefore hkill hnew =>
      have hready := h.of_aged (Later.aged hbefore)
      have hkilled := hready.of_kill hids hid hkill
      rw [answer_error hnew]
      exact hkilled.of_aged (World.advance_aged ∅ _)

/-- Whatever the runner is asked keeps the sessions apart. -/
theorem serves (h : Apart ids s) (hids : Separable ids) {site : Site}
    (hrunner : site.config.runner = "tmux") (hserves : Serves site s s') : Apart ids s' := by
  -- killing a job ends the session of its name, or does nothing if it has none
  have hkill : ∀ {job : Job} {s' : Sys World}, job ∈ s.jobs →
      ((∃ e, killJob job s = .error e s') ∨ killJob job s = .ok () s') → Apart ids s' := by
    intro job s' hmem hkill
    rcases h.session job hmem with hnone | hsession
    · rw [killJob, hnone, tracked_empty] at hkill
      rcases hkill with ⟨e, hkill⟩ | hkill <;> cases hkill
      exact h
    · rw [killJob, hsession, tracked_tmuxSession] at hkill
      rcases hkill with ⟨e, hkill⟩ | hkill
      · rcases bind_eq_error.mp hkill with hkill | ⟨rc, s₁, -, hkill⟩
        · obtain ⟨w, hanswer, rfl⟩ := call_eq_error.mp hkill
          rw [answer_error hanswer]
          exact h.of_aged (World.advance_aged ∅ _)
        · cases hkill
      · obtain ⟨rc, s₁, hcall, hpure⟩ := bind_eq_ok.mp hkill
        obtain ⟨w, hanswer, rfl⟩ := call_eq_ok.mp hcall
        cases hpure
        exact h.of_kill hids (h.mem_ids hmem) hanswer
  cases hserves with
  | world events => exact h.of_aged (Event.aged_foldl ∅ _ events)
  | @returns _ job c hjob hreturn =>
      cases c with
      | start i argv => exact h.of_started hids hrunner hjob (start_eq_ok hreturn)
      | kill i => exact hkill (List.mem_of_getElem? hjob) (.inr hreturn)
      | isAlive i =>
          obtain ⟨alive, s₁, halive, hpure⟩ := bind_eq_ok.mp hreturn
          cases hpure
          obtain ⟨w, hseen, rfl⟩ := (looking_isAlive job).of_ok halive
          exact h.of_aged (Seen.aged hseen)
  | @raises _ job e c hjob hraise =>
      cases c with
      | start i argv =>
          rcases start_eq_error hraise with ⟨w, hunstarted, rfl⟩ | ⟨-, hstarted⟩
          · exact h.of_unstarted hids hrunner (List.mem_of_getElem? hjob) hunstarted
          · exact h.of_started hids hrunner hjob hstarted
      | kill i => exact hkill (List.mem_of_getElem? hjob) (.inl ⟨e, hraise⟩)
      | isAlive i =>
          rcases bind_eq_error.mp hraise with hraise | ⟨alive, s₁, -, hpure⟩
          · obtain ⟨w, hseen, rfl⟩ := (looking_isAlive job).of_error hraise
            exact h.of_aged (Seen.aged hseen)
          · cases hpure

/-- Sessions that are apart are told apart. -/
theorem keepsApart (h : Apart ids s) (hids : Separable ids) (hnodup : ids.Nodup) : KeepsApart s := by
  refine ⟨fun p hp => (h.named p hp).2.2, fun job hmem alive s' halive => ?_⟩
  obtain ⟨w, hseen, hworld⟩ := (looking_isAlive job).of_ok halive
  have hafter : Apart ids s' := hworld ▸ h.of_aged (Seen.aged hseen)
  have hsame : s'.jobs = s.jobs := by rw [hworld]
  rcases h.session job hmem with hnone | hsession
  · -- a job that was never started has no session
    rw [isAlive, hnone, tracked_empty] at halive
    cases halive
    refine ⟨fun hfalse => (by cases hfalse), ?_⟩
    rintro ⟨p, hp, hid, -⟩
    obtain ⟨other, hother, hid', hsession⟩ := h.started p hp
    obtain ⟨i, hi⟩ := List.mem_iff_getElem?.mp hmem
    obtain ⟨k, hk⟩ := List.mem_iff_getElem?.mp hother
    have hik : i = k := by
      by_contra hne
      exact id_ne_of_ne (by rw [h.jobs]; exact hnodup) hi hk hne (hid.symm.trans hid'.symm)
    subst hik
    rw [hi] at hk
    cases hk
    exact absurd hnone hsession
  · rw [tmuxAlive_machine h.tmux (isAlive_tmux hsession halive)]
    exact hafter.named.target_isSome hids (h.mem_ids hmem)

end Apart

/-! ## Sessions that are not told apart -/

/-- A host with `tmux`, on which nothing happens. -/
def hostWorld : World :=
  { programs := ["tmux"] }

/-- The runner after the first start. -/
def afterStart (site : Site) (i : ℕ) (job : Job) : Sys World :=
  { fresh site (hostWorld.spawn (.session (World.sessionText (sessionName job.id))) job) with
    jobs := site.queue.modify i (Job.track (tmuxSession (sessionName job.id)))
    starts := [i] }

theorem workdirOf_still (job : Job) (s : Sys World) (hstill : s.world.agenda = []) :
    ∃ workdir, workdirOf job s = .ok workdir s := by
  unfold workdirOf
  split
  · exact ⟨job.workdir, rfl⟩
  · refine ⟨"/", call_eq_ok.mpr ⟨s.world, ?_, rfl⟩⟩
    exact World.answer_still hstill .getcwd

theorem start_hostWorld {site : Site} (hrunner : site.config.runner = "tmux") (i : ℕ) (job : Job)
    (argv : List String) :
    start site i job argv (fresh site hostWorld) = .ok () (afterStart site i job) := by
  obtain ⟨workdir, hworkdir⟩ := workdirOf_still job (fresh site hostWorld) rfl
  rw [start, bind_eq_ok]
  refine ⟨workdir, fresh site hostWorld, hworkdir, ?_⟩
  rw [if_pos hrunner]
  rfl

/-- A session that is not called as it was to be called is not found. -/
theorem isAlive_afterStart {site : Site} {i : ℕ} {job : Job}
    (hspecial : World.sessionText (sessionName job.id) ≠ sessionName job.id) :
    isAlive (job.track (tmuxSession (sessionName job.id))) (afterStart site i job) =
      .ok false (afterStart site i job) := by
  have htarget : (afterStart site i job).world.target (sessionName job.id) = none := by
    have hsessions : (afterStart site i job).world.sessions =
        [World.sessionText (sessionName job.id)] := rfl
    have hbegins : (sessionName job.id).toList.isPrefixOf
        (World.sessionText (sessionName job.id)).toList = false := by
      by_contra hbegins
      rw [Bool.not_eq_false, List.isPrefixOf_iff_prefix] at hbegins
      apply hspecial
      apply String.toList_injective
      refine (hbegins.eq_of_length ?_).symm
      rw [World.sessionText, String.toList_ofList, List.length_map]
    rw [World.target, hsessions, if_neg (by simpa using Ne.symm hspecial),
      List.filter_singleton, hbegins]
    rfl
  rw [isAlive, show (job.track (tmuxSession (sessionName job.id))).session =
    tmuxSession (sessionName job.id) from rfl, tracked_tmuxSession]
  refine bind_eq_ok.mpr ⟨true, afterStart site i job, rfl, bind_eq_ok.mpr ⟨1, afterStart site i job, ?_, rfl⟩⟩
  refine call_eq_ok.mpr ⟨(afterStart site i job).world, ?_, rfl⟩
  change EStateM.Result.ok (if ((afterStart site i job).world.target _).isSome then 0 else 1) _ = _
  rw [htarget]
  rfl

/-- A start ends the only session whose name begins with the one to be started. -/
theorem start_afterStart {site : Site} (hrunner : site.config.runner = "tmux") {i j : ℕ}
    {a b : Job} (argv : List String)
    (hb : World.sessionText (sessionName b.id) = sessionName b.id)
    (hbegins : a.id.toList <+: b.id.toList) (hne : a.id ≠ b.id) :
    ∃ s', start site i a argv (afterStart site j b) = .ok () s' ∧
      ∃ p ∈ s'.world.procs, p.job = b ∧ p.removedBy = some (sessionName a.id) := by
  obtain ⟨workdir, hworkdir⟩ := workdirOf_still a (afterStart site j b) rfl
  have hsessions : (afterStart site j b).world.sessions = [sessionName b.id] := by
    rw [← hb]
    rfl
  have htarget : (afterStart site j b).world.target (sessionName a.id) = some (sessionName b.id) := by
    have hname : sessionName a.id ≠ sessionName b.id := fun h => hne (sessionName_injective h)
    rw [World.target, hsessions, if_neg (by simpa using hname), List.filter_singleton,
      sessionName_prefix.mpr hbegins]
    rfl
  -- the world after the stale session has been ended: no session is left
  have hprocs : (afterStart site j b).world.procs.map
      (World.endSession (sessionName b.id) (sessionName a.id)) =
        [{ track := .session (sessionName b.id), job := b, exit := some 0,
           removedBy := some (sessionName a.id) }] := by
    simp [afterStart, fresh, World.spawn, hostWorld, World.endSession, hb]
  generalize hended : { (afterStart site j b).world with
    procs := (afterStart site j b).world.procs.map
      (World.endSession (sessionName b.id) (sessionName a.id)) } = ended
  have hkill : (afterStart site j b).world.answer (.tmuxKillSession (sessionName a.id)) = .ok 0 ended := by
    rw [World.answer_still rfl]
    simp only [World.effect, htarget]
    rw [hended]
  have hfree : World.sessionText (sessionName a.id) ∉ ended.sessions := by
    rw [World.mem_sessions, ← hended]
    rintro ⟨p, hp, -, halive⟩
    rw [hprocs, List.mem_singleton] at hp
    rw [hp] at halive
    cases halive
  have hnew : ∀ line, ended.answer (.tmuxNewSession a (sessionName a.id) line a.env) =
      .ok () (ended.spawn (.session (World.sessionText (sessionName a.id))) a) := by
    intro line
    have hagenda : ended.agenda = [] := by
      rw [← hended]
      rfl
    rw [World.answer_still hagenda]
    exact if_neg hfree
  refine ⟨{ afterStart site j b with
    jobs := (afterStart site j b).jobs.modify i (Job.track (tmuxSession (sessionName a.id)))
    starts := i :: (afterStart site j b).starts
    world := ended.spawn (.session (World.sessionText (sessionName a.id))) a }, ?_, ?_⟩
  · rw [start, bind_eq_ok]
    refine ⟨workdir, afterStart site j b, hworkdir, ?_⟩
    rw [if_pos hrunner]
    refine bind_eq_ok.mpr ⟨0, { afterStart site j b with world := ended },
      call_eq_ok.mpr ⟨ended, hkill, rfl⟩, ?_⟩
    exact bind_eq_ok.mpr ⟨(), _, call_eq_ok.mpr ⟨_, hnew _, rfl⟩, rfl⟩
  · refine ⟨{ track := .session (sessionName b.id), job := b, exit := some 0,
              removedBy := some (sessionName a.id) }, ?_, rfl, rfl⟩
    refine List.mem_append_left _ ?_
    rw [← hended]
    exact hprocs ▸ List.mem_singleton_self _

/-! ## Runs of the runner -/

/-- From jobs of different ids that were never started, on a host without sessions, the runner
keeps the sessions apart whatever it is asked, if and only if the ids are separable. -/
theorem sessions_apart (site : Site) (hrunner : site.config.runner = "tmux")
    (hids : (site.queue.map Job.id).Nodup) (hfresh : ∀ job ∈ site.queue, job.session = "") :
    (∀ (w : World) (s : Sys World), w.procs = [] → "tmux" ∈ w.programs →
      ReflTransGen (Serves site) (fresh site w) s → KeepsApart s) ↔
      Separable (site.queue.map Job.id) := by
  constructor
  · intro h
    have hclean : ∀ (i : ℕ) (job : Job), site.queue[i]? = some job →
        World.sessionText (sessionName job.id) = sessionName job.id := by
      intro i job hjob
      by_contra hspecial
      have hstart : Serves site (fresh site hostWorld) (afterStart site i job) :=
        .returns (.start i []) hjob (start_hostWorld hrunner i job [])
      have hkept := h hostWorld _ rfl (List.mem_singleton_self _) (.single hstart)
      have hmem : job.track (tmuxSession (sessionName job.id)) ∈ (afterStart site i job).jobs := by
        refine List.mem_of_getElem? (i := i) ?_
        change (site.queue.modify i _)[i]? = _
        rw [List.getElem?_modify_eq, hjob]
        rfl
      -- the session is there, and the runner says it is not
      have hwrong := (hkept.alive _ hmem false _ (isAlive_afterStart hspecial)).mpr
        ⟨_, List.mem_singleton_self _, rfl, rfl⟩
      cases hwrong
    refine ⟨fun id hid => ?_, fun x hx y hy hbegins => ?_⟩
    · obtain ⟨job, hmem, rfl⟩ := List.mem_map.mp hid
      obtain ⟨i, hi⟩ := List.mem_iff_getElem?.mp hmem
      exact sessionText_sessionName.mp (hclean i job hi)
    · obtain ⟨a, ha, rfl⟩ := List.mem_map.mp hx
      obtain ⟨b, hb, rfl⟩ := List.mem_map.mp hy
      obtain ⟨i, hi⟩ := List.mem_iff_getElem?.mp ha
      obtain ⟨j, hj⟩ := List.mem_iff_getElem?.mp hb
      by_contra hne
      have hij : j ≠ i := by
        rintro rfl
        rw [hi] at hj
        cases hj
        exact hne rfl
      have hfirst : Serves site (fresh site hostWorld) (afterStart site j b) :=
        .returns (.start j []) hj (start_hostWorld hrunner j b [])
      obtain ⟨s', hstart, p, hp, hjob, hremoved⟩ :=
        @start_afterStart site hrunner i j a b [] (hclean j b hj) hbegins hne
      have hi' : (afterStart site j b).jobs[i]? = some a := (getElem?_modify_of_ne hij).trans hi
      have hsecond : Serves site (afterStart site j b) s' := .returns (.start i []) hi' hstart
      have hkept := h hostWorld s' rfl (List.mem_singleton_self _) ((ReflTransGen.single hfirst).tail hsecond)
      have hname := hkept.removed p hp _ hremoved
      rw [hjob] at hname
      exact hne (sessionName_injective hname)
  · intro hseparable w s hprocs htmux hpath
    have hstart : Apart (site.queue.map Job.id) (fresh site w) := by
      refine ⟨fun p hp => ?_, htmux, rfl, fun job hmem => .inl (hfresh job hmem), fun p hp => ?_⟩
      · rw [show (fresh site w).world.procs = [] from hprocs] at hp
        cases hp
      · rw [show (fresh site w).world.procs = [] from hprocs] at hp
        cases hp
    have hend : Apart (site.queue.map Job.id) s :=
      invariant_of_path (fun _ _ hstep h => h.serves hseparable hrunner hstep) hpath hstart
    exact hend.keepsApart hseparable hids

/-- A site with `tmux` for jobs of some ids. -/
def sessionSite (ids : List String) : Site :=
  smallSite (ids.map fun id => { id := id, command := "true" }) { smallConfig with runner := "tmux" }
    reserved_smallConfig

/-- Two sessions that are told apart. -/
theorem sessions_apart_pair : ∃ s : Sys World, KeepsApart s ∧
    s.world.sessions = ["nodepilot_a", "nodepilot_b"] := by
  have hstart : start (sessionSite ["a", "b"]) 0 { id := "a", command := "true" } []
      (fresh (sessionSite ["a", "b"]) hostWorld) = .ok () _ := start_hostWorld rfl 0 _ []
  obtain ⟨⟨⟩, s, hstart', hends⟩ := of_returns
    (show returns (start (sessionSite ["a", "b"]) 1 { id := "b", command := "true" } []
      (afterStart (sessionSite ["a", "b"]) 0 { id := "a", command := "true" }))
      (fun s => s.world.sessions == ["nodepilot_a", "nodepilot_b"]) = true by decide +kernel)
  have hpath : ReflTransGen (Serves (sessionSite ["a", "b"])) (fresh (sessionSite ["a", "b"]) hostWorld)
      s := (ReflTransGen.single (.returns (.start 0 []) rfl hstart)).tail
        (.returns (.start 1 []) rfl hstart')
  have hapart := (sessions_apart (sessionSite ["a", "b"]) rfl (by decide) (by decide)).mpr (by decide)
  exact ⟨s, hapart hostWorld s rfl (List.mem_singleton_self _) hpath, beq_iff_eq.mp hends⟩

/-- Starting a job ends the session of another whose id begins with its own, and the session of
a job with a point in its id is not found. -/
theorem sessions_mixed_up : ∃ s s' : Sys World,
    (ReflTransGen (Serves (sessionSite ["ab", "a"])) (fresh (sessionSite ["ab", "a"]) hostWorld) s ∧
      ∃ p ∈ s.world.procs, p.job.id = "ab" ∧ p.removedBy = some (sessionName "a")) ∧
    (ReflTransGen (Serves (sessionSite ["v1.2"])) (fresh (sessionSite ["v1.2"]) hostWorld) s' ∧
      ∃ job ∈ s'.jobs, isAlive job s' = .ok false s' ∧
        ∃ p ∈ s'.world.procs, p.job.id = job.id ∧ p.exit = none) := by
  have hfirst : Serves (sessionSite ["ab", "a"]) (fresh (sessionSite ["ab", "a"]) hostWorld)
      (afterStart (sessionSite ["ab", "a"]) 0 { id := "ab", command := "true" }) :=
    .returns (.start 0 []) rfl (start_hostWorld rfl 0 _ [])
  obtain ⟨s, hstart, p, hp, hjob, hremoved⟩ :=
    @start_afterStart (sessionSite ["ab", "a"]) rfl 1 0 { id := "a", command := "true" }
      { id := "ab", command := "true" } [] (by decide) (by decide) (by decide)
  have hdotted : Serves (sessionSite ["v1.2"]) (fresh (sessionSite ["v1.2"]) hostWorld)
      (afterStart (sessionSite ["v1.2"]) 0 { id := "v1.2", command := "true" }) :=
    .returns (.start 0 []) rfl (start_hostWorld rfl 0 _ [])
  refine ⟨s, _, ⟨(ReflTransGen.single hfirst).tail (.returns (.start 1 []) rfl hstart), p, hp, ?_,
    hremoved⟩, .single hdotted, _, List.mem_singleton_self _, isAlive_afterStart (by decide), _,
    List.mem_singleton_self _, rfl, rfl⟩
  rw [hjob]

end Nodepilot
