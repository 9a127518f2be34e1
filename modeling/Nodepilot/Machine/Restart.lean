import Nodepilot.Machine.Supervision

/-!
# Processes that outlive their orchestrator

A new orchestrator has no handle for what the one before it started.  It finds a
job by its pid, and by a handle only if it has started something under that pid
itself (`Handles`).  Either way it never takes a living process for dead, unless
the name of the process confuses the reading of its stat text (`dead_ended`).

Whatever the backend, a start adds one process to the table, and leaves in the job
by what it can be found again (`Began`).
-/

namespace Nodepilot

open Obeys Relation

/-! ## The end of an orchestrator -/

/-- The orchestrator is gone, and what it started lives on as children of the init process. -/
def World.orphan (w : World) : World :=
  { w with procs := w.procs.map fun p => { p with child := false } }

theorem getElem?_orphan {w : World} {k : ℕ} {q : Proc} (h : w.orphan.procs[k]? = some q) :
    ∃ p, w.procs[k]? = some p ∧ q = { p with child := false } := by
  rw [World.orphan, List.getElem?_map] at h
  obtain ⟨p, hp, rfl⟩ := Option.map_eq_some_iff.mp h
  exact ⟨p, hp, rfl⟩

theorem WellFormed.orphan {w : World} (h : WellFormed w) : WellFormed w.orphan where
  pids j k p q n hp hq hpn hqn hpc hqc := by
    obtain ⟨p', hp', rfl⟩ := getElem?_orphan hp
    obtain ⟨q', hq', rfl⟩ := getElem?_orphan hq
    exact h.pids j k p' q' n hp' hq' hpn hqn hpc hqc
  others p hmem n hpn hpc o ho := by
    obtain ⟨k, hk⟩ := List.mem_iff_getElem?.mp hmem
    obtain ⟨p', hp', rfl⟩ := getElem?_orphan hk
    exact h.others p' (List.mem_of_getElem? hp') n hpn hpc o ho
  names j k p q name hp hq hpn hqn hpe hqe := by
    obtain ⟨p', hp', rfl⟩ := getElem?_orphan hp
    obtain ⟨q', hq', rfl⟩ := getElem?_orphan hq
    exact h.names j k p' q' name hp' hq' hpn hqn hpe hqe
  waited p hmem hpc := by
    obtain ⟨k, hk⟩ := List.mem_iff_getElem?.mp hmem
    obtain ⟨p', hp', rfl⟩ := getElem?_orphan hk
    exact h.waited p' (List.mem_of_getElem? hp') hpc

/-! ## Handles -/

/-- Forgetting a job adds no handle. -/
theorem lookup_of_forgotten {job : Job} {procs : List (ℤ × Popen)} {n : ℤ} {proc : Popen}
    (h : (forgotten job procs).lookup n = some proc) : procs.lookup n = some proc := by
  unfold forgotten at h
  split at h
  · split at h
    · rw [lookup_popProc] at h
      split at h
      · cases h
      · exact h
    · exact h
  · exact h

/-- A handle is kept unless the job forgotten names its pid. -/
theorem lookup_forgotten {job : Job} {procs : List (ℤ × Popen)} {n : ℤ} {proc : Popen}
    (h : procs.lookup n = some proc)
    (hother : ∀ digits, tracked job.session = .pid digits → pyInt digits ≠ .ok n) :
    (forgotten job procs).lookup n = some proc := by
  unfold forgotten
  split
  · rename_i digits htracked
    split
    · rename_i pid hparse
      have hne : n ≠ pid := by
        rintro rfl
        exact hother digits htracked hparse
      rw [lookup_popProc_of_ne hne]
      exact h
    · exact h
  · exact h

/-- A handle under a pid is on a process of that pid, and no other process that lives has the
pid. -/
structure Handles (procs : List (ℤ × Popen)) (w : World) : Prop where
  own : ∀ (n : ℕ) (proc : Popen), procs.lookup (n : ℤ) = some proc →
    ∃ p, w.procs[proc.serial]? = some p ∧ p.track = .pid n
  only : ∀ (n : ℕ) (proc : Popen), procs.lookup (n : ℤ) = some proc → ∀ (k : ℕ) (p : Proc),
    w.procs[k]? = some p → p.track = .pid n → p.exit = none → k = proc.serial

namespace Handles

variable {procs procs' : List (ℤ × Popen)} {w w' : World}

theorem nil (w : World) : Handles [] w := by
  refine ⟨fun n proc h => ?_, fun n proc h => ?_⟩ <;> cases h

theorem stays (h : Handles procs w) (hstays : Stays w w') : Handles procs w' := by
  refine ⟨fun n proc hproc => ?_, fun n proc hproc k q hq htrack halive => ?_⟩
  · obtain ⟨p, hp, htrack⟩ := h.own n proc hproc
    obtain ⟨q, hq, hages⟩ := hstays.procs _ p hp
    exact ⟨q, hq, hages.track.trans htrack⟩
  · obtain ⟨p, hp, hages⟩ := hstays.back hq
    exact h.only n proc hproc k p hp (hages.track.symm.trans htrack) (hages.alive halive)

/-- Fewer handles are still handles. -/
theorem of_lookup (h : Handles procs w)
    (hlookup : ∀ (n : ℕ) (proc : Popen), procs'.lookup (n : ℤ) = some proc →
      procs.lookup (n : ℤ) = some proc) : Handles procs' w :=
  ⟨fun n proc hproc => h.own n proc (hlookup n proc hproc),
    fun n proc hproc => h.only n proc (hlookup n proc hproc)⟩

/-- A new process under a new pid. -/
theorem popen (h : Handles procs w) (hwell : WellFormed w) {p : Proc}
    (hprocs : w'.procs = w.procs ++ [p]) (htrack : p.track = .pid w.freshPid) :
    Handles (setProc procs ⟨w.freshPid, w.procs.length⟩) w' := by
  have hnew : w'.procs[w.procs.length]? = some p := by
    rw [hprocs, List.getElem?_append_right le_rfl, Nat.sub_self]
    rfl
  have hold : ∀ {k : ℕ} {q : Proc}, w'.procs[k]? = some q → k = w.procs.length ∨
      w.procs[k]? = some q := by
    intro k q hq
    rw [hprocs, List.getElem?_append] at hq
    split at hq
    · exact .inr hq
    · rename_i hlt
      rw [List.getElem?_singleton] at hq
      split at hq
      · left
        omega
      · cases hq
  have hkept : ∀ {k : ℕ} {q : Proc}, w.procs[k]? = some q → w'.procs[k]? = some q := by
    intro k q hq
    rw [hprocs, List.getElem?_append_left (List.getElem?_eq_some_iff.mp hq).1]
    exact hq
  have hlookup : ∀ (n : ℕ), n ≠ w.freshPid →
      (setProc procs ⟨w.freshPid, w.procs.length⟩).lookup (n : ℤ) = procs.lookup (n : ℤ) :=
    fun n hn => lookup_setProc_of_ne (by simpa using hn)
  have hself : (setProc procs ⟨w.freshPid, w.procs.length⟩).lookup (w.freshPid : ℤ) =
      some ⟨w.freshPid, w.procs.length⟩ := lookup_setProc procs ⟨w.freshPid, _⟩
  refine ⟨fun n proc hproc => ?_, fun n proc hproc k q hq hqtrack halive => ?_⟩
  · by_cases hn : n = w.freshPid
    · subst hn
      rw [hself] at hproc
      cases hproc
      exact ⟨p, hnew, htrack⟩
    · rw [hlookup n hn] at hproc
      obtain ⟨q, hq, hqtrack⟩ := h.own n proc hproc
      exact ⟨q, hkept hq, hqtrack⟩
  · by_cases hn : n = w.freshPid
    · subst hn
      rw [hself] at hproc
      cases hproc
      rcases hold hq with hk | hq
      · exact hk
      · -- an old process of the pid that lives: then the pid would be taken
        have huncollected : q.collected = false := by
          by_contra hcollected
          exact hwell.waited q (List.mem_of_getElem? hq) (by simpa using hcollected) halive
        have hused := pidInUse_of_proc (List.mem_of_getElem? hq) hqtrack huncollected
        rw [World.pidInUse_freshPid] at hused
        cases hused
    · rw [hlookup n hn] at hproc
      rcases hold hq with rfl | hq
      · rw [hnew] at hq
        cases hq
        rw [htrack, Track.pid.injEq] at hqtrack
        exact absurd hqtrack.symm hn
      · exact h.only n proc hproc k q hq hqtrack halive

/-- A new process without a pid. -/
theorem append (h : Handles procs w) {p : Proc} (hprocs : w'.procs = w.procs ++ [p])
    (htrack : ∀ n, p.track ≠ .pid n) : Handles procs w' := by
  refine ⟨fun n proc hproc => ?_, fun n proc hproc k q hq hqtrack halive => ?_⟩
  · obtain ⟨q, hq, hqtrack⟩ := h.own n proc hproc
    refine ⟨q, ?_, hqtrack⟩
    rw [hprocs, List.getElem?_append_left (List.getElem?_eq_some_iff.mp hq).1]
    exact hq
  · rw [hprocs, List.getElem?_append] at hq
    split at hq
    · exact h.only n proc hproc k q hq hqtrack halive
    · rw [List.getElem?_singleton] at hq
      split at hq
      · cases hq
        exact absurd hqtrack (htrack n)
      · cases hq

end Handles

/-- Every child that lives has a handle under its pid. -/
def Held (procs : List (ℤ × Popen)) (w : World) : Prop :=
  ∀ (n k : ℕ) (p : Proc), w.procs[k]? = some p → p.exit = none → p.child = true → p.track = .pid n →
    procs.lookup (n : ℤ) = some ⟨n, k⟩

theorem Held.stays {procs : List (ℤ × Popen)} {w w' : World} (h : Held procs w) (hstays : Stays w w') :
    Held procs w' := by
  intro n k q hq halive hchild htrack
  obtain ⟨p, hp, hages⟩ := hstays.back hq
  exact h n k p hp (hages.alive halive) (hages.child.symm.trans hchild) (hages.track.symm.trans htrack)

/-- A job is found dead only if every process of its pid has ended; where there is no handle,
the name of the process must not make it look like a zombie. -/
theorem dead_ended {job : Job} {n : ℕ} {s s' : Sys World} (hsession : job.session = pidSession n)
    (hwell : WellFormed s.world) (hhandles : Handles s.procs s.world)
    (h : isAlive job s = .ok false s') {p : Proc} (hmem : p ∈ s'.world.procs)
    (htrack : p.track = .pid n)
    (hlegible : s.procs.lookup (n : ℤ) = none → p.exit = none → legible p.comm) :
    p.exit ≠ none := by
  intro halive
  cases hlookup : s.procs.lookup (n : ℤ) with
  | none =>
      exact pidAlive_machine hwell (isAlive_pid hsession hlookup h) hmem htrack halive
        (hlegible hlookup halive)
  | some proc =>
      obtain ⟨haged, -, hended⟩ := isAlive_handle_machine hsession hlookup h
      obtain ⟨q, rc, hq, hexit⟩ := hended rfl
      obtain ⟨k, hk⟩ := List.mem_iff_getElem?.mp hmem
      obtain ⟨p₀, hp₀, hages⟩ := haged.back hk
      have hsame : k = proc.serial := hhandles.only n proc hlookup k p₀ hp₀
        (hages.track.symm.trans htrack) (hages.alive halive)
      subst hsame
      rw [hk] at hq
      cases hq
      rw [halive] at hexit
      cases hexit

/-! ## Starts on either backend -/

/-- What the runner leaves in a job for its process. -/
def Proc.reference (p : Proc) : String :=
  match p.track with
  | .pid n => pidSession n
  | .session _ => tmuxSession (sessionName p.job.id)

/-- A start, seen from the table: `p` was added to that of `w`. -/
structure Began (site : Site) (i : ℕ) (job : Job) (s s' : Sys World) (w w' : World) (p : Proc) :
    Prop where
  before : Stays s.world w
  well : WellFormed s.world → WellFormed w
  programs : s'.world.programs = s.world.programs
  procs : w'.procs = w.procs ++ [p]
  owner : p.job = job
  launches : w'.launches = ⟨job, w.aliveJobs⟩ :: s.world.launches
  after : Stays w' s'.world
  jobs : s'.jobs = s.jobs.modify i (Job.track p.reference)
  handles : (site.config.runner ≠ "tmux" ∧ p.track = .pid w.freshPid ∧
      s'.procs = setProc s.procs ⟨w.freshPid, w.procs.length⟩) ∨
    (site.config.runner = "tmux" ∧ p.track = .session (World.sessionText (sessionName job.id)) ∧
      s'.procs = s.procs)

theorem Started.began {site : Site} {i : ℕ} {job : Job} {argv : List String} {s s' : Sys World}
    (h : Started site i job argv s s') : ∃ w w' p, Began site i job s s' w w' p := by
  have hprograms : s'.world.programs = s.world.programs := h.onward.grows.programs
  cases h with
  | @subprocess workdir proc w₁ w₂ w₃ hrunner hbefore hpopen hafter =>
      obtain ⟨rfl, hprocs, hlaunches⟩ := popen_machine hpopen
      have hadvance : Stays s.world w₁.advance :=
        (Later.aged hbefore).stays.trans (w₁.advance_aged ∅).stays
      refine ⟨w₁.advance, w₂, _, hadvance, fun hwell => ?_, hprograms, hprocs, rfl, ?_,
        (Later.aged hafter).stays, rfl, Or.inl ⟨hrunner, rfl, rfl⟩⟩
      · exact World.advance_wellFormed ((Later.onward hbefore).wellFormed hwell)
      · rw [hlaunches, (Later.aged hbefore).launches]
  | @tmux commandLine rc w₁ w₂ w₃ hrunner hbefore hkill hnew =>
      obtain ⟨hprocs, hlaunches⟩ := tmuxNewSession_machine hnew
      have htended : Tended w₁ w₂ :=
        .of_after (c := .tmuxKillSession (sessionName job.id)) rfl (after_of_ok hkill)
      have hadvance : Stays s.world w₂.advance :=
        ((Later.aged hbefore).stays.trans htended.stays).trans (w₂.advance_aged ∅).stays
      refine ⟨w₂.advance, w₃, _, hadvance, fun hwell => ?_, hprograms, hprocs, rfl, ?_,
        .refl _, rfl, Or.inr ⟨hrunner, rfl, rfl⟩⟩
      · exact World.advance_wellFormed
          (htended.onward.wellFormed ((Later.onward hbefore).wellFormed hwell))
      · rw [hlaunches, htended.launches, (Later.aged hbefore).launches]

/-- What was not started has no process. -/
theorem Unstarted.stays {site : Site} {job : Job} {argv : List String} {w w' : World} {e : Exc}
    (h : Unstarted site job argv w e w') : Stays w w' := by
  have hfailed : ∀ {α : Type} {c : Syscall α} {e : Exc} {w w' : World},
      Host.answer c w = .error e w' → Stays w w' := by
    intro α c e w w' hanswer
    rw [answer_error hanswer]
    exact (w.advance_aged ∅).stays
  cases h with
  | getcwd hbefore => exact (Later.aged hbefore).stays
  | popen _ hbefore hpopen => exact (Later.aged hbefore).stays.trans (hfailed hpopen)
  | killSession _ hbefore hkill => exact (Later.aged hbefore).stays.trans (hfailed hkill)
  | newSession _ hbefore hkill hnew =>
      have htended : Tended _ _ :=
        .of_after (c := .tmuxKillSession (sessionName job.id)) rfl (after_of_ok hkill)
      exact ((Later.aged hbefore).stays.trans htended.stays).trans (hfailed hnew)

namespace Began

variable {site : Site} {i : ℕ} {job : Job} {s s' : Sys World} {w w' : World} {p : Proc}

/-- Where the processes after a start come from. -/
theorem back (h : Began site i job s s' w w' p) {k : ℕ} {q : Proc}
    (hq : s'.world.procs[k]? = some q) :
    (∃ p₀, w.procs[k]? = some p₀ ∧ Ages p₀ q) ∨ (k = w.procs.length ∧ Ages p q) := by
  obtain ⟨q₁, hq₁, hages⟩ := h.after.back hq
  rw [h.procs, List.getElem?_append] at hq₁
  split at hq₁
  · exact Or.inl ⟨q₁, hq₁, hages⟩
  · rename_i hge
    rw [List.getElem?_singleton] at hq₁
    split at hq₁
    · cases hq₁
      exact Or.inr ⟨by omega, hages⟩
    · cases hq₁

theorem keepsHandles (h : Began site i job s s' w w' p) (hwell : WellFormed s.world)
    (hhandles : Handles s.procs s.world) : Handles s'.procs s'.world := by
  have hbefore : Handles s.procs w := hhandles.stays h.before
  refine Handles.stays (w := w') ?_ h.after
  rcases h.handles with ⟨-, htrack, hprocs⟩ | ⟨-, htrack, hprocs⟩
  · rw [hprocs]
    exact hbefore.popen (h.well hwell) h.procs htrack
  · rw [hprocs]
    exact hbefore.append h.procs (by simp [htrack])

theorem keepsHeld (h : Began site i job s s' w w' p) (hwell : WellFormed s.world)
    (hheld : Held s.procs s.world) : Held s'.procs s'.world := by
  intro n k q hq halive hchild htrack
  rcases h.back hq with ⟨p₀, hp₀, hages⟩ | ⟨rfl, hages⟩
  · have hpid : p₀.track = .pid n := hages.track.symm.trans htrack
    have hold : s.procs.lookup (n : ℤ) = some ⟨n, k⟩ := hheld.stays h.before n k p₀ hp₀
      (hages.alive halive) (hages.child.symm.trans hchild) hpid
    rcases h.handles with ⟨-, -, hprocs⟩ | ⟨-, -, hprocs⟩
    · -- a living process has a pid that is not free
      have hne : n ≠ w.freshPid := by
        rintro rfl
        have huncollected : p₀.collected = false := by
          by_contra hcollected
          exact (h.well hwell).waited p₀ (List.mem_of_getElem? hp₀) (by simpa using hcollected)
            (hages.alive halive)
        have hused := pidInUse_of_proc (List.mem_of_getElem? hp₀) hpid huncollected
        rw [World.pidInUse_freshPid] at hused
        cases hused
      rw [hprocs, lookup_setProc_of_ne (by simpa using hne)]
      exact hold
    · rw [hprocs]
      exact hold
  · rcases h.handles with ⟨-, hpid, hprocs⟩ | ⟨-, hsession, -⟩
    · rw [hages.track, hpid, Track.pid.injEq] at htrack
      subst htrack
      rw [hprocs]
      exact lookup_setProc s.procs ⟨w.freshPid, w.procs.length⟩
    · rw [hages.track, hsession] at htrack
      cases htrack

end Began

/-! ## The moves of a run -/

section Moves

variable {site : Site} {gated : Bool} {label : Label} {s s' : Sys World}

theorem looks_of_ne (hlaunch : ∀ i, label ≠ .launch i) (hfail : ∀ i, label ≠ .fail i)
    (hkill : ∀ i, label ≠ .kill i) : label.looks = true := by
  cases label with
  | launch i => exact absurd rfl (hlaunch i)
  | fail i => exact absurd rfl (hfail i)
  | kill i => exact absurd rfl (hkill i)
  | _ => rfl

/-- But for starts and kills, a move of the scheduler lets time pass. -/
theorem Move.aged (hmove : Move site gated label s s') (hrunner : site.config.runner ≠ "tmux")
    (hlaunch : ∀ i, label ≠ .launch i) (hkill : ∀ i, label ≠ .kill i) :
    Aged Set.univ s.world s'.world := by
  by_cases hfail : ∃ i, label = .fail i
  · obtain ⟨i, rfl⟩ := hfail
    cases hmove with
    | fail hchosen hunstarted htime =>
        have hbefore : Aged ∅ s.world _ := (Later.aged hchosen.later).trans (hunstarted.aged hrunner)
        have hafter : Later _ _ := .of_ok rfl htime
        exact (hbefore.trans (Later.aged hafter)).mono (Set.empty_subset _)
  · exact Seen.aged (hmove.seen (looks_of_ne hlaunch (fun i hi => hfail ⟨i, hi⟩) hkill))

/-- But for starts and kills, a move adds nothing to the table. -/
theorem Move.stays (hmove : Move site gated label s s') (hlaunch : ∀ i, label ≠ .launch i)
    (hkill : ∀ i, label ≠ .kill i) : Stays s.world s'.world := by
  by_cases hfail : ∃ i, label = .fail i
  · obtain ⟨i, rfl⟩ := hfail
    cases hmove with
    | fail hchosen hunstarted htime =>
        have hbefore : Stays s.world _ := (Later.aged hchosen.later).stays
        have hafter : Later _ _ := .of_ok rfl htime
        exact (hbefore.trans hunstarted.stays).trans (Later.aged hafter).stays
  · exact (Seen.aged (hmove.seen (looks_of_ne hlaunch (fun i hi => hfail ⟨i, hi⟩) hkill))).stays

end Moves

end Nodepilot
