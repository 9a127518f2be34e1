import Nodepilot.Machine.Probes

/-!
# Jobs and their processes

The orchestrator keeps a handle on every process it has started: as long as a job
runs, the handle under its pid is for the process that was started for it, and
nobody has waited for that process (`HasHandle`).  The rounds of one process of
the orchestrator keep this of every running job (`Supervised`), with the
subprocess backend and unique ids.
-/

namespace Nodepilot

open Relation

/-- The runner has a handle on the process of a job. -/
structure HasHandle (procs : List (ℤ × Popen)) (w : World) (job : Job) (n k : ℕ) (p : Proc) : Prop where
  session : job.session = pidSession n
  handle : procs.lookup (n : ℤ) = some ⟨n, k⟩
  proc : w.procs[k]? = some p
  track : p.track = .pid n
  owner : p.job.id = job.id
  uncollected : p.collected = false
  child : p.child = true

namespace HasHandle

variable {procs : List (ℤ × Popen)} {w w' : World} {job : Job} {n k : ℕ} {p : Proc}

/-- A handle lasts until its process is waited for. -/
theorem aged {waited : Set ℕ} (h : HasHandle procs w job n k p) (haged : Aged waited w w')
    (hk : k ∉ waited) : ∃ q, HasHandle procs w' job n k q := by
  obtain ⟨q, hq, hages⟩ := haged.procs k p h.proc
  refine ⟨q, h.session, h.handle, hq, hages.track.trans h.track, ?_, ?_, hages.child.trans h.child⟩
  · rw [hages.job]
    exact h.owner
  · rw [hages.kept hk h.child]
    exact h.uncollected

/-- The pid of a process that has a handle is taken. -/
theorem pidInUse (h : HasHandle procs w job n k p) : w.pidInUse n = true :=
  pidInUse_of_proc (List.mem_of_getElem? h.proc) h.track h.uncollected

theorem of_procs {procs' : List (ℤ × Popen)} (h : HasHandle procs w job n k p)
    (hprocs : procs'.lookup (n : ℤ) = procs.lookup (n : ℤ)) : HasHandle procs' w job n k p :=
  ⟨h.session, hprocs.trans h.handle, h.proc, h.track, h.owner, h.uncollected, h.child⟩

/-- The handles of two jobs of different ids are under different pids. -/
theorem apart {job' : Job} {n' k' : ℕ} {p' : Proc} (h : HasHandle procs w job n k p)
    (h' : HasHandle procs w job' n' k' p') (hid : job.id ≠ job'.id) : n ≠ n' ∧ k ≠ k' := by
  have hk : k ≠ k' := by
    rintro rfl
    have hsame : p = p' := Option.some.inj (h.proc.symm.trans h'.proc)
    subst hsame
    exact hid (h.owner.symm.trans h'.owner)
  refine ⟨?_, hk⟩
  rintro rfl
  have hsame := h.handle.symm.trans h'.handle
  rw [Option.some.injEq, Popen.mk.injEq] at hsame
  exact hk hsame.2

end HasHandle

/-- Every running job has its handle. -/
structure Supervised (s : Sys World) : Prop where
  well : WellFormed s.world
  handle : ∀ (i : ℕ) (job : Job), s.jobs[i]? = some job → job.status = .running →
    ∃ n k p, HasHandle s.procs s.world job n k p

/-! ## The moves of a round -/

theorem Unstarted.aged {site : Site} {job : Job} {argv : List String} {w w' : World} {e : Exc}
    (hrunner : site.config.runner ≠ "tmux") (h : Unstarted site job argv w e w') : Aged ∅ w w' := by
  cases h with
  | getcwd hbefore => exact Later.aged hbefore
  | popen _ hbefore hpopen =>
      rw [answer_error hpopen]
      exact (Later.aged hbefore).trans (World.advance_aged ∅ _)
  | killSession htmux => exact absurd htmux hrunner
  | newSession htmux => exact absurd htmux hrunner

theorem Cooled.later {W : Type} [Host W] {config : Config} {outcome : Outcome}
    {cooldown cooldown' : ℚ} {w w' : W} (h : Cooled config outcome cooldown w cooldown' w') :
    Later w w' := by
  cases h with
  | keep => exact .refl _
  | arm h htime => exact .of_ok rfl htime

/-- But for starts, failed ones included, and kills a move only looks. -/
theorem Move.seen {W : Type} [Host W] {site : Site} {gated : Bool} {label : Label} {s s' : Sys W}
    (hmove : Move site gated label s s') (hlooks : label.looks = true) : Seen s.world s'.world := by
  have hprobe : ∀ {job : Job} {alive : Bool} {s : Sys W} {w : W},
      isAlive job s = .ok alive { s with world := w } → Seen s.world w := by
    intro job alive s w halive
    obtain ⟨w', hseen, hworld⟩ := (looking_isAlive job).of_ok halive
    cases hworld
    exact hseen
  have hscopes : ∀ {job : Job} {alive : Bool} {s : Sys W} {w : W},
      aliveScope site job s = .ok alive { s with world := w } → Seen s.world w := by
    intro job alive s w hscope
    obtain ⟨w', hafter, hworld⟩ := (quiet_aliveScope site job).of_ok hscope
    cases hworld
    exact Later.seen hafter
  cases hmove with
  | ask hask => exact Later.seen (.single hask)
  | probe hjob hrunning halive => exact hprobe halive
  | spare hjob hrunning hdead hscope => exact (hprobe hdead).trans (hscopes hscope)
  | reap hjob hrunning hdead hreap htime hcooled =>
      obtain ⟨rc, w', hint, w'', -, hbefore, hafter, hsame, -⟩ := reap_eq_ok hreap
      cases hsame
      have hrest := Later.seen ((hafter.trans (.of_ok rfl htime)).trans hcooled.later)
      exact ((hprobe hdead).trans hbefore).trans hrest
  | skip hjob hpending hblocker htime => exact Later.seen (.of_ok rfl htime)
  | clear hjob hrunning hdead hscope htime =>
      exact ((hprobe hdead).trans (hscopes hscope)).trans (Later.seen (.of_ok rfl htime))
  | save => exact ReflTransGen.refl
  | _ => cases hlooks

/-- A reap waits for one process, that of its job. -/
theorem reap_aged {site : Site} {job : Job} {outcome : Outcome} {n : ℕ} {s : Sys World}
    {w₁ w₂ w₃ w₄ : World} {now cooldown : ℚ} {proc : Popen} (hsession : job.session = pidSession n)
    (hproc : s.procs.lookup (n : ℤ) = some proc)
    (hdead : isAlive job s = .ok false { s with world := w₁ })
    (hreap : reap job { s with world := w₁ } =
      .ok outcome { s with procs := forgotten job s.procs, world := w₂ })
    (htime : Host.answer .time w₂ = .ok now w₃)
    (hcooled : Cooled site.config outcome s.cooldownUntil w₃ cooldown w₄) :
    Aged {proc.serial} s.world w₄ ∧ ∃ p rc hint, w₄.procs[proc.serial]? = some p ∧
      p.exit = some rc ∧ outcome = classify (some (normalise rc)) hint := by
  obtain ⟨haged, -, hended⟩ := isAlive_handle_machine hsession hproc hdead
  obtain ⟨p, rc, hp, hexit⟩ := hended rfl
  obtain ⟨⟨hint, houtcome⟩, haged'⟩ :=
    reap_handle_machine (s := { s with world := w₁ }) hsession hproc hp hexit hreap
  have hlater : Later w₂ w₄ := (Later.of_ok rfl htime).trans hcooled.later
  have haged'' : Aged {proc.serial} w₁ w₄ :=
    haged'.trans ((Later.aged hlater).mono (Set.empty_subset _))
  obtain ⟨q, hq, hages⟩ := haged''.procs _ p hp
  exact ⟨haged.trans haged'', q, rc, hint, hq, hages.exit rc hexit, houtcome⟩

/-- What a started job has a handle on, and what the others still have theirs on. -/
theorem Started.handles {site : Site} {i : ℕ} {job : Job} {argv : List String} {s s' : Sys World}
    (hrunner : site.config.runner ≠ "tmux") (h : Started site i job argv s s') :
    ∃ n k p, s'.jobs = s.jobs.modify i (Job.track (pidSession n)) ∧
      s'.procs = setProc s.procs ⟨n, k⟩ ∧ k = s.world.procs.length ∧
      HasHandle s'.procs s'.world (Job.track (pidSession n) job) n k p ∧
      ∀ job' n' k' p', HasHandle s.procs s.world job' n' k' p' →
        ∃ q, HasHandle s'.procs s'.world job' n' k' q := by
  cases h with
  | tmux htmux => exact absurd htmux hrunner
  | @subprocess workdir proc w₁ w₂ w₃ _ hbefore hpopen hafter =>
      obtain ⟨rfl, hprocs, -⟩ := popen_machine hpopen
      have haged : Aged ∅ s.world w₁.advance := (Later.aged hbefore).trans (w₁.advance_aged ∅)
      have hrest : Aged ∅ w₂ w₃ := Later.aged hafter
      have hnew : HasHandle (setProc s.procs ⟨w₁.advance.freshPid, w₁.advance.procs.length⟩) w₂
          (Job.track (pidSession w₁.advance.freshPid) job) w₁.advance.freshPid
          w₁.advance.procs.length { track := .pid w₁.advance.freshPid, job := job } := by
        refine ⟨rfl, lookup_setProc s.procs ⟨w₁.advance.freshPid, _⟩, ?_, rfl, rfl, rfl, rfl⟩
        rw [hprocs, List.getElem?_append_right le_rfl, Nat.sub_self]
        rfl
      obtain ⟨q, hq⟩ := hnew.aged hrest (Set.notMem_empty _)
      refine ⟨w₁.advance.freshPid, w₁.advance.procs.length, q, rfl, rfl, haged.length, hq, ?_⟩
      intro job' n' k' p' hhandle
      obtain ⟨p₁, hp₁⟩ := hhandle.aged haged (Set.notMem_empty k')
      -- the old pid is in use, so the new one is another
      have hne : n' ≠ w₁.advance.freshPid := by
        rintro rfl
        have hused := hp₁.pidInUse
        rw [World.pidInUse_freshPid] at hused
        cases hused
      have hkept : HasHandle (setProc s.procs ⟨w₁.advance.freshPid, w₁.advance.procs.length⟩) w₂
          job' n' k' p₁ := by
        refine ⟨hp₁.session, ?_, ?_, hp₁.track, hp₁.owner, hp₁.uncollected, hp₁.child⟩
        · rw [lookup_setProc_of_ne (by simpa using hne)]
          exact hp₁.handle
        · rw [hprocs, List.getElem?_append_left (List.getElem?_eq_some_iff.mp hp₁.proc).1]
          exact hp₁.proc
      exact hkept.aged hrest (Set.notMem_empty k')

/-- What a start logs and what it adds to the table. -/
theorem Started.adds {site : Site} {i : ℕ} {job : Job} {argv : List String} {s s' : Sys World}
    (hrunner : site.config.runner ≠ "tmux") (h : Started site i job argv s s') :
    ∃ w, Aged ∅ s.world w ∧ s'.world.launches = ⟨job, w.aliveJobs⟩ :: s.world.launches ∧
      ∀ (k : ℕ) (q : Proc), s'.world.procs[k]? = some q →
        (∃ p, s.world.procs[k]? = some p ∧ Ages p q) ∨
          (k = w.procs.length ∧ q.job = job ∧
            ∃ n, s'.jobs = s.jobs.modify i (Job.track (pidSession n)) ∧
              HasHandle s'.procs s'.world (Job.track (pidSession n) job) n k q) := by
  cases h with
  | tmux htmux => exact absurd htmux hrunner
  | @subprocess workdir proc w₁ w₂ w₃ _ hbefore hpopen hafter =>
      obtain ⟨rfl, hprocs, hlaunches⟩ := popen_machine hpopen
      have haged : Aged ∅ s.world w₁.advance := (Later.aged hbefore).trans (w₁.advance_aged ∅)
      have hrest : Aged ∅ w₂ w₃ := Later.aged hafter
      refine ⟨w₁.advance, haged, ?_, fun k q hq => ?_⟩
      · rw [hrest.launches, hlaunches, (Later.aged hbefore).launches]
      · obtain ⟨q₀, hq₀, hages⟩ := hrest.back hq
        by_cases hk : k < w₁.advance.procs.length
        · -- an old process
          rw [hprocs, List.getElem?_append_left hk] at hq₀
          obtain ⟨p, hp, hages'⟩ := haged.back hq₀
          exact Or.inl ⟨p, hp, hages'.toAges.trans hages.toAges⟩
        · -- the new one
          have hlast : k = w₁.advance.procs.length := by
            have hlt := (List.getElem?_eq_some_iff.mp hq₀).1
            rw [hprocs, List.length_append, List.length_singleton] at hlt
            omega
          subst hlast
          rw [hprocs, List.getElem?_append_right le_rfl, Nat.sub_self] at hq₀
          cases hq₀
          have hnew : HasHandle (setProc s.procs ⟨w₁.advance.freshPid, w₁.advance.procs.length⟩) w₃
              (Job.track (pidSession w₁.advance.freshPid) job) w₁.advance.freshPid
              w₁.advance.procs.length q := by
            refine ⟨rfl, lookup_setProc s.procs ⟨w₁.advance.freshPid, _⟩, hq, hages.track, ?_, ?_,
              hages.child⟩
            · rw [hages.job]
              rfl
            · exact hages.kept (Set.notMem_empty _) rfl
          exact Or.inr ⟨rfl, hages.job, _, rfl, hnew⟩

section Moves

variable {site : Site} {gated : Bool} {label : Label} {s s' : Sys World}

/-- A move of a round leaves a running job its handle, unless it ends the job. -/
theorem Move.keeps_handle (hmove : Move site gated label s s')
    (hrunner : site.config.runner ≠ "tmux") (hlabel : label.inRound = true)
    (hids : (s.jobs.map Job.id).Nodup) (h : Supervised s) {j n k : ℕ} {job : Job} {p : Proc}
    (hjob : s.jobs[j]? = some job) (hrunning : job.status = .running)
    (hkept : s'.jobs[j]? = some job) (hhandle : HasHandle s.procs s.world job n k p) :
    ∃ q, HasHandle s'.procs s'.world job n k q := by
  cases hmove with
  | ask hask => exact hhandle.aged (Later.aged (.single hask)) (Set.notMem_empty k)
  | @probe _ i other w hother hother' halive =>
      obtain ⟨m, l, r, hprobed⟩ := h.handle i other hother hother'
      have hworld := (isAlive_handle_machine hprobed.session hprobed.handle halive).2.1 rfl
      refine hhandle.aged ?_ (Set.notMem_empty k)
      rw [hworld]
      exact World.advance_aged ∅ _
  | @reap _ i other outcome w₁ w₂ w₃ w₄ now cooldown hother hother' hdead hreap htime hcooled =>
      obtain ⟨m, l, r, hreaped⟩ := h.handle i other hother hother'
      have haged := (reap_aged hreaped.session hreaped.handle hdead hreap htime hcooled).1
      obtain ⟨rc, w', hint, w'', -, -, -, -, rfl, -⟩ := reap_eq_ok hreap
      have hne : j ≠ i := by
        rintro rfl
        rw [List.getElem?_modify_eq, hjob] at hkept
        have hstatus : (Job.finish (classify rc hint) now job).status = job.status :=
          congrArg Job.status (Option.some.inj hkept)
        rw [Job.finish_status, hrunning] at hstatus
        rcases classify_status rc hint with hended | hended <;> rw [hended] at hstatus <;>
          cases hstatus
      obtain ⟨hn, hk⟩ := hhandle.apart hreaped (id_ne_of_ne hids hjob hother hne)
      obtain ⟨q, hq⟩ := hhandle.aged haged (by simpa using hk)
      refine ⟨q, hq.of_procs ?_⟩
      simp only [forgotten_pidSession hreaped.session]
      exact lookup_popProc_of_ne (by simpa using hn)
  | skip _ _ _ htime => exact hhandle.aged (Later.aged (.of_ok rfl htime)) (Set.notMem_empty k)
  | @launch _ s₁ i other placement argv w w₂ now hchosen hstarted htime =>
      obtain ⟨m, l, r, -, -, -, -, hothers⟩ := hstarted.handles hrunner
      obtain ⟨p₁, hp₁⟩ := hhandle.aged (Later.aged hchosen.later) (Set.notMem_empty k)
      obtain ⟨p₂, hp₂⟩ := hothers job n k p₁ hp₁
      exact hp₂.aged (Later.aged (.of_ok rfl htime)) (Set.notMem_empty k)
  | fail hchosen hunstarted htime =>
      refine hhandle.aged ?_ (Set.notMem_empty k)
      exact ((Later.aged hchosen.later).trans (hunstarted.aged hrunner)).trans
        (Later.aged (.of_ok rfl htime))
  | save => exact ⟨p, hhandle⟩
  | spare => cases hlabel
  | kill => cases hlabel
  | clear => cases hlabel

/-- A job that runs after a move of a round ran before it, unless the move started it, and
then it has a handle. -/
theorem Move.running_back (hmove : Move site gated label s s')
    (hrunner : site.config.runner ≠ "tmux") (hlabel : label.inRound = true) {j : ℕ} {job : Job}
    (hjob : s'.jobs[j]? = some job) (hrunning : job.status = .running) :
    s.jobs[j]? = some job ∨
      (label = .launch j ∧ ∃ n k p, HasHandle s'.procs s'.world job n k p) := by
  cases hmove with
  | ask => exact Or.inl hjob
  | probe => exact Or.inl hjob
  | save => exact Or.inl hjob
  | reap _ _ _ hreap =>
      obtain ⟨rc, w', hint, w'', -, -, -, -, rfl, -⟩ := reap_eq_ok hreap
      rcases getElem?_modify_cases hjob with ⟨-, hold⟩ | ⟨a, -, -, rfl⟩
      · exact Or.inl hold
      · rw [Job.finish_status] at hrunning
        rcases classify_status rc hint with hended | hended <;> rw [hended] at hrunning <;>
          cases hrunning
  | skip =>
      rcases getElem?_modify_cases hjob with ⟨-, hold⟩ | ⟨a, -, -, rfl⟩
      · exact Or.inl hold
      · cases hrunning
  | fail =>
      rcases getElem?_modify_cases hjob with ⟨-, hold⟩ | ⟨a, -, -, rfl⟩
      · exact Or.inl hold
      · cases hrunning
  | @launch _ s₁ i other placement argv w w₂ now hchosen hstarted htime =>
      obtain ⟨n, k, p, hjobs, -, -, hnew, -⟩ := hstarted.handles hrunner
      simp only [hjobs, placing, List.modify_modify_eq] at hjob
      rcases getElem?_modify_cases hjob with ⟨-, hold⟩ | ⟨a, rfl, ha, rfl⟩
      · exact Or.inl hold
      · rw [hchosen.found] at ha
        cases ha
        obtain ⟨q, hq⟩ := hnew.aged (Later.aged (.of_ok rfl htime)) (Set.notMem_empty k)
        exact Or.inr ⟨rfl, n, k, q, hq.session, hq.handle, hq.proc, hq.track, hq.owner,
          hq.uncollected, hq.child⟩
  | spare => cases hlabel
  | kill => cases hlabel
  | clear => cases hlabel

/-- A round keeps every running job supervised. -/
theorem Move.supervised (hmove : Move site gated label s s')
    (hrunner : site.config.runner ≠ "tmux") (hlabel : label.inRound = true)
    (hids : (s.jobs.map Job.id).Nodup) (h : Supervised s) : Supervised s' := by
  refine ⟨hmove.onward.wellFormed h.well, fun j job hjob hrunning => ?_⟩
  rcases hmove.running_back hrunner hlabel hjob hrunning with hold | ⟨-, hhandle⟩
  · obtain ⟨n, k, p, hhandle⟩ := h.handle j job hold hrunning
    obtain ⟨q, hq⟩ := hmove.keeps_handle hrunner hlabel hids h hold hrunning hjob hhandle
    exact ⟨n, k, q, hq⟩
  · exact hhandle

end Moves

end Nodepilot
