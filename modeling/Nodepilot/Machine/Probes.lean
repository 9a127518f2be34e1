import Nodepilot.Machine.Growth
import Nodepilot.Steps.Turn

/-!
# What the scheduler learns from the machine

The probes of the runner on the machine, one lemma each: a handle answers by the
process it was made for, a pid by whoever has it now, a session by its name.  Then
what a start adds to the table, and what a reap says of the process.
-/

namespace Nodepilot

open Obeys Relation

/-! ## Sessions as texts -/

/-- `f"pid:{pid}"`. -/
def pidSession (n : ℕ) : String :=
  "pid:" ++ String.ofList (intText n)

/-- `f"tmux:{session}"`. -/
def tmuxSession (name : String) : String :=
  "tmux:" ++ name

@[simp] theorem tracked_pidSession (n : ℕ) : tracked (pidSession n) = .pid (intText n) := by
  simp [tracked, pidSession]

@[simp] theorem tracked_tmuxSession (name : String) : tracked (tmuxSession name) = .tmux name := by
  simp [tracked, tmuxSession]

@[simp] theorem tracked_empty : tracked "" = .nothing := by
  simp [tracked]

theorem tmuxSession_ne_empty (name : String) : tmuxSession name ≠ "" := by
  intro h
  have htracked := congrArg tracked h
  rw [tracked_tmuxSession, tracked_empty] at htracked
  cases htracked

theorem pyInt_natText (n : ℕ) : pyInt (intText n) = .ok (n : ℤ) :=
  pyInt_intText (Int.natCast_nonneg n)

theorem intText_injective {m n : ℕ} (h : intText m = intText n) : m = n := by
  have hread : pyInt (intText m) = pyInt (intText n) := by rw [h]
  rw [pyInt_natText, pyInt_natText] at hread
  simpa using hread

theorem pidSession_injective {m n : ℕ} (h : pidSession m = pidSession n) : m = n := by
  have htracked : tracked (pidSession m) = tracked (pidSession n) := by rw [h]
  rw [tracked_pidSession, tracked_pidSession, Tracked.pid.injEq] at htracked
  exact intText_injective htracked

/-! ## The runner's questions -/

section Questions

variable {W : Type} [Host W] {job : Job} {n : ℕ} {s s' : Sys W} {alive : Bool}

/-- Where there is a handle under the pid of a job the child is polled. -/
theorem isAlive_held {digits : List Char} {pid : ℤ} {proc : Popen}
    (htracked : tracked job.session = .pid digits) (hparse : pyInt digits = .ok pid)
    (hproc : s.procs.lookup pid = some proc) (h : isAlive job s = .ok alive s') :
    ∃ rc w, Host.answer (.poll proc) s.world = .ok rc w ∧ alive = rc.isNone ∧
      s' = { s with world := w } := by
  rw [isAlive, htracked] at h
  obtain ⟨pid', s₁, hlift, h⟩ := bind_eq_ok.mp h
  rw [hparse] at hlift
  cases hlift
  obtain ⟨s₂, s₃, hget, h⟩ := bind_eq_ok.mp h
  cases hget
  simp only [hproc] at h
  obtain ⟨rc, s₄, hcall, h⟩ := bind_eq_ok.mp h
  obtain ⟨w, hanswer, rfl⟩ := call_eq_ok.mp hcall
  cases h
  exact ⟨rc, w, hanswer, rfl, rfl⟩

theorem isAlive_handle {proc : Popen} (hsession : job.session = pidSession n)
    (hproc : s.procs.lookup (n : ℤ) = some proc) (h : isAlive job s = .ok alive s') :
    ∃ rc w, Host.answer (.poll proc) s.world = .ok rc w ∧ alive = rc.isNone ∧
      s' = { s with world := w } := by
  have htracked : tracked job.session = .pid (intText n) := by
    rw [hsession, tracked_pidSession]
  exact isAlive_held htracked (pyInt_natText n) hproc h

/-- Without one the pid is probed. -/
theorem isAlive_pid (hsession : job.session = pidSession n)
    (hproc : s.procs.lookup (n : ℤ) = none) (h : isAlive job s = .ok alive s') :
    pidAlive (n : ℤ) s = .ok alive s' := by
  rw [isAlive, hsession, tracked_pidSession] at h
  obtain ⟨pid, s₁, hlift, h⟩ := bind_eq_ok.mp h
  rw [pyInt_natText] at hlift
  cases hlift
  obtain ⟨s₂, s₃, hget, h⟩ := bind_eq_ok.mp h
  cases hget
  simp only [hproc] at h
  exact h

theorem isAlive_tmux {name : String} (hsession : job.session = tmuxSession name)
    (h : isAlive job s = .ok alive s') : tmuxAlive name s = .ok alive s' := by
  rw [isAlive, hsession, tracked_tmuxSession] at h
  exact h

theorem returncode_handle {proc : Popen} {code : Option ℤ} (hsession : job.session = pidSession n)
    (hproc : s.procs.lookup (n : ℤ) = some proc) (h : returncode job s = .ok code s') :
    ∃ rc w, Host.answer (.poll proc) s.world = .ok rc w ∧ code = rc.map normalise ∧
      s' = { s with world := w } := by
  rw [returncode, hsession, tracked_pidSession] at h
  obtain ⟨pid, s₁, hlift, h⟩ := bind_eq_ok.mp h
  rw [pyInt_natText] at hlift
  cases hlift
  obtain ⟨s₂, s₃, hget, h⟩ := bind_eq_ok.mp h
  cases hget
  simp only [hproc] at h
  obtain ⟨rc, s₄, hcall, h⟩ := bind_eq_ok.mp h
  obtain ⟨w, hanswer, rfl⟩ := call_eq_ok.mp hcall
  cases h
  exact ⟨rc, w, hanswer, rfl, rfl⟩

/-- Without a handle the return code is unknown. -/
theorem returncode_pid {code : Option ℤ} (hsession : job.session = pidSession n)
    (hproc : s.procs.lookup (n : ℤ) = none) (h : returncode job s = .ok code s') :
    code = none ∧ s' = s := by
  rw [returncode, hsession, tracked_pidSession] at h
  obtain ⟨pid, s₁, hlift, h⟩ := bind_eq_ok.mp h
  rw [pyInt_natText] at hlift
  cases hlift
  obtain ⟨s₂, s₃, hget, h⟩ := bind_eq_ok.mp h
  cases hget
  simp only [hproc] at h
  cases h
  exact ⟨rfl, rfl⟩

theorem forgotten_pidSession (hsession : job.session = pidSession n) (procs : List (ℤ × Popen)) :
    forgotten job procs = popProc procs n := by
  rw [forgotten, hsession, tracked_pidSession]
  simp only [pyInt_natText]

end Questions

/-! ## Handles -/

theorem lookup_popProc (procs : List (ℤ × Popen)) (m n : ℤ) :
    (popProc procs m).lookup n = if n = m then none else procs.lookup n := by
  induction procs with
  | nil => simp [popProc]
  | cons entry rest ih =>
      obtain ⟨pid, proc⟩ := entry
      rw [List.lookup_cons]
      by_cases hpid : pid = m
      · subst hpid
        simp only [popProc, bne_self_eq_false, Bool.false_eq_true, not_false_eq_true,
          List.filter_cons_of_neg]
        rw [popProc] at ih
        rw [ih]
        by_cases hn : n = pid
        · rw [if_pos hn, if_pos hn]
        · rw [if_neg hn, if_neg hn, beq_false_of_ne hn]
      · rw [popProc, List.filter_cons_of_pos (by simpa using hpid), List.lookup_cons]
        rw [popProc] at ih
        by_cases hn : n = pid
        · simp [hn, hpid]
        · rw [beq_false_of_ne hn]
          exact ih

theorem lookup_popProc_of_ne {procs : List (ℤ × Popen)} {m n : ℤ} (hne : n ≠ m) :
    (popProc procs m).lookup n = procs.lookup n := by
  rw [lookup_popProc, if_neg hne]

theorem lookup_setProc (procs : List (ℤ × Popen)) (proc : Popen) :
    (setProc procs proc).lookup proc.pid = some proc := by
  simp [setProc]

theorem lookup_setProc_of_ne {procs : List (ℤ × Popen)} {proc : Popen} {n : ℤ}
    (hne : n ≠ proc.pid) : (setProc procs proc).lookup n = procs.lookup n := by
  rw [setProc, List.lookup_cons, beq_false_of_ne hne]
  exact lookup_popProc_of_ne hne

/-! ## Polls -/

theorem poll_machine {proc : Popen} {rc : Option ℤ} {w w' : World}
    (h : Host.answer (.poll proc) w = .ok rc w') :
    rc = (w.advance.procs[proc.serial]?).bind Proc.exit ∧ Aged {proc.serial} w w' ∧
      (rc = none → w' = w.advance) := by
  obtain ⟨hrc, haged, -, hsame⟩ := World.effect_poll (answer_ok h)
  exact ⟨hrc, (w.advance_aged _).trans haged, hsame⟩

/-- A poll of a child that has ended gives its return code. -/
theorem poll_ended {proc : Popen} {rc : Option ℤ} {w w' : World}
    (h : Host.answer (.poll proc) w = .ok rc w') {p : Proc} {code : ℤ}
    (hp : w.procs[proc.serial]? = some p) (hexit : p.exit = some code) : rc = some code := by
  obtain ⟨q, hq, hages⟩ := (w.advance_aged ∅).procs _ p hp
  rw [(poll_machine h).1, hq, Option.bind_some]
  exact hages.exit code hexit

/-- The handle of a child says when it has ended, and only then waits for it. -/
theorem isAlive_held_machine {job : Job} {digits : List Char} {pid : ℤ} {s s' : Sys World}
    {alive : Bool} {proc : Popen} (htracked : tracked job.session = .pid digits)
    (hparse : pyInt digits = .ok pid) (hproc : s.procs.lookup pid = some proc)
    (h : isAlive job s = .ok alive s') :
    Aged {proc.serial} s.world s'.world ∧
      (alive = true → s'.world = s.world.advance) ∧
      (alive = false → ∃ p rc, s'.world.procs[proc.serial]? = some p ∧ p.exit = some rc) := by
  obtain ⟨rc, w, hanswer, rfl, rfl⟩ := isAlive_held htracked hparse hproc h
  obtain ⟨hrc, haged, hsame⟩ := poll_machine hanswer
  refine ⟨haged, fun halive => hsame (Option.isNone_iff_eq_none.mp halive), fun hdead => ?_⟩
  obtain ⟨code, hcode⟩ := Option.ne_none_iff_exists'.mp (Option.isNone_eq_false_iff.mp hdead |>
    Option.isSome_iff_ne_none.mp)
  rw [hcode] at hrc
  obtain ⟨p, hp, hexit⟩ := Option.bind_eq_some_iff.mp hrc.symm
  obtain ⟨q, hq, hages⟩ := (World.effect_poll (answer_ok hanswer)).2.1.procs _ p hp
  exact ⟨q, code, hq, hages.exit code hexit⟩

theorem isAlive_handle_machine {job : Job} {n : ℕ} {s s' : Sys World} {alive : Bool} {proc : Popen}
    (hsession : job.session = pidSession n) (hproc : s.procs.lookup (n : ℤ) = some proc)
    (h : isAlive job s = .ok alive s') :
    Aged {proc.serial} s.world s'.world ∧
      (alive = true → s'.world = s.world.advance) ∧
      (alive = false → ∃ p rc, s'.world.procs[proc.serial]? = some p ∧ p.exit = some rc) := by
  have htracked : tracked job.session = .pid (intText n) := by
    rw [hsession, tracked_pidSession]
  exact isAlive_held_machine htracked (pyInt_natText n) hproc h

theorem normalise_eq_zero {rc : ℤ} : normalise rc = 0 ↔ rc = 0 := by
  unfold normalise
  split <;> omega

theorem classify_some_done {code : ℤ} {hint : Bool} :
    (classify (some code) hint).status = .done ↔ code = 0 := by
  unfold classify
  dsimp only
  split
  · simp_all
  · split
    · simp_all
    · split <;> simp_all

/-- The classification of a return code. -/
theorem classify_normalise {rc : ℤ} {hint : Bool} :
    (classify (some (normalise rc)) hint).exitCode = some (normalise rc) ∧
      ((classify (some (normalise rc)) hint).status = .done ↔ rc = 0) := by
  refine ⟨?_, by rw [classify_some_done, normalise_eq_zero]⟩
  unfold classify
  dsimp only
  split
  · rfl
  · split
    · simp_all
    · split <;> rfl

/-- A job with a handle is reaped by what its process has returned. -/
theorem reap_handle_machine {job : Job} {n : ℕ} {s s' : Sys World} {outcome : Outcome}
    {proc : Popen} {p : Proc} {rc : ℤ} (hsession : job.session = pidSession n)
    (hproc : s.procs.lookup (n : ℤ) = some proc) (hp : s.world.procs[proc.serial]? = some p)
    (hexit : p.exit = some rc) (h : reap job s = .ok outcome s') :
    (∃ hint, outcome = classify (some (normalise rc)) hint) ∧
      Aged {proc.serial} s.world s'.world := by
  obtain ⟨code, w₁, hint, w₂, hcode, -, hlater, rfl, rfl, -⟩ := reap_eq_ok h
  obtain ⟨rc', w, hanswer, rfl, hworld⟩ := returncode_handle hsession hproc hcode
  cases hworld
  have haged : Aged {proc.serial} w₁ w₂ := (Later.aged hlater).mono (Set.empty_subset _)
  refine ⟨⟨hint, ?_⟩, (poll_machine hanswer).2.1.trans haged⟩
  rw [poll_ended hanswer hp hexit, Option.map_some]

/-! ## Probing a pid -/

/-- A stat text does not make the process look like a zombie that it is not. -/
def legible (comm : String) : Prop :=
  ∀ n, statAlive (World.statText n comm false) = true

theorem statOf_alive {w : World} {p : Proc} {n : ℕ} (hw : WellFormed w) (hmem : p ∈ w.procs)
    (htrack : p.track = .pid n) (halive : p.exit = none) :
    w.statOf (String.ofList (intText n)) = some (World.statText n p.comm false) := by
  have huncollected : p.collected = false := by
    by_contra hcollected
    exact hw.waited p hmem (by simpa using hcollected) halive
  unfold World.statOf
  split
  swap
  · rename_i hfind
    have hnone := List.find?_eq_none.mp hfind p hmem
    simp [huncollected, htrack] at hnone
  -- the table has one process of a pid, so the one found is the one meant
  rename_i q hfind
  have hq := List.find?_some hfind
  have hqmem := List.mem_of_find?_eq_some hfind
  rw [Bool.and_eq_true] at hq
  obtain ⟨hqc, hqn⟩ := hq
  cases hqtrack : q.track with
  | session name =>
      rw [hqtrack] at hqn
      cases hqn
  | pid m =>
      rw [hqtrack] at hqn
      have hm : m = n := by
        apply intText_injective
        simpa using congrArg String.toList (beq_iff_eq.mp hqn)
      subst hm
      obtain ⟨j, hj⟩ := List.mem_iff_getElem?.mp hmem
      obtain ⟨k, hk⟩ := List.mem_iff_getElem?.mp hqmem
      have hjk := hw.pids j k p q m hj hk htrack hqtrack huncollected (by simpa using hqc)
      subst hjk
      rw [hj] at hk
      cases hk
      simp only [halive, Option.isSome_none]

/-- A living process of a legible name is never taken for dead by its pid. -/
theorem pidAlive_machine {n : ℕ} {s s' : Sys World} (hw : WellFormed s.world)
    (h : pidAlive (n : ℤ) s = .ok false s') {p : Proc} (hmem : p ∈ s'.world.procs)
    (htrack : p.track = .pid n) (halive : p.exit = none) : ¬ legible p.comm := by
  have hquiet := (quiet_pidAlive (n : ℤ)).of_ok h
  obtain ⟨w', hlater, hworld⟩ := hquiet
  have hw' : WellFormed s'.world := by
    rw [hworld]
    exact (Later.onward hlater).wellFormed hw
  have huncollected : p.collected = false := by
    by_contra hcollected
    exact hw'.waited p hmem (by simpa using hcollected) halive
  obtain ⟨answer, s₁, hprobe, h⟩ := bind_eq_ok.mp h
  cases answer with
  | some b =>
      cases h
      rcases tryExcept_eq_ok.mp hprobe with hbody | ⟨e, s₂, hraise, hcaught, hhandler⟩
      · obtain ⟨⟨⟩, s₂, -, hpure⟩ := bind_eq_ok.mp hbody
        cases hpure
      · -- the signal found nobody of that pid
        rw [pure_apply, EStateM.Result.ok.injEq] at hhandler
        obtain ⟨-, rfl⟩ := hhandler
        rcases bind_eq_error.mp hraise with hraise | ⟨⟨⟩, s₃, -, hpure⟩
        · obtain ⟨w₂, hanswer, rfl⟩ := call_eq_error.mp hraise
          rcases World.answer_eq_error hanswer with ⟨-, hdied | ⟨-, hcertain⟩⟩ | heffect
          · rw [hdied] at hcaught
            cases hcaught
          · cases hcertain
          · have hused : w₂.procs.any (World.hasPid n) = true :=
              List.any_eq_true.mpr ⟨p, hmem, hasPid_iff.mpr ⟨huncollected, htrack⟩⟩
            rw [(World.effect_eq_error heffect).1] at hused
            rw [show s.world.advance.effect (.kill0 (n : ℤ)) = s.world.advance.signal n from rfl,
              World.signal, if_pos hused] at heffect
            cases heffect
        · cases hpure
  | none =>
      rcases tryExcept_eq_ok.mp h with hbody | ⟨e, s₂, -, -, hhandler⟩
      · -- the stat text was read, and its third field is a Z
        obtain ⟨text, s₂, hcall, hpure⟩ := bind_eq_ok.mp hbody
        obtain ⟨w₂, hanswer, rfl⟩ := call_eq_ok.mp hcall
        rw [pure_apply, EStateM.Result.ok.injEq] at hpure
        obtain ⟨hdead, rfl⟩ := hpure
        have heffect := answer_ok hanswer
        simp only [World.effect] at heffect
        split at heffect
        · rename_i text' htext
          cases heffect
          rw [statOf_alive hw' hmem htrack halive] at htext
          cases htext
          intro hlegible
          rw [hlegible n] at hdead
          cases hdead
        · cases heffect
      · cases hhandler

/-! ## Asking for a session -/

theorem tmuxAlive_machine {name : String} {s s' : Sys World} {alive : Bool}
    (htmux : "tmux" ∈ s.world.programs) (h : tmuxAlive name s = .ok alive s') :
    alive = (s'.world.target name).isSome := by
  obtain ⟨found, s₁, hcall, h⟩ := bind_eq_ok.mp h
  obtain ⟨w₁, hanswer, rfl⟩ := call_eq_ok.mp hcall
  have heffect := answer_ok hanswer
  have hfound : found = true := by
    have hsame : s.world.advance.programs = s.world.programs := (s.world.advance_aged ∅).programs
    cases heffect
    rw [hsame]
    simpa using htmux
  subst hfound
  obtain ⟨rc, s₂, hcall', h⟩ := bind_eq_ok.mp h
  obtain ⟨w₂, hanswer', rfl⟩ := call_eq_ok.mp hcall'
  cases answer_ok hanswer'
  cases h
  dsimp only
  split <;> simp_all

/-! ## Starting -/

/-- The jobs whose processes are alive. -/
def World.aliveJobs (w : World) : List Job :=
  (w.procs.filter fun p => p.exit == none).map Proc.job

theorem popen_machine {job : Job} {argv : List String} {workdir : String}
    {env : List (String × String)} {proc : Popen} {w w' : World}
    (h : Host.answer (.popen job argv workdir env) w = .ok proc w') :
    proc = ⟨w.advance.freshPid, w.advance.procs.length⟩ ∧
      w'.procs = w.advance.procs ++ [{ track := .pid w.advance.freshPid, job := job }] ∧
      w'.launches = ⟨job, w.advance.aliveJobs⟩ :: w.launches := by
  have hsame : w.advance.launches = w.launches := (w.advance_aged ∅).launches
  cases answer_ok h
  exact ⟨rfl, rfl, by rw [← hsame]; rfl⟩

theorem tmuxNewSession_machine {job : Job} {name line : String} {env : List (String × String)}
    {w w' : World} (h : Host.answer (.tmuxNewSession job name line env) w = .ok () w') :
    w'.procs = w.advance.procs ++ [{ track := .session (World.sessionText name), job := job }] ∧
      w'.launches = ⟨job, w.advance.aliveJobs⟩ :: w.launches := by
  have hsame : w.advance.launches = w.launches := (w.advance_aged ∅).launches
  have heffect := answer_ok h
  simp only [World.effect] at heffect
  split at heffect
  · cases heffect
  · cases heffect
    exact ⟨rfl, by rw [← hsame]; rfl⟩

theorem tmuxKillSession_machine {name : String} {rc : ℤ} {w w' : World}
    (h : Host.answer (.tmuxKillSession name) w = .ok rc w') :
    w'.launches = w.launches ∧ ((w.advance.target name = none ∧ w' = w.advance) ∨
      ∃ session, w.advance.target name = some session ∧
        w'.procs = w.advance.procs.map (World.endSession session name)) := by
  have hsame : w.advance.launches = w.launches := (w.advance_aged ∅).launches
  have heffect := answer_ok h
  simp only [World.effect] at heffect
  split at heffect
  · rename_i hnone
    cases heffect
    exact ⟨hsame, .inl ⟨hnone, rfl⟩⟩
  · rename_i session hsession
    cases heffect
    exact ⟨hsame, .inr ⟨session, hsession, rfl⟩⟩

end Nodepilot
