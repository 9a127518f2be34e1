import Nodepilot.Machine.Probes
import Nodepilot.Machine.Trial
import Nodepilot.Safety.Exclusivity

/-!
# What keeps a job running after a restart

A job that a restart finds running is spared by the start-up if its process is
found or its scope is there, and by the loop only if its process is found.  So a
job whose scope stays is kept as long as the loop finds its process too
(`scope_keeps_found`), and is called done as soon as it does not.

The conditions are about the host: they hold of every world on the way from one
state to another, and no handle of the present process stands for the job.
-/

namespace Nodepilot

open Obeys Relation

/-! ## What a probe finds -/

namespace World

/-- Whether somebody has a pid. -/
def taken (w : World) (pid : ℤ) : Bool :=
  w.procs.any (hasPid pid) || w.others.any fun o => (o.pid : ℤ) == pid

/-- Whether the job is found by what tracks it: somebody has the pid and does not look like
a zombie, or there is a session the name means. -/
def finds (w : World) (job : Job) : Bool :=
  match tracked job.session with
  | .tmux name => w.programs.contains "tmux" && (w.target name).isSome
  | .pid digits =>
      match pyInt digits with
      | .ok pid => w.taken pid && (w.statOf (String.ofList (intText pid))).all statAlive
      | .error _ => false
  | .nothing => false

/-- The directory of the slice: the first candidate there is. -/
def sliceDir (w : World) (sliceName : String) : Option String :=
  (sliceDirCandidates 1000 sliceName).find? fun cand => w.dirs.contains cand

/-- Whether the scope of a job is there, the slice being in a directory. -/
def hasScope (w : World) (site : Site) (jobId dir : String) : Bool :=
  w.sliceDir site.config.memorySlice == some dir &&
    w.dirs.contains (joinPath dir (scopeUnitName site jobId))

theorem hasScope_iff {w : World} {site : Site} {jobId dir : String} :
    w.hasScope site jobId dir = true ↔ w.sliceDir site.config.memorySlice = some dir ∧
      w.dirs.contains (joinPath dir (scopeUnitName site jobId)) = true := by
  rw [hasScope, Bool.and_eq_true, beq_iff_eq]

theorem signal_noProcess {w : World} {pid : ℤ} {e : Exc} {w' : World}
    (h : w.signal pid = .error e w') (he : e.cls = .processLookupError) : w.taken pid = false := by
  unfold signal at h
  split at h
  · cases h
  · rename_i hfree
    split at h
    · split at h
      · cases h
      · cases h
        cases he
    · rename_i hnone
      rw [taken, Bool.or_eq_false_iff]
      refine ⟨by simpa using hfree, ?_⟩
      rw [List.any_eq_false]
      exact fun o ho => List.find?_eq_none.mp hnone o ho

theorem taken_freshPid (w : World) : w.taken w.freshPid = false := by
  have hfree := w.pidInUse_freshPid
  simpa [pidInUse, taken] using hfree

end World

/-- The present process has no handle for what tracks the job. -/
def NoHandle (job : Job) (procs : List (ℤ × Popen)) : Prop :=
  ∀ digits pid, tracked job.session = .pid digits → pyInt digits = .ok pid →
    procs.lookup pid = none

/-- A probe that answers no finds nobody in the world it leaves. -/
theorem pidAlive_taken {pid : ℤ} {s s' : Sys World} (h : pidAlive pid s = .ok false s') :
    (s'.world.taken pid && (s'.world.statOf (String.ofList (intText pid))).all statAlive) =
      false := by
  rw [Bool.and_eq_false_iff]
  obtain ⟨answer, s₁, hprobe, h⟩ := bind_eq_ok.mp h
  cases answer with
  | some b =>
      left
      cases h
      rcases tryExcept_eq_ok.mp hprobe with hbody | ⟨e, s₂, hraise, hcaught, hhandler⟩
      · obtain ⟨⟨⟩, s₂, -, hpure⟩ := bind_eq_ok.mp hbody
        cases hpure
      · rw [pure_apply, EStateM.Result.ok.injEq, Option.some.injEq, beq_eq_false_iff_ne] at hhandler
        obtain ⟨hclass, rfl⟩ := hhandler
        rcases bind_eq_error.mp hraise with hraise | ⟨⟨⟩, s₃, -, hpure⟩
        · obtain ⟨w₂, hanswer, rfl⟩ := call_eq_error.mp hraise
          have hlookup : e.cls = .processLookupError := by
            rw [Bool.or_eq_true, beq_iff_eq, beq_iff_eq] at hcaught
            exact hcaught.resolve_right hclass
          rcases World.answer_eq_error hanswer with ⟨-, hdied | ⟨-, hcertain⟩⟩ | heffect
          · rw [hdied] at hlookup
            cases hlookup
          · cases hcertain
          · have hsame := (World.effect_eq_error heffect).1
            rw [hsame]
            exact World.signal_noProcess heffect hlookup
        · cases hpure
  | none =>
      right
      rcases tryExcept_eq_ok.mp h with hbody | ⟨e, s₂, -, -, hhandler⟩
      · obtain ⟨text, s₂, hcall, hpure⟩ := bind_eq_ok.mp hbody
        obtain ⟨w₂, hanswer, rfl⟩ := call_eq_ok.mp hcall
        rw [pure_apply, EStateM.Result.ok.injEq] at hpure
        obtain ⟨hdead, rfl⟩ := hpure
        have heffect := answer_ok hanswer
        simp only [World.effect] at heffect
        split at heffect
        · rename_i text' htext
          cases heffect
          rw [htext, Option.all_some]
          exact hdead
        · cases heffect
      · cases hhandler

theorem tmuxAlive_target {name : String} {s s' : Sys World} (h : tmuxAlive name s = .ok false s') :
    (s'.world.programs.contains "tmux" && (s'.world.target name).isSome) = false := by
  rw [Bool.and_eq_false_iff]
  obtain ⟨found, s₁, hcall, h⟩ := bind_eq_ok.mp h
  obtain ⟨w₁, hanswer, rfl⟩ := call_eq_ok.mp hcall
  have hfound : found = w₁.programs.contains "tmux" := by
    cases answer_ok hanswer
    rfl
  cases found with
  | false =>
      left
      cases h
      exact hfound.symm
  | true =>
      right
      obtain ⟨rc, s₂, hcall', h⟩ := bind_eq_ok.mp h
      obtain ⟨w₂, hanswer', rfl⟩ := call_eq_ok.mp hcall'
      cases answer_ok hanswer'
      rw [pure_apply, EStateM.Result.ok.injEq] at h
      obtain ⟨hdead, rfl⟩ := h
      dsimp only
      split at hdead <;> simp_all

theorem isAlive_finds {job : Job} {s s' : Sys World} (hhandle : NoHandle job s.procs)
    (h : isAlive job s = .ok false s') : s'.world.finds job = false := by
  unfold isAlive at h
  unfold World.finds
  cases htracked : tracked job.session with
  | tmux name =>
      rw [htracked] at h
      exact tmuxAlive_target h
  | nothing => rfl
  | pid digits =>
      rw [htracked] at h
      obtain ⟨pid, s₁, hlift, h⟩ := bind_eq_ok.mp h
      obtain ⟨hparse, rfl⟩ := liftExcept_eq_ok.mp hlift
      obtain ⟨s₂, s₃, hget, h⟩ := bind_eq_ok.mp h
      cases hget
      simp only [hhandle digits pid htracked hparse] at h
      simp only [hparse]
      exact pidAlive_taken h

/-! ## What the start-up finds -/

theorem firstDir_throughout {cands : List String} {s s' : Sys World} {r : Option String}
    {dir : String} (h : firstDir cands s = .ok r s')
    (hdir : Throughout (fun v => (cands.find? fun cand => v.dirs.contains cand) = some dir)
      s.world s'.world) : r = some dir := by
  induction cands generalizing s with
  | nil =>
      cases h
      cases hdir.start (.refl _)
  | cons cand rest ih =>
      obtain ⟨found, s₁, hcall, h⟩ := bind_eq_ok.mp h
      obtain ⟨w₁, hanswer, rfl⟩ := call_eq_ok.mp hcall
      have hstep : Onward s.world w₁ := .of_ok hanswer
      have hfound : found = w₁.dirs.contains cand := by
        cases answer_ok hanswer
        rfl
      cases found with
      | true =>
          cases h
          have hfirst := hdir.stop hstep
          simp only [List.find?_cons, ← hfound] at hfirst
          exact hfirst
      | false =>
          have honward : Onward w₁ s'.world := by
            obtain ⟨w', hlater, rfl⟩ := (quiet_firstDir rest).of_ok h
            exact Later.onward hlater
          have hhere := hdir w₁ hstep honward
          simp only [List.find?_cons, ← hfound] at hhere
          refine ih h fun v hv hv' => ?_
          have hthere : ((cand :: rest).find? fun cand => v.dirs.contains cand) = some dir :=
            hdir v (hstep.trans hv) hv'
          rw [List.find?_cons] at hthere
          split at hthere
          · -- the candidate came up after it was looked for, so it is not the one of the slice
            cases hthere
            have hsome := List.find?_some hhere
            rw [← hfound] at hsome
            cases hsome
          · exact hthere

theorem aliveScope_throughout {site : Site} {job : Job} {s s' : Sys World} {b : Bool} {dir : String}
    (hslice : site.config.memorySlice ≠ "") (h : aliveScope site job s = .ok b s')
    (hscope : Throughout (fun v => v.hasScope site job.id dir = true) s.world s'.world) :
    b = true := by
  rw [aliveScope, if_neg hslice] at h
  obtain ⟨found, s₁, hdir, h⟩ := bind_eq_ok.mp h
  obtain ⟨uid, s₂, hcall, hfirst⟩ := bind_eq_ok.mp hdir
  obtain ⟨w₂, hanswer, rfl⟩ := call_eq_ok.mp hcall
  have huid : uid = 1000 := by
    cases answer_ok hanswer
    rfl
  subst huid
  obtain ⟨w₁, hlater, rfl⟩ := (quiet_firstDir _).of_ok hfirst
  have hfrom : Onward s.world w₂ := .of_ok hanswer
  have hto : Onward w₂ w₁ := Later.onward hlater
  have hrest : Onward w₁ s'.world := by
    cases found with
    | none =>
        cases h
        exact .refl _
    | some cg =>
        obtain ⟨w₃, hanswer', rfl⟩ := call_eq_ok.mp h
        exact .of_ok hanswer'
  have hfound : found = some dir := by
    refine firstDir_throughout hfirst fun v hv hv' => ?_
    exact (World.hasScope_iff.mp (hscope v (hfrom.trans hv) (hv'.trans hrest))).1
  subst hfound
  obtain ⟨w₃, hanswer', rfl⟩ := call_eq_ok.mp h
  have hend := World.hasScope_iff.mp (hscope.stop ((hfrom.trans hto).trans hrest))
  cases answer_ok hanswer'
  exact hend.2

/-! ## Moves -/

/-- The job runs as it was loaded, without a handle. -/
structure Kept (i : ℕ) (job : Job) (s : Sys World) : Prop where
  found : s.jobs[i]? = some job
  handle : NoHandle job s.procs

/-- A start-up keeps a running job whose scope is there all along. -/
theorem Move.kept_startUp {site : Site} {label : Label} {s s' : Sys World} {i : ℕ} {job : Job}
    {dir : String} (hmove : Move site true label s s') (hlabel : label.inStartUp = true)
    (hslice : site.config.memorySlice ≠ "")
    (hscope : Throughout (fun v => v.hasScope site job.id dir = true) s.world s'.world)
    (h : Kept i job s) : Kept i job s' := by
  cases hmove with
  | ask => exact ⟨h.found, h.handle⟩
  | probe => exact ⟨h.found, h.handle⟩
  | spare => exact ⟨h.found, h.handle⟩
  | save => exact ⟨h.found, h.handle⟩
  | @clear _ k other w₁ w₂ w₃ now hjob hrunning hdead hgone htime =>
      have hother : k ≠ i := by
        rintro rfl
        rw [h.found] at hjob
        cases hjob
        obtain ⟨w, hseen, hworld⟩ := (looking_isAlive job).of_ok hdead
        cases hworld
        have hactive := aliveScope_throughout hslice hgone
          (hscope.part (Seen.onward hseen) (.of_ok htime))
        cases hactive
      exact ⟨(getElem?_modify_of_ne hother).trans h.found, h.handle⟩
  | _ => cases hlabel

/-- A start adds no handle for a job that is found. -/
theorem Started.noHandle {site : Site} {i : ℕ} {started job : Job} {argv : List String}
    {s s' : Sys World} (h : Started site i started argv s s')
    (hfound : Always (fun v => v.finds job = true) s.world s'.world)
    (hhandle : NoHandle job s.procs) : NoHandle job s'.procs := by
  cases h with
  | tmux => exact hhandle
  | @subprocess workdir proc w₁ w₂ w₃ hrunner hbefore hpopen hafter =>
      intro digits pid htracked hparse
      obtain ⟨rfl, -, -⟩ := popen_machine hpopen
      have htaken : w₁.advance.taken pid = true := by
        have hfinds := hfound.within (.popen started argv workdir started.env) w₁ (Later.onward hbefore)
          (by rw [after_of_ok hpopen]; exact Later.onward hafter)
        simp only [World.finds, htracked, hparse, Bool.and_eq_true] at hfinds
        exact hfinds.1
      have hne : pid ≠ w₁.advance.freshPid := by
        rintro rfl
        rw [World.taken_freshPid] at htaken
        cases htaken
      rw [lookup_setProc_of_ne hne]
      exact hhandle digits pid htracked hparse

/-- A round keeps a running job that is found all along. -/
theorem Move.kept_round {site : Site} {label : Label} {s s' : Sys World} {i : ℕ} {job : Job}
    (hmove : Move site true label s s') (hlabel : label.inRound = true)
    (hrunning : job.status = .running)
    (hfound : Always (fun v => v.finds job = true) s.world s'.world) (h : Kept i job s) :
    Kept i job s' := by
  have hother : ∀ {k : ℕ} {f : Job → Job} {other : Job}, s.jobs[k]? = some other →
      other.status = .pending → (s.jobs.modify k f)[i]? = some job := by
    intro k f other hjob hpending
    have hne : k ≠ i := by
      rintro rfl
      rw [h.found] at hjob
      cases hjob
      rw [hrunning] at hpending
      cases hpending
    exact (getElem?_modify_of_ne hne).trans h.found
  cases hmove with
  | ask => exact ⟨h.found, h.handle⟩
  | probe => exact ⟨h.found, h.handle⟩
  | save => exact ⟨h.found, h.handle⟩
  | skip hjob hpending => exact ⟨hother hjob hpending, h.handle⟩
  | fail hchosen => exact ⟨hother hchosen.found hchosen.pending, h.handle⟩
  | @launch _ s₁ k other placement argv w w₂ now hchosen hstarted htime =>
      obtain ⟨session, hlist⟩ := hstarted.launched
      refine ⟨?_, ?_⟩
      · simp only [hlist]
        exact hother hchosen.found hchosen.pending
      · exact hstarted.noHandle (hfound.part (Later.onward hchosen.later) (.of_ok htime)) h.handle
  | @reap _ k other outcome w₁ w₂ w₃ w₄ now cooldown hjob hrunning' hdead hreap htime hcooled =>
      have hafter : Onward w₁ w₄ := by
        obtain ⟨rc, w', hint, w'', -, hseen, hlater, hsame, -⟩ := reap_eq_ok hreap
        cases hsame
        exact (((Seen.onward hseen).trans (Later.onward hlater)).trans (.of_ok htime)).trans
          hcooled.onward
      have hne : k ≠ i := by
        rintro rfl
        rw [h.found] at hjob
        cases hjob
        obtain ⟨w, hseen, hworld⟩ := (looking_isAlive job).of_ok hdead
        cases hworld
        have hhere : w₁.finds job = true := hfound.between w₁ (Seen.onward hseen) hafter
        rw [isAlive_finds h.handle hdead] at hhere
        cases hhere
      refine ⟨?_, fun digits pid htracked hparse => ?_⟩
      · exact (getElem?_modify_of_ne hne).trans h.found
      · have hnone := h.handle digits pid htracked hparse
        simp only [forgotten]
        split
        · split
          · rw [lookup_popProc, hnone, ite_self]
          · exact hnone
        · exact hnone
  | spare => cases hlabel
  | kill => cases hlabel
  | clear => cases hlabel

/-! ## A run after a restart -/

/-- A state of the loop: one it stops in, or one between two of its moves. -/
inductive InLoop (site : Site) (s s' : Sys World) : Prop
  | stopped {maxTicks : Option ℕ} {tick fuel : ℕ} {b : Bool}
      (h : runLoop site maxTicks tick fuel s = .ok b s')
  | between (h : ReflTransGen (Step site true Label.inRound) s s')

theorem InLoop.path {site : Site} {s s' : Sys World} (h : InLoop site s s') :
    ReflTransGen (Step site true Label.inRound) s s' := by
  cases h with
  | stopped h => exact ((runLoop_obeys site _ _ _).returns trivial h).1
  | between h => exact h

/-- A job that a restart finds running and whose scope is there all along stays as it is and
keeps its cores, as long as the loop finds its process or its session as well. -/
theorem scope_keeps_found (site : Site) (hslice : site.config.memorySlice ≠ "")
    (s s₀ s₁ s₂ : Sys World) (hload : fromQueue site s = .ok () s₀)
    (hstart : startUp site s₀ = .ok () s₁) (hloop : InLoop site s₁ s₂)
    (i : ℕ) (job : Job) (hjob : s₀.jobs[i]? = some job) (hrunning : job.status = .running)
    (dir : String)
    (hscope : Throughout (fun v => v.hasScope site job.id dir = true) s₀.world s₂.world)
    (hfound : Always (fun v => v.finds job = true) s₁.world s₂.world) :
    s₂.jobs[i]? = some job ∧
      ∀ occupied, occupiedCores site s₂.jobs = .ok occupied → blockOf job ⊆ occupied := by
  have hstartPath := ((startUp_obeys site).returns trivial hstart).1
  have hloopPath := hloop.path
  have hloaded : Kept i job s₀ := by
    obtain ⟨w, -, rfl⟩ := fromQueue_eq_ok hload
    exact ⟨hjob, fun digits pid _ _ => rfl⟩
  have hstarted : ∀ s', ReflTransGen (Step site true Label.inStartUp) s₀ s' →
      Onward s'.world s₂.world → Kept i job s' := by
    intro s' hpath honward
    induction hpath with
    | refl => exact hloaded
    | tail hpath hlast ih =>
        obtain ⟨label, hlabel, hmove⟩ := hlast
        exact hmove.kept_startUp hlabel hslice (hscope.part (onward_of_path hpath) honward)
          (ih (hmove.onward.trans honward))
  have hkept : ∀ s', ReflTransGen (Step site true Label.inRound) s₁ s' →
      Onward s'.world s₂.world → Kept i job s' := by
    intro s' hpath honward
    induction hpath with
    | refl => exact hstarted s₁ hstartPath honward
    | tail hpath hlast ih =>
        obtain ⟨label, hlabel, hmove⟩ := hlast
        exact hmove.kept_round hlabel hrunning (hfound.part (onward_of_path hpath) honward)
          (ih (hmove.onward.trans honward))
  have hend := hkept s₂ hloopPath (.refl _)
  exact ⟨hend.found, fun occupied hoccupied =>
    blockOf_subset_occupiedFrom hoccupied (List.mem_of_getElem? hend.found) hrunning⟩

/-! ## On the machine -/

/-- A session that is there at the end has been found all along. -/
theorem always_finds_session {w w' : World} {job : Job} {k : ℕ} {p q : Proc} {name : String}
    (hsession : job.session = tmuxSession name) (htmux : "tmux" ∈ w.programs)
    (hp : w.procs[k]? = some p) (htrack : p.track = .session name)
    (hq : w'.procs[k]? = some q) (halive : q.exit = none) :
    Always (fun v => v.finds job = true) w w' := by
  have hfinds : ∀ v : World, Grows w v → Grows v w' → v.finds job = true := by
    intro v hbefore hafter
    obtain ⟨r, hr, hages⟩ := hbefore.procs k p hp
    obtain ⟨q', hq', hages'⟩ := hafter.procs k r hr
    rw [hq] at hq'
    cases hq'
    have hmem : name ∈ v.sessions := World.mem_sessions.mpr
      ⟨r, List.mem_of_getElem? hr, hages.track.trans htrack, hages'.alive halive⟩
    have hprograms : "tmux" ∈ v.programs := hbefore.programs ▸ htmux
    simp [World.finds, hsession, tracked_tmuxSession, World.target, hmem, hprograms]
  refine ⟨fun v hv hv' => hfinds v hv.grows hv'.grows, fun c v hv hv' => ?_⟩
  have hadvance : Grows w v.advance := hv.grows.trans (v.advance_aged ∅).grows
  exact hfinds v.advance hadvance ((advance_grows_after c v).trans hv'.grows)

/-- Where nothing happens a scope stays. -/
theorem throughout_hasScope {w w' : World} {site : Site} {jobId dir : String}
    (hstill : w.agenda = []) (h : w.hasScope site jobId dir = true) :
    Throughout (fun v => v.hasScope site jobId dir = true) w w' := by
  intro v hv _
  have hdirs : v.dirs = w.dirs := (still_of_onward hv hstill).2.2
  simp only [World.hasScope, World.sliceDir, hdirs]
  exact h

/-- A job with a scope, tracked by what a session text says. -/
def scopedJob (session : String) : Job :=
  { id := "a", command := "true", cores := 2, status := .running, session := session,
    cpuList := "0-1", numaNode := 0 }

def scopeSite : Site :=
  smallSite [] { smallConfig with memorySlice := "nodepilot.slice" }

def scopeDir : String :=
  "/sys/fs/cgroup/nodepilot.slice"

/-- An orchestrator about to be restarted from a state file that holds the job alone, its
scope being there. -/
def scopedStart (session : String) (procs : List Proc) : Sys World :=
  { jobs := [], stateFile := some [scopedJob session],
    world :=
      { procs := procs, programs := ["tmux"],
        dirs := [scopeDir, scopeDir ++ "/nodepilot-a.scope"] } }

theorem throughout_scopedStart (session : String) (procs : List Proc) (w' : World) :
    Throughout (fun v => v.hasScope scopeSite "a" scopeDir = true) (scopedStart session procs).world
      w' := by
  have hscope : (scopedStart "" []).world.hasScope scopeSite "a" scopeDir = true := by decide +kernel
  exact throughout_hasScope rfl hscope

/-- The session of the job, which lives on. -/
def scopedSession : Proc :=
  { track := .session "nodepilot_a", job := scopedJob (tmuxSession "nodepilot_a") }

/-- A tick leaves the job running whose session is there. -/
theorem scope_keeps_found_session : ∃ s₂ : Sys World,
    s₂.jobs[0]? = some (scopedJob (tmuxSession "nodepilot_a")) ∧
    ∀ occupied, occupiedCores scopeSite s₂.jobs = .ok occupied → {0, 1} ⊆ occupied := by
  obtain ⟨b, s₂, hrun, hends⟩ := of_returns
    (show returns ((do
      fromQueue scopeSite
      startUp scopeSite
      runLoop scopeSite (some 1) 1 1) (scopedStart (tmuxSession "nodepilot_a") [scopedSession]))
      (fun s => s.world.procs.map Proc.exit == [none]) = true by decide +kernel)
  obtain ⟨⟨⟩, s₀, hload, hrun⟩ := bind_eq_ok.mp hrun
  obtain ⟨⟨⟩, s₁, hstart, hloop⟩ := bind_eq_ok.mp hrun
  obtain ⟨w₀, hlater, rfl⟩ := fromQueue_eq_ok hload
  have honward := onward_of_path ((startUp_obeys scopeSite).returns trivial hstart).1
  have hscope := (throughout_scopedStart (tmuxSession "nodepilot_a") [scopedSession] s₂.world).part
    (Later.onward hlater) (.refl _)
  -- the session is in the table after the start-up, and alive at the end
  have hgrows : Grows (scopedStart (tmuxSession "nodepilot_a") [scopedSession]).world s₁.world :=
    (Later.onward hlater).grows.trans honward.grows
  obtain ⟨p, hp, hages⟩ := hgrows.procs 0 scopedSession rfl
  obtain ⟨q, hq, halive⟩ : ∃ q, s₂.world.procs[0]? = some q ∧ q.exit = none := by
    have hget := congrArg (fun exits : List (Option ℤ) => exits[0]?) (beq_iff_eq.mp hends)
    simpa [List.getElem?_map] using hget
  have hfound := @always_finds_session _ _ (scopedJob (tmuxSession "nodepilot_a")) _ _ _ _ rfl
    (hgrows.programs ▸ List.mem_singleton_self _) hp hages.track hq halive
  have hkept := scope_keeps_found scopeSite (by decide) _ _ s₁ s₂ hload hstart (.stopped hloop) 0
    (scopedJob (tmuxSession "nodepilot_a")) rfl rfl scopeDir hscope hfound
  have hblock : blockOf (scopedJob (tmuxSession "nodepilot_a")) = {0, 1} := by decide +kernel
  exact ⟨s₂, hkept.1, hblock ▸ hkept.2⟩

/-- No core is taken. -/
def frees (site : Site) (jobs : List Job) : Bool :=
  match occupiedCores site jobs with
  | .ok occupied => occupied = ∅
  | .error _ => false

theorem frees_eq_true {site : Site} {jobs : List Job} (h : frees site jobs = true) :
    occupiedCores site jobs = .ok ∅ := by
  unfold frees at h
  split at h
  · rename_i occupied hoccupied
    rw [hoccupied, of_decide_eq_true h]
  · cases h

/-- A job whose process is gone is called done by the first tick, its scope being there all
along, and its cores are given back. -/
theorem scope_keeps_nothing_alone : ∃ (s s₀ s₂ : Sys World) (job : Job) (b : Bool),
    fromQueue scopeSite s = .ok () s₀ ∧ s₀.jobs = [job] ∧ job.status = .running ∧
    run scopeSite (some 1) 1 s₀ = .ok b s₂ ∧
    Throughout (fun v => v.hasScope scopeSite job.id scopeDir = true) s₀.world s₂.world ∧
    s₂.jobs.map Job.status = [.done] ∧ blockOf job = {0, 1} ∧
    occupiedCores scopeSite s₂.jobs = .ok ∅ := by
  obtain ⟨b, s₂, hrun, hends⟩ := of_returns
    (show returns ((do
      fromQueue scopeSite
      run scopeSite (some 1) 1) (scopedStart (pidSession 77) [])) (fun s =>
        s.jobs.map Job.status == [.done] && frees scopeSite s.jobs) = true by decide +kernel)
  obtain ⟨⟨⟩, s₀, hload, hrun⟩ := bind_eq_ok.mp hrun
  obtain ⟨w₀, hlater, rfl⟩ := fromQueue_eq_ok hload
  have hscope := (throughout_scopedStart (pidSession 77) [] s₂.world).part (Later.onward hlater)
    (.refl _)
  rw [Bool.and_eq_true, beq_iff_eq] at hends
  refine ⟨_, _, s₂, scopedJob (pidSession 77), b, hload, rfl, rfl, hrun, hscope, hends.1, ?_, ?_⟩
  · decide +kernel
  · exact frees_eq_true hends.2

end Nodepilot
