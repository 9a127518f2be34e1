import Nodepilot.Lib.Completes
import Nodepilot.Machine.Restart
import Nodepilot.Safety.Confluence
import Nodepilot.Safety.Exclusivity
import Nodepilot.Safety.Placement
import Nodepilot.Steps.Idle

/-!
# Runs that raise nothing

Of the operations of the host only a few fail of themselves: a file that is not
there, a process that is gone, a session name that is taken, a sleep of a length
`time.sleep` refuses.  Where no event makes another one fail (`Untroubled`), every
program of the loop that asks the host and catches what it must completes
(`Unbroken`), and what remains are the places where the loop itself could raise:
a node whose CPU list does not parse, a `/proc/meminfo` without an amount, a name
that two sessions would share, `poll_interval` (`Obliging`).

On an obliging site no exception comes out of a run whose processes have all ended
when a tick begins.  The reap finds every job dead, so there are no pins to
enforce, and a launch pass starts from a table in which nothing lives: each living
process is then that of a running job (`Lodged`), and a name that a waiting job
needs is free.
-/

namespace Nodepilot

open Obeys Relation

/-! ## A host that does its part -/

/-- No event to come makes an operation fail. -/
def Untroubled (w : World) : Prop :=
  ∀ batch ∈ w.agenda, ∀ event ∈ batch, event.failure = none

namespace Untroubled

variable {w w' : World}

theorem failure_eq (h : Untroubled w) : w.failure = none := by
  unfold World.failure
  cases hagenda : w.agenda with
  | nil => rfl
  | cons batch rest =>
      apply List.findSome?_eq_none_iff.mpr
      exact h batch (by rw [hagenda]; exact List.mem_cons_self ..)

theorem answer_eq (h : Untroubled w) {α : Type} (c : Syscall α) :
    Host.answer c w = w.advance.effect c := by
  change w.answer c = _
  rw [World.answer, h.failure_eq]

theorem of_agenda (h : Untroubled w) (hagenda : w'.agenda = w.agenda) : Untroubled w' := by
  intro batch hbatch
  rw [hagenda] at hbatch
  exact h batch hbatch

theorem advance (h : Untroubled w) : Untroubled w.advance := by
  have happly : ∀ (events : List Event) (v : World),
      (events.foldl Event.apply v).agenda = v.agenda := by
    intro events
    induction events with
    | nil => exact fun v => rfl
    | cons event rest ih =>
        intro v
        rw [List.foldl_cons, ih]
        cases event with
        | arrive other =>
            simp only [Event.apply]
            split <;> rfl
        | _ => rfl
  intro batch hbatch
  unfold World.advance at hbatch
  cases hagenda : w.agenda with
  | nil =>
      rw [hagenda] at hbatch
      exact h batch hbatch
  | cons first rest =>
      rw [hagenda] at hbatch
      dsimp only at hbatch
      rw [happly] at hbatch
      exact h batch (by rw [hagenda]; exact List.mem_cons_of_mem _ hbatch)

/-- Nothing the scheduler does brings trouble. -/
theorem onward (h : Untroubled w) (honward : Onward w w') : Untroubled w' := by
  induction honward with
  | refl => exact h
  | tail _ hlast ih =>
      obtain ⟨α, c, rfl⟩ := hlast
      rename_i mid _
      cases hanswer : Host.answer c mid with
      | ok a v =>
          rw [after_of_ok hanswer]
          exact ih.advance.of_agenda (World.effect_keeps (answer_ok hanswer)).1
      | error e v =>
          rw [after_of_error hanswer, answer_error hanswer]
          exact ih.advance

end Untroubled

/-- The operations that fail for no reason of their own. -/
def Syscall.sure {α : Type} : Syscall α → Bool
  | .sleep _ | .readText _ | .procStat _ | .procComm _ | .procStatus _ | .kill0 _ | .getpgid _ => false
  | .killpg _ | .wait _ | .tmuxNewSession _ _ _ _ => false
  | _ => true

theorem World.effect_sure {α : Type} {c : Syscall α} (hc : c.sure = true) (w : World) :
    ∃ a w', w.effect c = .ok a w' := by
  cases c with
  | poll proc =>
      simp only [effect]
      split
      · exact ⟨_, _, rfl⟩
      · split <;> exact ⟨_, _, rfl⟩
  | tmuxKillSession name =>
      simp only [effect]
      split <;> exact ⟨_, _, rfl⟩
  | sleep | readText | procStat | procComm | procStatus | kill0 | getpgid => cases hc
  | killpg | wait | tmuxNewSession => cases hc
  | _ => exact ⟨_, _, rfl⟩

/-! ## Programs that nothing breaks -/

/-- A handler is not needed where nothing is raised. -/
theorem completes_tryExcept {α : Type} {P : Sys World → Prop} {m : M World α}
    {Q : α → Sys World → Prop} {caught : ExcClass → Bool} {handler : Exc → M World α}
    (h : Completes P m Q) : Completes P (tryExcept m caught handler) Q := by
  intro s hs
  obtain ⟨a, s', hm, hend⟩ := h s hs
  exact ⟨a, s', tryExcept_eq_ok.mpr (Or.inl hm), hend⟩

/-- From every world that comes after `w` the program returns. -/
def Unbroken {α : Type} (w : World) (m : M World α) : Prop :=
  Completes (fun s => Onward w s.world) m fun _ s => Onward w s.world

namespace Unbroken

variable {α β : Type} {w : World} {m : M World α}

theorem call {c : Syscall α} (hw : Untroubled w) (hc : c.sure = true) :
    Unbroken w (call c) := by
  intro s hs
  obtain ⟨a, w', heffect⟩ := World.effect_sure hc s.world.advance
  have hanswer : Host.answer c s.world = .ok a w' := by
    rw [(hw.onward hs).answer_eq]
    exact heffect
  exact ⟨a, _, call_eq_ok.mpr ⟨w', hanswer, rfl⟩, hs.trans (.of_ok hanswer)⟩

protected theorem pure (a : α) : Unbroken w (pure a) :=
  Completes.pure fun _ hs => hs

protected theorem bind {f : α → M World β} (hm : Unbroken w m) (hf : ∀ a, Unbroken w (f a)) :
    Unbroken w (m >>= f) :=
  Completes.bind hm hf

/-- What is read of the state at the head of a block does not matter. -/
theorem get_bind {f : Sys World → M World β} (h : ∀ s₀, Unbroken w (f s₀)) :
    Unbroken w (get >>= f) :=
  Completes.get_bind fun s₀ hs => (h s₀).before fun s heq => by rw [heq]; exact hs

/-- Writing down something that is not of the world. -/
theorem modify {f : Sys World → Sys World} (h : ∀ s, (f s).world = s.world) :
    Unbroken w (modify f) :=
  Completes.modify fun s hs => by rw [h s]; exact hs

theorem setJob (i : ℕ) (f : Job → Job) : Unbroken w (setJob i f) :=
  modify fun _ => rfl

theorem liftExcept {x : Except Exc α} {a : α} (h : x = .ok a) : Unbroken w (liftExcept x) := by
  rw [h]
  exact .pure a

/-- What is raised is caught. -/
theorem tryCatch {caught : ExcClass → Bool} {handler : Exc → M World α}
    (h : ∀ s, Onward w s.world → (∃ a s', m s = .ok a s' ∧ Onward w s'.world) ∨
      ∃ e s', m s = .error e s' ∧ caught e.cls = true ∧ Onward w s'.world)
    (hhandler : ∀ e, Unbroken w (handler e)) : Unbroken w (Nodepilot.tryExcept m caught handler) := by
  intro s hs
  rcases h s hs with ⟨a, s', hm, hend⟩ | ⟨e, s₁, hm, hcaught, hafter⟩
  · exact ⟨a, s', tryExcept_eq_ok.mpr (Or.inl hm), hend⟩
  · obtain ⟨a, s', hrest, hend⟩ := hhandler e s₁ hafter
    exact ⟨a, s', tryExcept_eq_ok.mpr (Or.inr ⟨e, s₁, hm, hcaught, hrest⟩), hend⟩

theorem tryExcept {caught : ExcClass → Bool} {handler : Exc → M World α} (h : Unbroken w m) :
    Unbroken w (Nodepilot.tryExcept m caught handler) :=
  completes_tryExcept h

theorem sweep {ι : Type} {body : ι → M World Bool} (h : ∀ i, Unbroken w (body i))
    (items : List ι) : Unbroken w (Obeys.sweep body items) :=
  @Completes.sweep_of _ _ _ body (fun _ s => Onward w s.world) (fun i _ => h i) items

end Unbroken

/-! ## What is asked of a site -/

/-- Whenever `/proc/meminfo` can be read, it can be made sense of. -/
def MeminfoLegible (w : World) : Prop :=
  ∀ v, Onward w v → ∀ text, v.files.lookup "/proc/meminfo" = some text →
    ∃ x, firstGb "MemAvailable:" (text.toList.splitOn '\n') = .ok x

/-- What an obliging site has, and a host that does its part. -/
structure Obliging (site : Site) (w : World) : Prop where
  host : Untroubled w
  meminfo : MeminfoLegible w
  nodes : ∀ entry ∈ site.numaNodes, ∃ cores, parseCpuList entry.2 = .ok cores
  names : site.config.runner = "tmux" →
    (site.queue.map fun job => World.sessionText (sessionName job.id)).Nodup
  pollInterval : 0 ≤ site.config.pollInterval ∧ site.config.pollInterval * 10 ^ 9 < 2 ^ 63

/-! ## The programs of the loop -/

section

variable {w : World} (hw : Untroubled w)

include hw

theorem unbroken_setOomScoreAdj (pid value : ℤ) : Unbroken w (setOomScoreAdj pid value) :=
  .tryExcept (.bind (.call hw rfl) fun _ => .pure true)

theorem unbroken_systemdRunAvailable : Unbroken w systemdRunAvailable := by
  have hbus : Unbroken w userBusSocketExists := by
    refine .bind (.call hw rfl) fun runtime => ?_
    cases runtime with
    | none => exact .bind (.call hw rfl) fun uid => .call hw rfl
    | some runtime =>
        dsimp only
        split
        · exact .call hw rfl
        · exact .bind (.call hw rfl) fun uid => .call hw rfl
  refine .bind (.call hw rfl) fun found => ?_
  cases found with
  | false => exact .pure false
  | true =>
      refine .bind (.call hw rfl) fun runtime => ?_
      cases runtime with
      | none => exact hbus
      | some runtime =>
          dsimp only
          split
          · exact .pure true
          · exact hbus

theorem unbroken_buildCommand (site : Site) (job : Job) (placement : Placement) :
    Unbroken w (buildCommand site job placement) := by
  have hprefix : Unbroken w (placementPrefix placement) := by
    unfold placementPrefix
    split
    · exact .pure []
    · refine .bind (.call hw rfl) fun found => ?_
      cases found with
      | true => exact .pure _
      | false =>
          refine .bind (.call hw rfl) fun found => ?_
          cases found with
          | true => exact .pure _
          | false => exact .pure []
  refine .bind hprefix fun argv => ?_
  dsimp only
  split
  · exact .pure _
  · refine .bind (unbroken_systemdRunAvailable hw) fun available => ?_
    cases available with
    | true => exact .pure _
    | false => exact .pure _

theorem unbroken_journalReportsOom (minutes : ℕ) : Unbroken w (journalReportsOom minutes) := by
  refine .bind (.call hw rfl) fun found => ?_
  cases found with
  | false => exact .pure false
  | true =>
      refine .bind (.tryExcept ?_) fun stdout => ?_
      · rw [map_eq_pure_bind]
        exact .bind (.call hw rfl) fun text => .pure (some text)
      · cases stdout with
        | none => exact .pure false
        | some text => exact .pure _

theorem unbroken_triggerOomCooldown (config : Config) : Unbroken w (triggerOomCooldown config) :=
  .bind (.call hw rfl) fun _ => .modify fun _ => rfl

theorem unbroken_saveState : Unbroken w saveState :=
  .bind (.call hw rfl) fun _ => .bind (.call hw rfl) fun _ => .modify fun _ => rfl

theorem unbroken_markDeadDependents : Unbroken w markDeadDependents := by
  have hjob : ∀ i, Unbroken w (markJob i) := by
    intro i
    refine .get_bind fun s => ?_
    split
    · exact .pure false
    · split
      · exact .pure false
      · split
        · exact .pure false
        · refine .bind (.setJob i _) fun _ => .bind (.call hw rfl) fun now => ?_
          exact .bind (.setJob i _) fun _ => .pure true
  have hpasses : ∀ fuel, Unbroken w (markPasses fuel) := by
    intro fuel
    induction fuel with
    | zero => exact .pure false
    | succ fuel ih =>
        refine .get_bind fun s => .bind (.sweep hjob _) fun progressed => ?_
        cases progressed with
        | true => exact .bind ih fun _ => .pure true
        | false => exact .pure false
  exact .get_bind fun s => hpasses _

/-- A file is read, or it is not there. -/
theorem call_readText (path : String) {s : Sys World} (hs : Onward w s.world) :
    Onward w s.world.advance ∧
      ((∃ text, s.world.advance.files.lookup path = some text ∧
        call (.readText path) s = .ok text { s with world := s.world.advance }) ∨
      call (.readText path) s = .error World.noFile { s with world := s.world.advance }) := by
  have hanswer := (hw.onward hs).answer_eq (.readText path)
  have hadvance : Onward w s.world.advance := by
    refine hs.trans (.of_ok (c := .getpid) (a := 1) ?_)
    rw [(hw.onward hs).answer_eq]
    rfl
  simp only [World.effect] at hanswer
  refine ⟨hadvance, ?_⟩
  cases hfile : s.world.advance.files.lookup path with
  | some text =>
      rw [hfile] at hanswer
      exact Or.inl ⟨text, rfl, call_eq_ok.mpr ⟨_, hanswer, rfl⟩⟩
  | none =>
      rw [hfile] at hanswer
      exact Or.inr (call_eq_error.mpr ⟨_, hanswer, rfl⟩)

theorem unbroken_readMemGb (sliceName fname : String) : Unbroken w (readMemGb sliceName fname) := by
  have hdir : ∀ cands, Unbroken w (firstDir cands) := by
    intro cands
    induction cands with
    | nil => exact .pure none
    | cons cand rest ih =>
        refine .bind (.call hw rfl) fun found => ?_
        cases found with
        | true => exact .pure (some cand)
        | false => exact ih
  have hraw : Unbroken w (readMemRaw sliceName fname) := by
    refine .bind (.bind (.call hw rfl) fun uid => hdir _) fun dir => ?_
    cases dir with
    | none => exact .pure none
    | some dir =>
        refine .tryCatch (fun s hs => ?_) fun e => .pure none
        obtain ⟨hadvance, ⟨text, -, hread⟩ | hnone⟩ := call_readText hw (joinPath dir fname) hs
        · refine Or.inl ⟨some (Text.strip text.toList), { s with world := s.world.advance }, ?_, hadvance⟩
          rw [bind_of_ok hread]
          rfl
        · exact Or.inr ⟨_, { s with world := s.world.advance }, bind_of_error hnone, rfl, hadvance⟩
  refine .bind hraw fun raw => ?_
  cases raw with
  | none => exact .pure none
  | some raw =>
      dsimp only
      split
      · exact .pure none
      · exact .pure _

/-- Admission control raises nothing where `/proc/meminfo` can be read. -/
theorem unbroken_canLaunch (hmeminfo : MeminfoLegible w) (config : Config) (job : Job) (jobs : List Job) :
    Unbroken w (canLaunch config job jobs) := by
  have hfree : Unbroken w freeRamGb := by
    refine .tryCatch (fun s hs => ?_) fun e => .pure none
    obtain ⟨hadvance, ⟨text, hfile, hread⟩ | hnone⟩ := call_readText hw "/proc/meminfo" hs
    · obtain ⟨x, hx⟩ := hmeminfo _ hadvance text hfile
      refine Or.inl ⟨x, { s with world := s.world.advance }, ?_, hadvance⟩
      rw [bind_of_ok hread, hx]
      rfl
    · exact Or.inr ⟨_, { s with world := s.world.advance }, bind_of_error hnone, rfl, hadvance⟩
  have hslice : ∀ fname, Unbroken w
      (if config.memorySlice = "" then pure none else readMemGb config.memorySlice fname) := by
    intro fname
    split
    · exact .pure none
    · exact unbroken_readMemGb hw _ _
  have hram : Unbroken w (checkRam config job (running jobs)) := by
    refine .bind (hslice "memory.current") fun used => ?_
    cases used with
    | some used => exact .bind (hslice "memory.max") fun cap => .pure _
    | none =>
        dsimp only
        split
        · exact .pure _
        · exact .bind hfree fun free => .pure _
  have hpause : Unbroken w (paused config) := by
    unfold paused
    split
    · exact .pure false
    · exact .call hw rfl
  refine .bind hpause fun pause => ?_
  cases pause with
  | true => exact .pure _
  | false =>
      refine .bind (.bind (.call hw rfl) fun now => .get_bind fun s => .pure _) fun remaining => ?_
      split
      · exact .pure _
      · split
        · exact .pure _
        · refine .bind hram fun decision => ?_
          split
          · exact .pure _
          · exact .pure _

end

/-! ## Loops with nothing to do -/

/-- A sweep none of whose turns does anything. -/
theorem sweep_of_idle {ι : Type} {body : ι → M World Bool} {s : Sys World}
    (h : ∀ i, body i s = .ok false s) (items : List ι) : sweep body items s = .ok false s := by
  induction items with
  | nil => rfl
  | cons i rest ih =>
      rw [sweep, bind_of_ok (h i), bind_of_ok ih]
      rfl

theorem runLoop_succ {W : Type} [Host W] {site : Site} {t fuel : ℕ} {s s₁ s₂ : Sys W}
    (hround : round site s = .ok () s₁) (hnot : isDrained s₁.jobs = false)
    (hsleep : call (.sleep site.config.pollInterval) s₁ = .ok () s₂) :
    runLoop site none t (fuel + 1) s = runLoop site none (t + 1) fuel s₂ := by
  change EStateM.bind (round site) _ s = _
  rw [EStateM.bind, hround]
  change EStateM.bind get _ s₁ = _
  rw [EStateM.bind, get_apply]
  simp only [hnot, Bool.false_eq_true, if_false, Option.any_none]
  change EStateM.bind (call _) _ s₁ = _
  rw [EStateM.bind, hsleep]

/-! ## What a run keeps -/

/-- What holds in every state of a run from `w`. -/
structure Intact (site : Site) (w : World) (s : Sys World) : Prop where
  onward : Onward w s.world
  ids : (s.jobs.map Job.id).Nodup
  minded : Minded site s
  progress : Progress site.queue s.jobs
  exclusive : Exclusive site s.jobs

theorem Intact.of_path {site : Site} {w : World} {kinds : Label → Bool} {s s' : Sys World}
    (hkinds : ∀ label, kinds label = true → label.inRound = true)
    (hpath : ReflTransGen (Step site true kinds) s s') (h : Intact site w s) : Intact site w s' := by
  refine invariant_of_path (fun t t' hstep h => ?_) hpath h
  obtain ⟨label, hlabel, hmove⟩ := hstep
  refine ⟨h.onward.trans hmove.onward, ?_, hmove.minded (hkinds label hlabel) h.ids h.minded,
    h.progress.trans hmove.turn.progress, hmove.turn.exclusive h.exclusive⟩
  rw [hmove.turn.progress.ids]
  exact h.ids

theorem Intact.later {site : Site} {w w' : World} {s : Sys World} (hlater : Later s.world w')
    (h : Intact site w s) : Intact site w { s with world := w' } :=
  h.of_path (fun _ hlabel => hlabel) (Later.path rfl hlater)

/-! ## Reaping everything -/

/-- No process of the scheduler is alive. -/
def AllExited (w : World) : Prop :=
  ∀ p ∈ w.procs, p.exit ≠ none

theorem AllExited.aged {waited : Set ℕ} {w w' : World} (h : AllExited w)
    (haged : Aged waited w w') : AllExited w' := by
  intro q hq
  obtain ⟨k, hk⟩ := List.mem_iff_getElem?.mp hq
  obtain ⟨p, hp, hages⟩ := haged.back hk
  obtain ⟨rc, hrc⟩ := Option.ne_none_iff_exists'.mp (h p (List.mem_of_getElem? hp))
  rw [hages.exit rc hrc]
  exact Option.some_ne_none rc

theorem AllExited.seen {w w' : World} (h : AllExited w) (hseen : Seen w w') : AllExited w' :=
  h.aged (Seen.aged hseen)

/-- Looking around brings nothing to life. -/
theorem AllExited.of_looks {site : Site} {kinds : Label → Bool} {s s' : Sys World}
    (hkinds : ∀ label, kinds label = true → label.looks = true)
    (hpath : ReflTransGen (Step site true kinds) s s') (h : AllExited s.world) :
    AllExited s'.world := by
  refine invariant_of_path (I := fun t : Sys World => AllExited t.world) (fun t t' hstep h => ?_)
    hpath h
  obtain ⟨label, hlabel, hmove⟩ := hstep
  exact h.seen (hmove.seen (hkinds label hlabel))

theorem AllExited.target {w : World} (h : AllExited w) (name : String) : w.target name = none := by
  have hnone : w.sessions = [] := by
    apply List.eq_nil_iff_forall_not_mem.mpr
    intro session hmem
    obtain ⟨p, hp, -, halive⟩ := World.mem_sessions.mp hmem
    exact h p hp halive
  simp [World.target, hnone]

/-- Where every process has ended, no running job is found alive. -/
theorem AllExited.isAlive {site : Site} {s s' : Sys World} {i : ℕ} {job : Job} {alive : Bool}
    (h : AllExited s.world) (hminded : Minded site s) (hjob : s.jobs[i]? = some job)
    (hrunning : job.status = .running) (halive : isAlive job s = .ok alive s') : alive = false := by
  by_cases hrunner : site.config.runner = "tmux"
  · obtain ⟨name, hsession⟩ := hminded.tmux hrunner job (List.mem_of_getElem? hjob) hrunning
    have hprobe := isAlive_tmux hsession halive
    obtain ⟨found, s₁, hwhich, hprobe⟩ := bind_eq_ok.mp hprobe
    obtain ⟨w₁, hanswer, rfl⟩ := call_eq_ok.mp hwhich
    cases found with
    | false =>
        cases hprobe
        rfl
    | true =>
        obtain ⟨rc, s₂, hcall, hprobe⟩ := bind_eq_ok.mp hprobe
        obtain ⟨w₂, hanswer', rfl⟩ := call_eq_ok.mp hcall
        have hasked : Seen s.world w₁ := Later.seen (.of_ok rfl hanswer)
        have hexited : AllExited w₁.advance := (h.seen hasked).aged (w₁.advance_aged ∅)
        cases answer_ok hanswer'
        cases hprobe
        rw [hexited.target name]
        rfl
  · obtain ⟨n, k, p, hhandle⟩ := (hminded.subprocess hrunner).handle i job hjob hrunning
    obtain ⟨rc, w, hanswer, rfl, rfl⟩ := isAlive_handle hhandle.session hhandle.handle halive
    obtain ⟨code, hcode⟩ := Option.ne_none_iff_exists'.mp
      (h p (List.mem_of_getElem? hhandle.proc))
    rw [poll_ended hanswer hhandle.proc hcode]
    rfl

/-- Where every process has ended, a reap leaves no job running. -/
theorem reapFinished_allIdle {site : Site} {s s' : Sys World} {b : Bool}
    (hids : (s.jobs.map Job.id).Nodup) (hexited : AllExited s.world) (hminded : Minded site s)
    (h : reapFinished site s = .ok b s') : AllIdle s'.jobs := by
  obtain ⟨s₀, s₁, hget, h⟩ := bind_eq_ok.mp h
  cases hget
  -- the jobs that still run are among those still to be looked at
  have hsaid := @sweep_said _ _ _ (reapJob site)
    (fun rest _ t => (∀ i job, t.jobs[i]? = some job → job.status = .running → i ∈ rest) ∧
      (t.jobs.map Job.id).Nodup ∧ AllExited t.world ∧ Minded site t)
    (fun i rest said t changed t' ht hrun => ?_) (List.range s.jobs.length) false b s s'
    ⟨fun i job hjob _ => List.mem_range.mpr (List.getElem?_eq_some_iff.mp hjob).1, hids, hexited,
      hminded⟩ h
  · intro job hmem hrunning
    obtain ⟨i, hi⟩ := List.mem_iff_getElem?.mp hmem
    exact List.not_mem_nil (hsaid.1 i job hi hrunning)
  · obtain ⟨hleft, hnodup, hended, hmind⟩ := ht
    rcases reapJob_turn true hrun with ⟨-, hmove⟩ | ⟨-, hasks, halive⟩
    · refine ⟨fun j job' hjob' hrunning' => ?_, ?_, hended.seen (hmove.seen rfl),
        hmove.minded rfl hnodup hmind⟩
      · have hturn := hmove.turn
        generalize t'.jobs = jobs' at hturn hjob'
        cases hturn with
        | reap hjob hrunning hend =>
            rcases getElem?_modify_cases hjob' with ⟨hne, hold⟩ | ⟨a, -, -, rfl⟩
            · exact (List.mem_cons.mp (hleft j job' hold hrunning')).resolve_left hne
            · rw [Job.finish_status] at hrunning'
              rcases hend with hend | hend <;> rw [hend] at hrunning' <;> cases hrunning'
      · rw [hmove.turn.progress.ids]
        exact hnodup
    · obtain ⟨w, hseen, rfl⟩ := asks_eq hasks
      refine ⟨fun j job' hjob' hrunning' => ?_, hnodup, hended.seen hseen, ?_⟩
      · rcases List.mem_cons.mp (hleft j job' hjob' hrunning') with rfl | hrest
        · have hfound := halive job' hjob' hrunning'
          have hnot := hended.isAlive hmind hjob' hrunning' hfound
          cases hnot
        · exact hrest
      · have hround : ∀ u u' : Sys World, Step site true Label.inAsk u u' →
            (u.jobs.map Job.id).Nodup ∧ Minded site u → (u'.jobs.map Job.id).Nodup ∧ Minded site u' := by
          rintro u u' ⟨label, hlabel, hmove⟩ ⟨hunique, hmind'⟩
          have hin : label.inRound = true := by
            cases label with
            | ask => rfl
            | _ => cases hlabel
          refine ⟨?_, hmove.minded hin hunique hmind'⟩
          rw [hmove.turn.progress.ids]
          exact hunique
        exact (invariant_of_path hround hasks ⟨hnodup, hmind⟩).2

/-- The passes over the dependents start no job. -/
theorem AllIdle.of_skips {site : Site} {s s' : Sys World}
    (hpath : ReflTransGen (Step site true Label.inSkip) s s') (h : AllIdle s.jobs) :
    AllIdle s'.jobs := by
  induction hpath with
  | refl => exact h
  | tail _ hlast ih =>
      obtain ⟨label, hlabel, hmove⟩ := hlast
      intro job' hmem
      cases hmove with
      | ask => exact ih job' hmem
      | probe => exact ih job' hmem
      | skip hjob hpending hblocker htime =>
          obtain ⟨k, hk⟩ := List.mem_iff_getElem?.mp hmem
          rcases getElem?_modify_cases hk with ⟨-, hold⟩ | ⟨a, -, -, rfl⟩
          · exact ih job' (List.mem_of_getElem? hold)
          · rw [Job.skip_status]
            decide
      | _ => cases hlabel

/-- Where no job runs there is nothing to pin. -/
theorem enforcePins_of_allIdle {s : Sys World} (h : AllIdle s.jobs) : enforcePins s = .ok () s := by
  have hbody : ∀ i, enforceJob i s = .ok false s := by
    intro i
    rw [enforceJob, bind_of_ok (get_apply s)]
    cases hjob : s.jobs[i]? with
    | none => rfl
    | some job =>
        have hnot := h job (List.mem_of_getElem? hjob)
        dsimp only
        rw [if_neg fun hrunning => hnot hrunning.1]
        rfl
  rw [enforcePins, bind_of_ok (get_apply s), bind_of_ok (sweep_of_idle hbody _)]
  rfl

/-- Where no job runs there is no zombie. -/
theorem reconcileZombies_of_allIdle (site : Site) {s : Sys World} (h : AllIdle s.jobs) :
    reconcileZombies site s = .ok () s := by
  have hbody : ∀ i, reconcileJob site i s = .ok false s := by
    intro i
    rw [reconcileJob, bind_of_ok (get_apply s)]
    cases hjob : s.jobs[i]? with
    | none => rfl
    | some job =>
        dsimp only
        rw [if_pos (h job (List.mem_of_getElem? hjob))]
        rfl
  rw [reconcileZombies, bind_of_ok (get_apply s), bind_of_ok (sweep_of_idle hbody _)]
  rfl

/-! ## Reaping completes -/

section

variable {w : World} (hw : Untroubled w)

include hw

/-- Looking after the process of a running job raises nothing. -/
theorem isAlive_completes {site : Site} {i : ℕ} {job : Job} {s₀ : Sys World}
    (h : Intact site w s₀) (hjob : s₀.jobs[i]? = some job) (hrunning : job.status = .running) :
    Completes (fun s => s = s₀) (isAlive job) fun _ s => Onward w s.world := by
  by_cases hrunner : site.config.runner = "tmux"
  · obtain ⟨name, hsession⟩ := h.minded.tmux hrunner job (List.mem_of_getElem? hjob) hrunning
    have hprobe : Unbroken w (tmuxAlive name) := by
      refine .bind (.call hw rfl) fun found => ?_
      cases found with
      | true => exact .bind (.call hw rfl) fun rc => .pure _
      | false => exact .pure false
    rw [isAlive, hsession, tracked_tmuxSession]
    exact hprobe.before fun s heq => by rw [heq]; exact h.onward
  · obtain ⟨n, k, p, hhandle⟩ := (h.minded.subprocess hrunner).handle i job hjob hrunning
    have hpoll : Unbroken w (call (.poll ⟨n, k⟩) >>= fun rc => pure rc.isNone) :=
      .bind (.call hw rfl) fun rc => .pure _
    rw [isAlive, hhandle.session, tracked_pidSession]
    refine .bind (R := fun pid s => pid = (n : ℤ) ∧ s = s₀) ?_ fun pid => .get_bind fun s hs => ?_
    · rw [pyInt_natText]
      exact .pure fun s heq => ⟨rfl, heq⟩
    · obtain ⟨rfl, rfl⟩ := hs
      rw [hhandle.handle]
      exact hpoll.before fun s heq => by rw [heq]; exact h.onward

theorem unbroken_reap {site : Site} {s : Sys World} {job : Job} (h : Minded site s)
    (hmem : job ∈ s.jobs) (hrunning : job.status = .running) : Unbroken w (reap job) := by
  have hcode : Unbroken w (returncode job) ∧ Unbroken w (forget job) := by
    by_cases hrunner : site.config.runner = "tmux"
    · obtain ⟨name, hsession⟩ := h.tmux hrunner job hmem hrunning
      rw [returncode, forget, hsession, tracked_tmuxSession]
      exact ⟨.pure none, .pure ()⟩
    · obtain ⟨i, hi⟩ := List.mem_iff_getElem?.mp hmem
      obtain ⟨n, k, p, hhandle⟩ := (h.subprocess hrunner).handle i job hi hrunning
      rw [returncode, forget, hhandle.session, tracked_pidSession]
      refine ⟨.bind (.liftExcept (pyInt_natText n)) fun pid => .get_bind fun s => ?_,
        .bind (.liftExcept (pyInt_natText n)) fun pid => .modify fun _ => rfl⟩
      split
      · exact .pure none
      · exact .bind (.call hw rfl) fun rc => .pure _
  refine .bind hcode.1 fun exitCode => .bind hcode.2 fun _ => ?_
  split
  · exact .bind (unbroken_journalReportsOom hw 5) fun hint => .pure _
  · exact .pure _

theorem reapFinished_completes (site : Site) :
    Completes (Intact site w) (reapFinished site) fun _ => Intact site w := by
  have hturn : ∀ i, Completes (Intact site w) (reapJob site i) fun _ => Intact site w := by
    intro i
    have hbody : Completes (Intact site w) (reapJob site i) fun _ s => Onward w s.world := by
      refine .get_bind fun s₀ hs => ?_
      have hstay : ∀ b : Bool, Completes (fun s => s = s₀) (pure b : M World Bool)
          fun _ s => Onward w s.world :=
        fun b => .pure fun s heq => by rw [heq]; exact hs.onward
      cases hjob : s₀.jobs[i]? with
      | none => exact hstay false
      | some job =>
          dsimp only
          split
          · exact hstay false
          · rename_i hstatus
            have hrunning : job.status = .running := not_not.mp hstatus
            refine .bind (isAlive_completes hw hs hjob hrunning) fun alive => ?_
            cases alive with
            | true => exact .pure fun s hend => hend
            | false =>
                have hreap : Unbroken w (reap job) :=
                  unbroken_reap hw hs.minded (List.mem_of_getElem? hjob) hrunning
                refine Unbroken.bind hreap fun outcome => .bind (.setJob i _) fun _ => ?_
                refine .bind (.call hw rfl) fun now => .bind (.setJob i _) fun _ => ?_
                split
                · exact .bind (unbroken_triggerOomCooldown hw _) fun _ => .pure true
                · exact .pure true
    refine hbody.leaving fun s b s' hs hrun => ?_
    exact hs.of_path (fun label hlabel => inTick_inRound label (inReap_inTick label hlabel))
      ((reapJob_obeys site true i).returns trivial hrun).1
  refine .get_bind fun s₀ hs => ?_
  exact (Completes.sweep_of (I := fun _ => Intact site w) (fun i _ => hturn i) _).before
    fun s heq => by rw [heq]; exact hs

end

/-! ## Launching completes -/

/-- Every living process is that of a running job, and its session has the name of that job. -/
def Lodged (s : Sys World) : Prop :=
  ∀ p ∈ s.world.procs, p.exit = none → ∃ job ∈ s.jobs, job.status = .running ∧ job.id = p.job.id ∧
    ∀ name, p.track = .session name → name = World.sessionText (sessionName job.id)

theorem AllExited.lodged {s : Sys World} (h : AllExited s.world) : Lodged s :=
  fun p hp halive => absurd halive (h p hp)

/-- A world in which nothing has been added to the table houses no other process. -/
theorem Lodged.of_stays {s s' : Sys World} (h : Lodged s) (hstays : Stays s.world s'.world)
    (hjobs : ∀ job ∈ s.jobs, job.status = .running → job ∈ s'.jobs) : Lodged s' := by
  intro q hq halive
  obtain ⟨p, hp, hages⟩ := hstays.back_mem hq
  obtain ⟨job, hmem, hrunning, hid, hname⟩ := h p hp (hages.alive halive)
  refine ⟨job, hjobs job hmem hrunning, hrunning, ?_, fun name htrack => hname name ?_⟩
  · rw [hages.job]
    exact hid
  · rw [← hages.track]
    exact htrack

/-- What changes a waiting job leaves the running ones as they are. -/
theorem mem_modify_of_running {jobs : List Job} {i : ℕ} {waits job : Job} (f : Job → Job)
    (hwaits : jobs[i]? = some waits) (hpending : waits.status = .pending) (hmem : job ∈ jobs)
    (hrunning : job.status = .running) : job ∈ jobs.modify i f := by
  obtain ⟨k, hk⟩ := List.mem_iff_getElem?.mp hmem
  have hne : i ≠ k := by
    rintro rfl
    rw [hwaits] at hk
    cases hk
    rw [hpending] at hrunning
    cases hrunning
  apply List.mem_of_getElem? (i := k)
  simpa [List.getElem?_modify_ne, hne] using hk

/-- A launch pass houses what it starts. -/
theorem Lodged.of_pass {site : Site} {s s' : Sys World}
    (hpath : ReflTransGen (Step site true Label.inPass) s s') (h : Lodged s) : Lodged s' := by
  refine invariant_of_path (fun t t' hstep h => ?_) hpath h
  obtain ⟨label, hlabel, hmove⟩ := hstep
  by_cases hlaunch : ∃ i, label = .launch i
  · obtain ⟨i, rfl⟩ := hlaunch
    cases hmove with
    | @launch _ s₁ _ job placement argv w w₂ now hchosen hstarted htime =>
        obtain ⟨w', w'', p, hbegan⟩ := hstarted.began
        obtain ⟨session, hlist⟩ := hstarted.launched
        have hafter : Stays s₁.world w₂ := (Later.aged (.of_ok rfl htime)).stays
        have hbefore : Stays t.world w' := (Later.aged hchosen.later).stays.trans hbegan.before
        intro q hq halive
        obtain ⟨q₁, hq₁, hages⟩ := hafter.back_mem hq
        obtain ⟨k, hk⟩ := List.mem_iff_getElem?.mp hq₁
        simp only [hlist]
        rcases hbegan.back hk with ⟨p₀, hp₀, hages'⟩ | ⟨-, hages'⟩
        · -- an old process
          obtain ⟨p₁, hp₁, hages''⟩ := hbefore.back_mem (List.mem_of_getElem? hp₀)
          have hall := (hages''.trans hages').trans hages
          obtain ⟨other, hmem, hrunning, hid, hname⟩ := h p₁ hp₁ (hall.alive halive)
          refine ⟨other, mem_modify_of_running _ hchosen.found hchosen.pending hmem hrunning, hrunning, ?_,
            fun name htrack => hname name ?_⟩
          · rw [hall.job]
            exact hid
          · rw [← hall.track]
            exact htrack
        · -- the new one
          have hall := hages'.trans hages
          refine ⟨Job.launch placement session now job, ?_, rfl, ?_, fun name htrack => ?_⟩
          · apply List.mem_of_getElem? (i := i)
            rw [List.getElem?_modify_eq, hchosen.found]
            rfl
          · rw [hall.job, hbegan.owner]
            rfl
          · rw [hall.track] at htrack
            rcases hbegan.handles with ⟨-, hpid, -⟩ | ⟨-, hsession, -⟩
            · rw [hpid] at htrack
              cases htrack
            · rw [hsession] at htrack
              cases htrack
              rfl
  · have hkill : ∀ i, label ≠ .kill i := by
      rintro i rfl
      cases hlabel
    have hstays := hmove.stays (fun i hi => hlaunch ⟨i, hi⟩) hkill
    refine h.of_stays hstays fun job hmem hrunning => ?_
    cases hmove with
    | ask => exact hmem
    | probe => exact hmem
    | fail hchosen => exact mem_modify_of_running _ hchosen.found hchosen.pending hmem hrunning
    | launch => exact absurd ⟨_, rfl⟩ hlaunch
    | _ => cases hlabel

/-- The name that the session of a job will have is free. -/
structure Vacant (site : Site) (w : World) (name : String) (s : Sys World) : Prop where
  onward : Onward w s.world
  free : site.config.runner = "tmux" → World.sessionText name ∉ s.world.sessions

theorem World.sessions_of_stays {w w' : World} (h : Stays w w') {name : String}
    (hname : name ∈ w'.sessions) : name ∈ w.sessions := by
  obtain ⟨q, hq, htrack, halive⟩ := World.mem_sessions.mp hname
  obtain ⟨p, hp, hages⟩ := h.back_mem hq
  exact World.mem_sessions.mpr ⟨p, hp, hages.track.symm.trans htrack, hages.alive halive⟩

theorem Vacant.of_stays {site : Site} {w : World} {name : String} {s s' : Sys World}
    (h : Vacant site w name s) (honward : Onward w s'.world) (hstays : Stays s.world s'.world) :
    Vacant site w name s' :=
  ⟨honward, fun hrunner hname => h.free hrunner (World.sessions_of_stays hstays hname)⟩

/-- Asking takes no name. -/
theorem Unbroken.vacant {α : Type} {m : M World α} {site : Site} {w : World} {name : String}
    (h : Unbroken w m) (hquiet : Quiet m) :
    Completes (Vacant site w name) m fun _ => Vacant site w name := by
  intro s hs
  obtain ⟨a, s', hm, hend⟩ := h s hs.onward
  obtain ⟨v, hlater, rfl⟩ := hquiet.of_ok hm
  exact ⟨a, _, hm, hs.of_stays hend (Later.aged hlater).stays⟩

section

variable {w : World} (hw : Untroubled w)

include hw

theorem start_completes (site : Site) (i : ℕ) (job : Job) (argv : List String) :
    Completes (Vacant site w (sessionName job.id)) (start site i job argv)
      fun _ s => Onward w s.world := by
  have hworkdir : Unbroken w (workdirOf job) := by
    unfold workdirOf
    split
    · exact .pure _
    · exact .call hw rfl
  refine .bind (hworkdir.vacant (quiet_workdirOf job)) fun workdir => ?_
  split
  · rename_i hrunner
    refine .bind (R := fun _ => Vacant site w (sessionName job.id)) (fun s hs => ?_) fun rc => ?_
    · have hkill : Unbroken w (call (.tmuxKillSession (sessionName job.id))) := .call hw rfl
      obtain ⟨rc, s', hrun, hend⟩ := hkill s hs.onward
      obtain ⟨v, hanswer, rfl⟩ := call_eq_ok.mp hrun
      have htended : Tended s.world v :=
        .of_after (c := .tmuxKillSession (sessionName job.id)) rfl (after_of_ok hanswer)
      exact ⟨rc, _, hrun, hs.of_stays hend htended.stays⟩
    · have hrest : Unbroken w (do
          noteStart i
          setJob i fun j => { j with session := "tmux:" ++ sessionName job.id }) :=
        .bind (.modify fun _ => rfl) fun _ => .setJob i _
      refine .bind (R := fun _ (s : Sys World) => Onward w s.world) (fun s hs => ?_) fun _ => hrest
      have hstays : Stays s.world s.world.advance := (s.world.advance_aged ∅).stays
      have hfree : World.sessionText (sessionName job.id) ∉ s.world.advance.sessions :=
        fun hname => hs.free hrunner (World.sessions_of_stays hstays hname)
      have hanswer := (hw.onward hs.onward).answer_eq (.tmuxNewSession job (sessionName job.id)
        ("cd " ++ shellQuote workdir ++ " && exec " ++ " ".intercalate (argv.map shellQuote)) job.env)
      simp only [World.effect, if_neg hfree] at hanswer
      exact ⟨(), _, call_eq_ok.mpr ⟨_, hanswer, rfl⟩, hs.onward.trans (.of_ok hanswer)⟩
  · have hspawn : Unbroken w (startSubprocess site i job argv workdir) := by
      refine .bind (.call hw rfl) fun proc => .bind (.modify fun _ => rfl) fun _ => ?_
      refine .bind (.setJob i _) fun _ => .bind (.modify fun _ => rfl) fun _ => ?_
      exact .bind (unbroken_setOomScoreAdj hw _ _) fun _ => .pure ()
    exact hspawn.before fun s hs => hs.onward

end

section

variable {site : Site} {w : World} (hobliging : Obliging site w)

include hobliging

/-- The name a waiting job needs is not that of a living session. -/
theorem vacant_of_lodged {i : ℕ} {job : Job} {s : Sys World} (h : Intact site w s)
    (hlodged : Lodged s) (hjob : s.jobs[i]? = some job) (hpending : job.status = .pending) :
    Vacant site w (sessionName job.id) s := by
  refine ⟨h.onward, fun hrunner hname => ?_⟩
  obtain ⟨p, hp, htrack, halive⟩ := World.mem_sessions.mp hname
  obtain ⟨other, hmem, hrunning, hid, hsame⟩ := hlodged p hp halive
  have hnames : (s.jobs.map fun job => World.sessionText (sessionName job.id)).Nodup := by
    have hmap : ∀ jobs : List Job, (jobs.map fun job => World.sessionText (sessionName job.id)) =
        (jobs.map Job.id).map fun id => World.sessionText (sessionName id) := by
      intro jobs
      rw [List.map_map]
      rfl
    rw [hmap, h.progress.ids, ← hmap]
    exact hobliging.names hrunner
  have hother : other = job := List.inj_on_of_nodup_map hnames hmem (List.mem_of_getElem? hjob)
    (hsame _ htrack).symm
  rw [hother, hpending] at hrunning
  cases hrunning

theorem launch_completes (i : ℕ) : Completes (fun s => Intact site w s ∧ Lodged s ∧ s.pendingAt i)
    (launch site i) fun _ s => Onward w s.world := by
  refine .get_bind fun s₀ hs => ?_
  obtain ⟨hintact, hlodged, job, hjob, hpending⟩ := hs
  rw [hjob]
  obtain ⟨occupied, hoccupied, -⟩ := occupiedFrom_card site.reserved hintact.exclusive
    fun other hmem hrunning => (hintact.exclusive.holds other hmem hrunning).disjoint_reserved
  have hplaced : ∃ found, allocate job.cores occupied site.numaNodes (allocateOptions site job) =
      .ok found := by
    by_cases hpos : 0 < job.cores
    · rcases @exists_allocate job.cores occupied site.numaNodes (allocateOptions site job) hpos
        hobliging.nodes with ⟨hnone, -⟩ | ⟨placement, -, -, hsome, -⟩
      · exact ⟨none, hnone⟩
      · exact ⟨some placement, hsome⟩
    · rw [allocate, if_pos (not_lt.mp hpos)]
      exact ⟨_, rfl⟩
  obtain ⟨found, hfound⟩ := hplaced
  have hvacant : ∀ s, s = s₀ → Vacant site w (sessionName job.id) s := by
    rintro s rfl
    exact vacant_of_lodged hobliging hintact hlodged hjob hpending
  have hfree : occupiedCores site s₀.jobs = .ok occupied := hoccupied
  simp only [hfree, liftExcept, pure_bind, hfound]
  refine .before ?_ hvacant
  cases found with
  | none => exact .pure fun s hs => hs.onward
  | some placement =>
      refine .bind (R := fun _ => Vacant site w (sessionName job.id))
        (.modify fun s hs => ⟨hs.onward, hs.free⟩) fun _ => ?_
      refine .bind ((unbroken_buildCommand hobliging.host site _ placement).vacant
        (quiet_buildCommand site _ placement)) fun argv => ?_
      have hstart : Completes (Vacant site w (sessionName job.id))
          (do
            start site i (job.place placement) argv
            pure (none : Option Exc))
          fun _ s => Onward w s.world :=
        .bind (start_completes hobliging.host site i (job.place placement) argv) fun _ =>
          .pure fun s hs => hs
      refine .bind (completes_tryExcept hstart) fun failure => ?_
      have hmark : ∀ (f : Job → Job) (g : ℚ → Job → Job), Unbroken w (do
          setJob i f
          let now ← call .time
          setJob i (g now)
          pure true) :=
        fun f g => .bind (.setJob i f) fun _ => .bind (.call hobliging.host rfl) fun now =>
          .bind (.setJob i (g now)) fun _ => .pure true
      cases failure with
      | some e => exact hmark _ _
      | none => exact hmark _ _

theorem launchPending_completes : Completes (fun s => Intact site w s ∧ Lodged s)
    (launchPending site) fun _ => Intact site w := by
  have hturn : ∀ i rest, Completes
      (fun s => (Intact site w s ∧ Lodged s) ∧ (∀ j ∈ i :: rest, s.pendingAt j) ∧ (i :: rest).Nodup)
      (launchCandidate site i)
      fun _ s => (Intact site w s ∧ Lodged s) ∧ (∀ j ∈ rest, s.pendingAt j) ∧ rest.Nodup := by
    intro i rest
    have hbody : Completes (fun s => Intact site w s ∧ Lodged s ∧ s.pendingAt i)
        (launchCandidate site i) fun _ s => Onward w s.world := by
      refine .get_bind fun s₀ hs => ?_
      obtain ⟨job, hjob, -⟩ := id hs.2.2
      have hstay : ∀ s, s = s₀ → Onward w s.world := by
        rintro s rfl
        exact hs.1.onward
      rw [hjob]
      dsimp only
      split
      · have hasks : Completes (fun s => s = s₀) (canLaunch site.config job s₀.jobs)
            fun _ s => Intact site w s ∧ Lodged s ∧ s.pendingAt i := by
          rintro s rfl
          obtain ⟨decision, s', hrun, -⟩ := unbroken_canLaunch hobliging.host hobliging.meminfo
            site.config job s.jobs s hs.1.onward
          obtain ⟨v, hlater, rfl⟩ := (quiet_canLaunch _ _ _).of_ok hrun
          exact ⟨decision, _, hrun, hs.1.later hlater,
            hs.2.1.of_stays (Later.aged hlater).stays fun _ hmem _ => hmem, hs.2.2⟩
        refine .bind hasks fun decision => ?_
        split
        · exact launch_completes hobliging i
        · exact .pure fun s hs => hs.1.onward
      · exact .pure fun s heq => hstay s heq
    have hwhole := hbody.before (P := fun s => (Intact site w s ∧ Lodged s) ∧
      (∀ j ∈ i :: rest, s.pendingAt j) ∧ (i :: rest).Nodup)
      fun s hs => ⟨hs.1.1, hs.1.2, hs.2.1 i (List.mem_cons_self ..)⟩
    refine hwhole.leaving fun s b s' hs hrun => ?_
    obtain ⟨hpath, hrest⟩ := (launchCandidate_obeys site i rest).returns hs.2 hrun
    exact ⟨⟨hs.1.1.of_path (fun label hlabel => inTick_inRound label (inPass_inTick label hlabel))
      hpath, hs.1.2.of_pass hpath⟩, hrest⟩
  refine .get_bind fun s₀ hs => ?_
  have hsweep := Completes.sweep_of (I := fun rest s => (Intact site w s ∧ Lodged s) ∧
    (∀ j ∈ rest, s.pendingAt j) ∧ rest.Nodup) hturn (pendingOrder s₀.jobs)
  rintro s rfl
  obtain ⟨b, s', hrun, hend⟩ := hsweep s
    ⟨hs, fun j hj => mem_pendingOrder.mp hj, nodup_pendingOrder _⟩
  exact ⟨b, s', hrun, hend.1.1⟩

/-- A tick that begins with every process gone raises nothing. -/
theorem tick_completes : Completes (fun s => Intact site w s ∧ AllExited s.world) (tick site)
    fun _ => Intact site w := by
  have hw := hobliging.host
  -- the reap leaves nothing that runs and nothing that lives
  have hreap : Completes (fun s => Intact site w s ∧ AllExited s.world) (reapFinished site)
      fun _ s => (Intact site w s ∧ AllExited s.world) ∧ AllIdle s.jobs := by
    have hreaps : Completes (fun s => Intact site w s ∧ AllExited s.world) (reapFinished site)
        fun _ => Intact site w :=
      (reapFinished_completes hw site).before fun s hs => hs.1
    refine hreaps.leaving fun s b s' hs hrun => ?_
    have hpath := ((reapFinished_obeys site true).returns trivial hrun).1
    refine ⟨⟨hs.1.of_path (fun label hlabel => inTick_inRound label (inReap_inTick label hlabel)) hpath,
      hs.2.of_looks (fun label hlabel => ?_) hpath⟩, reapFinished_allIdle hs.1.ids hs.2 hs.1.minded hrun⟩
    cases label with
    | ask => rfl
    | reap => rfl
    | _ => cases hlabel
  have hmark : Completes (fun s => (Intact site w s ∧ AllExited s.world) ∧ AllIdle s.jobs)
      markDeadDependents fun _ s => (Intact site w s ∧ AllExited s.world) ∧ AllIdle s.jobs := by
    have hmarks : Completes (fun s => (Intact site w s ∧ AllExited s.world) ∧ AllIdle s.jobs)
        markDeadDependents fun _ s => Onward w s.world :=
      (unbroken_markDeadDependents hw).before fun s hs => hs.1.1.onward
    refine hmarks.leaving fun s b s' hs hrun => ?_
    have hpath := ((markDeadDependents_obeys site true).returns trivial hrun).1
    refine ⟨⟨hs.1.1.of_path (fun label hlabel => inTick_inRound label (inSkip_inTick label hlabel))
      hpath, hs.1.2.of_looks (fun label hlabel => ?_) hpath⟩, hs.2.of_skips hpath⟩
    cases label with
    | ask => rfl
    | skip => rfl
    | _ => cases hlabel
  have hpins : Completes (fun s => (Intact site w s ∧ AllExited s.world) ∧ AllIdle s.jobs)
      enforcePins fun _ s => Intact site w s ∧ Lodged s := by
    intro s hs
    refine ⟨(), s, enforcePins_of_allIdle hs.2, hs.1.1, hs.1.2.lodged⟩
  refine .bind hreap fun reaped => .bind hmark fun marked => .bind hpins fun _ => ?_
  exact .bind (launchPending_completes hobliging) fun launched => .pure fun s hs => hs

theorem round_completes : Completes (fun s => Intact site w s ∧ AllExited s.world) (round site)
    fun _ => Intact site w := by
  refine .bind (tick_completes hobliging) fun changed => ?_
  cases changed with
  | false => exact .pure fun s hs => hs
  | true =>
      have hsave : Completes (Intact site w) saveState fun _ s => Onward w s.world :=
        (unbroken_saveState hobliging.host).before fun s hs => hs.onward
      refine hsave.leaving fun s b s' hs hrun => ?_
      exact hs.of_path inSave_inRound ((saveState_obeys site true).returns trivial hrun).1

/-- A loop whose processes have all ended when a tick begins raises nothing. -/
theorem runLoop_completes {fuel t : ℕ} {s : Sys World} (hs : Intact site w s)
    (hexit : ∀ k s₁, k < fuel → runLoop site none t k s = .ok false s₁ → AllExited s₁.world) :
    ∃ b s', runLoop site none t fuel s = .ok b s' := by
  induction fuel generalizing t s with
  | zero => exact ⟨false, s, rfl⟩
  | succ fuel ih =>
      obtain ⟨⟨⟩, s₁, hround, hs₁⟩ :=
        round_completes hobliging s ⟨hs, hexit 0 s (Nat.zero_lt_succ fuel) rfl⟩
      by_cases hdrained : isDrained s₁.jobs = true
      · refine ⟨true, s₁, ?_⟩
        rw [runLoop, bind_of_ok hround, bind_of_ok (get_apply s₁), if_pos hdrained]
        rfl
      · have hnot : isDrained s₁.jobs = false := Bool.eq_false_iff.mpr hdrained
        obtain ⟨hnonneg, hshort⟩ := hobliging.pollInterval
        have hanswer := (hobliging.host.onward hs₁.onward).answer_eq (.sleep site.config.pollInterval)
        have hlong : ¬ (2 : ℚ) ^ 63 ≤ |site.config.pollInterval| * 10 ^ 9 := by
          rw [abs_of_nonneg hnonneg]
          exact not_le.mpr hshort
        simp only [World.effect, if_neg hlong, if_neg (not_lt.mpr hnonneg)] at hanswer
        have hsleep := call_eq_ok.mpr ⟨_, hanswer, rfl⟩
        rw [runLoop_succ hround hnot hsleep]
        refine ih (hs₁.later (.of_ok rfl hanswer)) fun k s₃ hk hrun => ?_
        refine hexit (k + 1) s₃ (by omega) ?_
        rw [runLoop_succ hround hnot hsleep]
        exact hrun

/-- On an obliging site a run of waiting jobs, each process having ended before the next tick,
raises nothing. -/
theorem run_completes (hpending : ∀ job ∈ site.queue, job.status = .pending)
    (hids : (site.queue.map Job.id).Nodup) (hprocs : w.procs = []) {fuel : ℕ}
    (hexit : ∀ k s₁, k < fuel → run site none k (fresh site w) = .ok false s₁ →
      AllExited s₁.world) : ∃ b s, run site none fuel (fresh site w) = .ok b s := by
  have hw := hobliging.host
  have hself : Unbroken w (setSelfOomScoreAdj site.config.orchestratorOomScoreAdj) :=
    .bind (.call hw rfl) fun pid => unbroken_setOomScoreAdj hw pid _
  obtain ⟨b, s₁, hset, -⟩ := hself (fresh site w) (.refl w)
  obtain ⟨v, -, hsame⟩ := (quiet_setSelfOomScoreAdj _).of_ok hset
  have hidle : AllIdle s₁.jobs := by
    rw [hsame]
    intro job hmem hrunning
    rw [hpending job hmem] at hrunning
    cases hrunning
  have hstart : startUp site (fresh site w) = .ok () s₁ := by
    rw [startUp, bind_of_ok hset]
    exact reconcileZombies_of_allIdle site hidle
  obtain ⟨hjobs, -, hcourse⟩ := @Course.of_startUp site (fun _ => true) w (fun _ => True) s₁
    (fun job hmem => Or.inl (hpending job hmem)) hprocs hstart
  have hintact : Intact site w s₁ := by
    refine ⟨hcourse.onward, ?_, hcourse.minded, hcourse.progress, ?_⟩
    · rw [hjobs]
      exact hids
    · exact ⟨fun job hmem hrunning => absurd hrunning (hidle job hmem),
        fun i j a b _ ha _ harunning => absurd harunning (hidle a (List.mem_of_getElem? ha))⟩
  have hopen : ∀ k, run site none k (fresh site w) = runLoop site none 1 k s₁ := by
    intro k
    rw [run, bind_of_ok hstart]
  obtain ⟨b, s, hloop⟩ := runLoop_completes hobliging (t := 1) hintact fun k s₂ hk hrun =>
    hexit k s₂ hk (by rw [hopen]; exact hrun)
  exact ⟨b, s, by rw [hopen]; exact hloop⟩

end

end Nodepilot
