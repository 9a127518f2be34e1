import Nodepilot.Safety.Sharing

/-!
# A kill beside a run

`nodepilot kill` loads the state file, signals the process of the job, marks the job as
failed in its own copy and saves all of that copy, while the run loop ticks and saves on
its own.  Between any two of its steps the others may do whatever they do.

If no process saves or starts a job on a copy that another has overwritten, the kill
stands: what it has saved is settled, and what is settled is never rewritten.  The run
loop, however, loads the state file once, when it begins; its next save writes back what
it makes of the corpse.
-/

namespace Nodepilot

open Obeys Relation

namespace Processes

variable {ι W : Type} [DecidableEq ι] [Host W]

/-- What the others do between two steps of a process: its own jobs stay as they are. -/
def Beside (site : Site) (orderly : Bool) (k : ι) (p p' : Processes ι W) : Prop :=
  Acts site orderly p p' ∧ (p'.memories k).map Memory.jobs = (p.memories k).map Memory.jobs

/-- A `nodepilot kill` from the load of the state file to its return with success, amid the acts
of the others. -/
inductive KillCommand (site : Site) (orderly : Bool) (k : ι) (jobId : String) (p : Processes ι W) :
    Processes ι W → Prop
  | mk {p₁ p₂ : Processes ι W} {loaded marked saved : Sys W} {m m' : Memory} {i : ℕ}
      (hload : fromQueue site (p.view ⟨[], 0, [], true⟩) = .ok () loaded)
      (hbefore : ReflTransGen (Beside site orderly k) (p.adopt k true loaded) p₁)
      (hmemory : p₁.memories k = some m) (htarget : killTarget m.jobs jobId = some i)
      (hkill : Move site true (.kill i) (p₁.view m) marked)
      (hbetween : ReflTransGen (Beside site orderly k) (p₁.adopt k m.current marked) p₂)
      (hmemory' : p₂.memories k = some m') (hsave : Move site true .save (p₂.view m') saved)
      (horderly : orderly = true → m'.current = true) :
      KillCommand site orderly k jobId p (p₂.publish k saved)

section Command

variable {site : Site} {orderly : Bool} {k : ι} {jobId : String} {p p' : Processes ι W}

theorem acts_of_beside (h : ReflTransGen (Beside site orderly k) p p') :
    ReflTransGen (Acts site orderly) p p' :=
  h.lift id fun _ _ hbeside => hbeside.1

theorem jobs_of_beside (h : ReflTransGen (Beside site orderly k) p p') :
    (p'.memories k).map Memory.jobs = (p.memories k).map Memory.jobs := by
  induction h with
  | refl => rfl
  | tail _ hbeside ih => exact hbeside.2.trans ih

/-- The steps of a kill are acts of its process. -/
theorem KillCommand.acts (h : KillCommand site orderly k jobId p p') :
    ReflTransGen (Acts site orderly) p p' := by
  cases h with
  | @mk p₁ p₂ loaded marked saved m m' i hload hbefore hmemory htarget hkill hbetween hmemory' hsave
      horderly =>
      have hstarts : marked.starts = p₁.starts := hkill.starts_eq
      have hloaded := ReflTransGen.head (Acts.load k hload) (acts_of_beside hbefore)
      have hmarked := hloaded.tail (.move k hmemory hkill (by simp) fun _ hne => absurd hstarts hne)
      exact (hmarked.trans (acts_of_beside hbetween)).tail (.save k hmemory' hsave horderly)

/-- What a kill that returns with success has saved. -/
theorem KillCommand.saved (h : KillCommand site orderly k jobId p p') :
    ∃ killed ∈ p'.saved site,
      killed.id = jobId ∧ killed.status = .failed ∧ killed.failureReason = "killed_by_user" := by
  cases h with
  | @mk p₁ p₂ loaded marked saved m m' i hload hbefore hmemory htarget hkill hbetween hmemory' hsave
      horderly =>
      obtain ⟨job, hjob, hid, -⟩ := killTarget_eq_some htarget
      have hkept : some m'.jobs = some marked.jobs := by
        have hjobs := jobs_of_beside hbetween
        rwa [hmemory', memories_adopt] at hjobs
      cases hsave
      cases hkill with
      | @kill _ _ job' procs w₁ w₂ now hfound hrunning hkilled htime =>
          have hmarked : m'.jobs = m.jobs.modify i (Job.fail "killed_by_user" now) :=
            Option.some.inj hkept
          have hsame : job' = job := Option.some.inj (hfound.symm.trans hjob)
          subst hsame
          refine ⟨Job.fail "killed_by_user" now job', ?_, hid, rfl, rfl⟩
          refine List.mem_of_getElem? (i := i) ?_
          change m'.jobs[i]? = _
          rw [hmarked, List.getElem?_modify_eq, hjob]
          rfl

end Command

end Processes

/-- In any interleaving in which nobody saves or starts a job on a copy that another has
overwritten, no saved status ever moves back; and once a kill has returned with success, every
state saved later records the job as killed, and nothing that depends on it is started any more. -/
theorem kill_stands {ι W : Type} [DecidableEq ι] [Host W] (site : Site)
    (hids : (site.queue.map Job.id).Nodup) (k : ι) (jobId : String) (first p p' q : Processes ι W)
    (hfile : first.stateFile = none) (hmemories : ∀ j, first.memories j = none)
    (hbefore : ReflTransGen (Processes.Acts site true) first p)
    (hkill : Processes.KillCommand site true k jobId p p')
    (hafter : ReflTransGen (Processes.Acts site true) p' q) :
    (∃ killed ∈ q.saved site, killed.id = jobId ∧ killed.status = .failed ∧
      killed.failureReason = "killed_by_user") ∧
    (∃ later, q.starts = later ++ p'.starts ∧ ∀ i ∈ later, ∀ queued, site.queue[i]? = some queued →
      queued.id ≠ jobId ∧ jobId ∉ queued.dependsOn) ∧
    ∀ a b : Processes ι W, ReflTransGen (Processes.Acts site true) first a →
      ReflTransGen (Processes.Acts site true) a b → Progress (a.saved site) (b.saved site) := by
  have hstart : Processes.Coherent site first := Processes.coherent_start hfile hmemories
  obtain ⟨hcoherent, -⟩ := hstart.run (hbefore.trans hkill.acts)
  obtain ⟨killed, hsaved, hid, hfailed, hreason⟩ := hkill.saved
  have hterminal : killed.status.terminal = true := by
    rw [hfailed]
    rfl
  obtain ⟨hstays, later, hlater, hspares⟩ := hcoherent.ended_stays hids hafter hsaved hterminal
  refine ⟨⟨killed, hstays, hid, hfailed, hreason⟩, ⟨later, hlater, fun i hi queued hqueued => ?_⟩,
    fun a b ha hb => ((hstart.run ha).1.run hb).2⟩
  obtain ⟨hne, hdeps⟩ := hspares i hi queued hqueued
  rw [← hid]
  exact ⟨hne, hdeps (by rw [hfailed]; decide)⟩

/-! ## A kill that nobody interrupts -/

/-- The two moves of a kill that returns with success. -/
theorem kill_moves {W : Type} [Host W] (site : Site) (gated : Bool) {jobId : String} {s s' : Sys W}
    (h : kill jobId s = .ok true s') : ∃ (i : ℕ) (marked : Sys W) (w : W),
      killTarget s.jobs jobId = some i ∧ Move site gated (.kill i) s marked ∧
      s' = { marked with stateFile := some marked.jobs, world := w } := by
  obtain ⟨s₀, s₁, hget, h⟩ := bind_eq_ok.mp h
  cases hget
  cases htarget : killTarget s.jobs jobId with
  | none =>
      simp only [htarget] at h
      cases h
  | some i =>
      obtain ⟨job, hjob, -, hrunning⟩ := killTarget_eq_some htarget
      simp only [htarget, hjob] at h
      obtain ⟨⟨⟩, s₁, hkill, h⟩ := bind_eq_ok.mp h
      obtain ⟨procs, w₁, -, rfl⟩ := handled_of_path ((killJob_handled job).returns trivial hkill).1
      obtain ⟨⟨⟩, s₂, hmark, h⟩ := bind_eq_ok.mp h
      obtain ⟨⟨⟩, s₃, hset, hmark⟩ := bind_eq_ok.mp hmark
      cases hset
      obtain ⟨now, s₄, hcall, hmark⟩ := bind_eq_ok.mp hmark
      obtain ⟨w₂, htime, rfl⟩ := time_eq_ok hcall
      cases hmark
      obtain ⟨⟨⟩, s₅, hsave, hpure⟩ := bind_eq_ok.mp h
      cases hpure
      obtain ⟨stamp, s₆, hcall, hsave⟩ := bind_eq_ok.mp hsave
      obtain ⟨w₃, -, rfl⟩ := time_eq_ok hcall
      obtain ⟨⟨⟩, s₇, hcall, hsave⟩ := bind_eq_ok.mp hsave
      obtain ⟨w₄, -, rfl⟩ := call_eq_ok.mp hcall
      cases hsave
      refine ⟨i, _, w₄, rfl, .kill hjob hrunning hkill htime, ?_⟩
      simp only [List.modify_modify_eq]
      rfl

namespace Processes

variable {ι W : Type} [DecidableEq ι] [Host W] {site : Site} {jobId : String} {p : Processes ι W}

/-- A kill with nobody beside it; the memories of the others are out of date then. -/
theorem killCommand_of_alone (orderly : Bool) (k : ι) {s s₁ s₂ : Sys W} (hshares : p.Shares s)
    (hload : fromQueue site { s with jobs := [], cooldownUntil := 0, procs := [] } = .ok () s₁)
    (hkill : kill jobId s₁ = .ok true s₂) :
    ∃ p', KillCommand site orderly k jobId p p' ∧ p'.Shares s₂ ∧
      ∀ j ≠ k, p'.memories j = (p.memories j).map fun m => { m with current := false } := by
  obtain ⟨hfile, hstarts, hworld⟩ := hshares
  have hview : p.view ⟨[], 0, [], true⟩ = { s with jobs := [], cooldownUntil := 0, procs := [] } := by
    rw [view, hfile, hstarts, hworld]
  obtain ⟨i, marked, w, htarget, hmove, rfl⟩ := kill_moves site true hkill
  let after := (p.adopt k true s₁).adopt k true marked
  have hloaded := memories_adopt p k true s₁
  have hmarked : after.memories k = some ⟨_, _, _, true⟩ := memories_adopt _ k true marked
  have hcalls : Beside site orderly k after { after with world := w } := ⟨.world w, rfl⟩
  refine ⟨_, .mk (hview ▸ hload) .refl hloaded htarget hmove (.single hcalls) hmarked .save
    fun _ => rfl, ⟨rfl, rfl, rfl⟩, fun j hne => ?_⟩
  simp [after, publish, adopt, hne]

end Processes

/-- The kill of the first command's job; a third command skips what depends on it. -/
theorem kill_stands_chain : ∃ p' q : Processes Bool World,
    (q.saved chainSite).map Job.status = [.failed, .skipped] ∧
    (∃ killed ∈ q.saved chainSite, killed.id = "a" ∧ killed.status = .failed ∧
      killed.failureReason = "killed_by_user") ∧
    ∃ later, q.starts = later ++ p'.starts ∧ ∀ i ∈ later, ∀ queued, chainSite.queue[i]? = some queued →
      queued.id ≠ "a" ∧ "a" ∉ queued.dependsOn := by
  let load (s : Sys World) := fromQueue chainSite { s with jobs := [], cooldownUntil := 0, procs := [] }
  obtain ⟨⟨⟩, s₁, hload₁, hrest⟩ := of_returns
    (show returns (load (fresh chainSite {})) (fun s₁ => returns (round chainSite s₁) fun s₂ =>
      returns (load s₂) fun s₃ => comesTo (kill "a" s₃) true fun s₄ =>
      returns (load s₄) fun s₅ => returns (round chainSite s₅) fun s₆ =>
      (s₆.stateFile.getD chainSite.queue).map Job.status == [.failed, .skipped]) = true by decide +kernel)
  obtain ⟨⟨⟩, s₂, hround₁, hrest⟩ := of_returns hrest
  obtain ⟨⟨⟩, s₃, hload₂, hrest⟩ := of_returns hrest
  obtain ⟨s₄, hkill, hrest⟩ := of_comesTo hrest
  obtain ⟨⟨⟩, s₅, hload₃, hrest⟩ := of_returns hrest
  obtain ⟨⟨⟩, s₆, hround₂, hskipped⟩ := of_returns hrest
  let first : Processes Bool World := { world := {}, memories := fun _ => none }
  obtain ⟨p₂, hrun₁, hshares₂⟩ := Processes.command_orderly (p := first) (s := fresh chainSite {}) false
    ⟨rfl, rfl, rfl⟩ hload₁ ((round_obeys chainSite).returns trivial hround₁).1
  obtain ⟨p₄, hcommand, hshares₄, -⟩ := Processes.killCommand_of_alone true true hshares₂ hload₂ hkill
  obtain ⟨p₆, hrun₃, hshares₆⟩ := Processes.command_orderly false hshares₄ hload₃
    ((round_obeys chainSite).returns trivial hround₂).1
  obtain ⟨hkilled, hspared, -⟩ := kill_stands chainSite (by decide) true "a" first p₂ p₄ p₆ rfl
    (fun _ => rfl) hrun₁ hcommand hrun₃
  refine ⟨p₄, p₆, ?_, hkilled, hspared⟩
  rw [Processes.saved, hshares₆.1]
  exact beq_iff_eq.mp hskipped

/-- A job and one that depends on it, each in a session. -/
def chainSessions : Site :=
  smallSite [{ id := "a", command := "true" }, { id := "b", command := "true", dependsOn := ["a"] }]
    { smallConfig with runner := "tmux" } reserved_smallConfig

/-- The run loop has loaded the file before the kill.  It finds the session gone, takes the job
for done, starts the one that depends on it and saves that. -/
theorem kill_overwritten :
    ¬ ∀ (site : Site) (k : Bool) (jobId : String) (first p p' q : Processes Bool World),
      (site.queue.map Job.id).Nodup → first.stateFile = none → (∀ j, first.memories j = none) →
      ReflTransGen (Processes.Acts site false) first p →
      Processes.KillCommand site false k jobId p p' →
      ReflTransGen (Processes.Acts site false) p' q →
      (∀ proc ∈ q.world.procs, proc.job.id = jobId → proc.exit ≠ none) →
      ∃ killed ∈ q.saved site, killed.id = jobId ∧ killed.status = .failed ∧
        killed.failureReason = "killed_by_user" := by
  intro h
  let load (s : Sys World) :=
    fromQueue chainSessions { s with jobs := [], cooldownUntil := 0, procs := [] }
  obtain ⟨⟨⟩, s₁, hload₁, hrest⟩ := of_returns
    (show returns (load (fresh chainSessions { programs := ["tmux"] })) (fun s₁ =>
      returns (round chainSessions s₁) fun s₂ =>
      returns (load s₂) fun s₃ => comesTo (kill "a" s₃) true fun s₄ =>
      returns (round chainSessions
        { s₄ with jobs := s₂.jobs, cooldownUntil := s₂.cooldownUntil, procs := s₂.procs }) fun s₅ =>
      (s₅.stateFile.getD chainSessions.queue).map Job.status == [.done, .running] &&
      s₅.world.procs.all fun proc => proc.job.id != "a" || proc.exit.isSome) = true by decide +kernel)
  obtain ⟨⟨⟩, s₂, hround₁, hrest⟩ := of_returns hrest
  obtain ⟨⟨⟩, s₃, hload₂, hrest⟩ := of_returns hrest
  obtain ⟨s₄, hkill, hrest⟩ := of_comesTo hrest
  obtain ⟨⟨⟩, s₅, hround₂, hends⟩ := of_returns hrest
  rw [Bool.and_eq_true, beq_iff_eq] at hends
  -- the run loop loads and makes its first round
  let first : Processes Bool World := { world := { programs := ["tmux"] }, memories := fun _ => none }
  have hloaded : Processes.Acts chainSessions false first (first.adopt false true s₁) := .load false hload₁
  obtain ⟨p₂, m₂, hrun₁, hmemory₂, -, rfl⟩ := @Processes.path_acts _ _ _ _ _ (first.adopt false true s₁)
    _ _ false _ false ((round_obeys chainSessions).returns trivial hround₁).1 _
    (Processes.memories_adopt first false true s₁) (fun hfalse => by cases hfalse) rfl
  -- the kill leaves it out of date, and it makes another round all the same
  obtain ⟨p₄, hcommand, hshares₄, hothers⟩ := Processes.killCommand_of_alone (p := p₂) false true
    ⟨rfl, rfl, rfl⟩ hload₂ hkill
  have hmemory₄ := hothers false (by decide)
  rw [hmemory₂] at hmemory₄
  obtain ⟨p₅, m₅, hrun₂, -, -, rfl⟩ := @Processes.path_acts _ _ _ _ _ p₄ _ _ false _ false
    ((round_obeys chainSessions).returns trivial hround₂).1 _ hmemory₄ (fun hfalse => by cases hfalse)
    (by rw [Processes.view, hshares₄.1, hshares₄.2.1, hshares₄.2.2]; rfl)
  obtain ⟨killed, hmem, hid, hfailed, -⟩ := h chainSessions true "a" first p₂ p₄ p₅ (by decide) rfl
    (fun _ => rfl) (.head hloaded hrun₁) hcommand hrun₂ fun proc hproc hjob hliving => by
      have hgone := List.all_eq_true.mp hends.2 proc hproc
      rw [hjob, hliving] at hgone
      cases hgone
  have hstatus : killed.status ∈ (p₅.saved chainSessions).map Job.status :=
    List.mem_map_of_mem hmem
  rw [show (p₅.saved chainSessions).map Job.status = [.done, .running] from hends.1, hfailed] at hstatus
  revert hstatus
  decide

end Nodepilot
