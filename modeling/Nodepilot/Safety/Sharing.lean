import Nodepilot.Lib.Copies
import Nodepilot.Machine.Trial
import Nodepilot.Safety.LifeCycle

/-!
# Several processes on one state file

`nodepilot run` and every `nodepilot kill` are processes of their own.  Each loads
the state file, works on what it has loaded, and saves all of it; they share the
file, the host and nothing else, and their moves may come in any order.

As long as only processes whose copy is current save and start jobs, the state file
is a store of current copies (`Copies`), and so it is as if one process had done
everything: no saved status ever goes back, and a job that was saved as killed stays
so and keeps its dependents from being started.
-/

namespace Nodepilot

open Relation

/-! ## Processes -/

/-- The memory of a process.  No code reads whether it is `current`: nobody else has saved since
the process loaded or saved. -/
structure Memory where
  jobs : List Job
  cooldownUntil : ℚ := 0
  procs : List (ℤ × Popen) := []
  current : Bool := true

/-- What a process would save. -/
def Memory.copy (m : Memory) : Copies.Copy (List Job) where
  value := m.jobs
  current := m.current

/-- The processes there are and what they share; `starts` is the log of all of them. -/
structure Processes (ι W : Type) where
  stateFile : Option (List Job) := none
  starts : List ℕ := []
  world : W
  memories : ι → Option Memory

namespace Processes

variable {ι W : Type} [DecidableEq ι] (site : Site) (p : Processes ι W)

omit [DecidableEq ι] in
/-- The state as a process sees it. -/
def view (m : Memory) : Sys W :=
  { jobs := m.jobs, cooldownUntil := m.cooldownUntil, procs := m.procs, stateFile := p.stateFile,
    starts := p.starts, world := p.world }

/-- What is shared has become that of `s`, and so has the memory of `k`. -/
def adopt (k : ι) (current : Bool) (s : Sys W) : Processes ι W where
  stateFile := s.stateFile
  starts := s.starts
  world := s.world
  memories := Function.update p.memories k (some ⟨s.jobs, s.cooldownUntil, s.procs, current⟩)

theorem memories_adopt (k : ι) (current : Bool) (s : Sys W) :
    (p.adopt k current s).memories k = some ⟨s.jobs, s.cooldownUntil, s.procs, current⟩ :=
  Function.update_self ..

/-- The same after a save: the memories of the others are out of date. -/
def publish (k : ι) (s : Sys W) : Processes ι W where
  stateFile := s.stateFile
  starts := s.starts
  world := s.world
  memories j :=
    if j = k then some ⟨s.jobs, s.cooldownUntil, s.procs, true⟩
    else (p.memories j).map fun m => { m with current := false }

/-- The same after the end of `k`. -/
def leave (k : ι) (s : Sys W) : Processes ι W where
  stateFile := s.stateFile
  starts := s.starts
  world := s.world
  memories := Function.update p.memories k none

omit [DecidableEq ι] in
/-- The jobs a process would load. -/
def saved : List Job :=
  p.stateFile.getD site.queue

/-- Something happens on the host, or a process loads the state file, makes one move, breaks off
or ends.  If the processes are `orderly`, what saves or starts a job is current. -/
inductive Acts [Host W] (site : Site) (orderly : Bool) (p : Processes ι W) : Processes ι W → Prop
  | world (w : W) : Acts site orderly p { p with world := w }
  | load (k : ι) {s : Sys W} (hload : fromQueue site (p.view ⟨[], 0, [], true⟩) = .ok () s) :
      Acts site orderly p (p.adopt k true s)
  | move (k : ι) {m : Memory} {label : Label} {s : Sys W} (hmemory : p.memories k = some m)
      (hmove : Move site true label (p.view m) s) (hlabel : label ≠ .save)
      (horderly : orderly = true → s.starts ≠ p.starts → m.current = true) :
      Acts site orderly p (p.adopt k m.current s)
  | save (k : ι) {m : Memory} {s : Sys W} (hmemory : p.memories k = some m)
      (hmove : Move site true .save (p.view m) s)
      (horderly : orderly = true → m.current = true) : Acts site orderly p (p.publish k s)
  | breaksOff (k : ι) {m : Memory} {s : Sys W} (hmemory : p.memories k = some m)
      (hwreck : Wreck site true (p.view m) s)
      (horderly : orderly = true → s.starts ≠ p.starts → m.current = true) :
      Acts site orderly p (p.leave k s)
  | ends (k : ι) {m : Memory} (hmemory : p.memories k = some m) :
      Acts site orderly p (p.leave k (p.view m))

/-! ## The state file as a store of copies -/

omit [DecidableEq ι] in
def store : Copies.Store ι (List Job) where
  file := p.saved site
  copies k := (p.memories k).map Memory.copy

section Simulation

variable {site} {p} {p' : Processes ι W} {s : Sys W} {k : ι}

theorem store_adopt {current : Bool} (hfile : s.stateFile = p.stateFile) :
    (p.adopt k current s).store site = (p.store site).put k ⟨s.jobs, current⟩ := by
  have hcopies : ∀ j, ((p.adopt k current s).store site).copies j =
      ((p.store site).put k ⟨s.jobs, current⟩).copies j := by
    intro j
    simp only [store, adopt, Copies.Store.put, Function.update_apply]
    split <;> rfl
  rw [Copies.Store.mk.injEq]
  exact ⟨congrArg (·.getD site.queue) hfile, funext hcopies⟩

theorem store_publish (hfile : s.stateFile = some s.jobs) :
    (p.publish k s).store site = (p.store site).write k s.jobs := by
  have hcopies : ∀ j, ((p.publish k s).store site).copies j =
      ((p.store site).write k s.jobs).copies j := by
    intro j
    simp only [store, publish, Copies.Store.write]
    split
    · rfl
    · simp only [Option.map_map]
      rfl
  rw [Copies.Store.mk.injEq]
  exact ⟨congrArg (·.getD site.queue) hfile, funext hcopies⟩

theorem store_leave (hfile : s.stateFile = p.stateFile) :
    (p.leave k s).store site = (p.store site).drop k := by
  have hcopies : ∀ j, ((p.leave k s).store site).copies j = ((p.store site).drop k).copies j := by
    intro j
    simp only [store, leave, Copies.Store.drop, Function.update_apply]
    split <;> rfl
  rw [Copies.Store.mk.injEq]
  exact ⟨congrArg (·.getD site.queue) hfile, funext hcopies⟩

omit [DecidableEq ι] in
theorem copies_store {m : Memory} (hmemory : p.memories k = some m) :
    (p.store site).copies k = some m.copy :=
  congrArg (Option.map Memory.copy) hmemory

variable [Host W]

/-- What orderly processes do is, for the file, a step of a client or nothing. -/
theorem Acts.store_step (h : Acts site true p p') : p'.store site = p.store site ∨
    Copies.Step Progress (p.store site) (p'.store site) := by
  cases h with
  | world w => exact Or.inl rfl
  | @load k s hload =>
      obtain ⟨w, -, rfl⟩ := fromQueue_eq_ok hload
      right
      rw [store_adopt rfl]
      exact .read k
  | @move k m label s hmemory hmove hlabel horderly =>
      right
      have hfile : s.stateFile = p.stateFile := by
        rw [hmove.stateFile_eq]
        cases label <;> first | rfl | exact absurd rfl hlabel
      rw [store_adopt hfile]
      exact .work k (copies_store hmemory) hmove.turn.progress
  | @save k m s hmemory hmove horderly =>
      right
      cases hmove
      rw [store_publish rfl]
      exact .write k (copies_store hmemory) (horderly rfl)
  | breaksOff k hmemory hwreck =>
      right
      rw [store_leave hwreck.stateFile_eq]
      exact .drop k
  | ends k =>
      right
      rw [store_leave rfl]
      exact .drop k

/-- A start is by a process that is current, of a pending job whose dependencies are done. -/
theorem Acts.starts_cases (h : Acts site true p p') : p'.starts = p.starts ∨
    ∃ (k : ι) (m : Memory) (i : ℕ) (job : Job), p.memories k = some m ∧ m.current = true ∧
      p'.starts = i :: p.starts ∧ m.jobs[i]? = some job ∧ job.status = .pending ∧
      depsSatisfied m.jobs job = true := by
  have hnew : ∀ {i : ℕ} {starts : List ℕ}, starts = i :: p.starts → starts ≠ p.starts := by
    rintro i starts rfl hsame
    exact List.cons_ne_self i p.starts hsame
  cases h with
  | world w => exact Or.inl rfl
  | @load k s hload =>
      obtain ⟨w, -, rfl⟩ := fromQueue_eq_ok hload
      exact Or.inl rfl
  | @move k m label s hmemory hmove hlabel horderly =>
      have hstarts := hmove.starts_eq
      cases hmove with
      | @launch _ s₁ i job placement argv w w₂ now hchosen hstarted htime =>
          exact Or.inr ⟨k, m, i, job, hmemory, horderly rfl (hnew hstarts), hstarts, hchosen.found,
            hchosen.pending, hchosen.deps rfl⟩
      | _ => exact Or.inl hstarts
  | @save k m s hmemory hmove horderly =>
      cases hmove
      exact Or.inl rfl
  | @breaksOff k m s hmemory hwreck horderly =>
      cases hwreck with
      | lost _ hstarts => exact Or.inl hstarts
      | unstarted _ _ _ hstarts => exact Or.inl hstarts
      | killed _ _ _ hstarts => exact Or.inl hstarts
      | @started s₁ i job placement argv w hchosen hstarted _ hstarts =>
          have hone : s.starts = i :: p.starts := hstarts.trans hstarted.starts_eq.1
          exact Or.inr ⟨k, m, i, job, hmemory, horderly rfl (hnew hone), hone, hchosen.found,
            hchosen.pending, hchosen.deps rfl⟩
  | ends k => exact Or.inl rfl

end Simulation

/-! ## Runs -/

/-- What orderly processes keep: every copy has come from the queue, a current one from the
file as it is. -/
structure Coherent : Prop where
  fresh : Copies.Fresh Progress (p.store site)
  all : Copies.All (Progress site.queue) (p.store site)

section Runs

variable {site} {p p' : Processes ι W}

omit [DecidableEq ι] in
theorem coherent_start (hfile : p.stateFile = none) (hmemories : ∀ k, p.memories k = none) :
    Coherent site p := by
  have hcopies : ∀ k c, (p.store site).copies k ≠ some c := by
    intro k c hc
    have hnone : (p.store site).copies k = none := congrArg (Option.map Memory.copy) (hmemories k)
    rw [hnone] at hc
    cases hc
  have hsaved : (p.store site).file = site.queue := by
    rw [store, saved, hfile]
    rfl
  refine ⟨fun k c hc => absurd hc (hcopies k c), ?_, fun k c hc => absurd hc (hcopies k c)⟩
  rw [hsaved]
  exact .refl _

omit [DecidableEq ι] in
/-- A current memory has come from what is saved. -/
theorem Coherent.progress (h : Coherent site p) {k : ι} {m : Memory} (hmemory : p.memories k = some m)
    (hcurrent : m.current = true) : Progress (p.saved site) m.jobs :=
  h.fresh k _ (copies_store hmemory) hcurrent

variable [Host W]

theorem Coherent.acts (h : Coherent site p) (hacts : Acts site true p p') :
    Coherent site p' ∧ Progress (p.saved site) (p'.saved site) := by
  rcases hacts.store_step with hsame | hstep
  · have hfile : p'.saved site = p.saved site := congrArg Copies.Store.file hsame
    refine ⟨⟨hsame ▸ h.fresh, hsame ▸ h.all⟩, ?_⟩
    rw [hfile]
    exact .refl _
  · exact ⟨⟨h.fresh.step Progress.refl (fun _ _ _ => Progress.trans) hstep,
      h.all.step (fun _ _ hle hqueue => hqueue.trans hle) hstep⟩,
      h.fresh.le_of_step Progress.refl hstep⟩

theorem Coherent.run (h : Coherent site p) (hrun : ReflTransGen (Acts site true) p p') :
    Coherent site p' ∧ Progress (p.saved site) (p'.saved site) := by
  induction hrun with
  | refl => exact ⟨h, .refl _⟩
  | tail _ hacts ih =>
      obtain ⟨hcoherent, hprogress⟩ := ih
      obtain ⟨hnext, hlast⟩ := hcoherent.acts hacts
      exact ⟨hnext, hprogress.trans hlast⟩

/-- What is started while a job has ended for good is another job, and does not depend on it
unless it is done. -/
theorem Coherent.start_spares (h : Coherent site p) (hids : (site.queue.map Job.id).Nodup)
    {ended : Job} (hended : ended ∈ p.saved site) (hterminal : ended.status.terminal = true)
    (hacts : Acts site true p p') : p'.starts = p.starts ∨ ∃ i, p'.starts = i :: p.starts ∧
      ∀ queued, site.queue[i]? = some queued → queued.id ≠ ended.id ∧
        (ended.status ≠ .done → ended.id ∉ queued.dependsOn) := by
  rcases hacts.starts_cases with hsame | ⟨k, m, i, job, hmemory, hcurrent, hone, hjob, hpending, hdeps⟩
  · exact Or.inl hsame
  · refine Or.inr ⟨i, hone, fun queued hqueued => ?_⟩
    have hsettled : ended.status.settled = true := by
      rw [JobStatus.settled, hterminal]
      rfl
    have hmem : ended ∈ m.jobs := (h.progress hmemory hcurrent).mem_of_settled hended hsettled
    have hqueue : Progress site.queue m.jobs := h.all.copies k _ (copies_store hmemory)
    have hnodup : (m.jobs.map Job.id).Nodup := by
      rw [hqueue.ids]
      exact hids
    obtain ⟨job', hjob', hsame, -⟩ := hqueue.each i queued hqueued
    have hdeclared : job' = job := Option.some.inj (hjob'.symm.trans hjob)
    subst hdeclared
    obtain ⟨j, hj⟩ := List.mem_iff_getElem?.mp hmem
    refine ⟨fun hid => ?_, fun hnot hdep => ?_⟩
    · have hij : i = j := by
        by_contra hne
        exact id_ne_of_ne hnodup hjob hj hne (hsame.id.symm.trans hid)
      subst hij
      rw [hjob] at hj
      cases hj
      rw [hpending] at hterminal
      cases hterminal
    · rw [hsame.dependsOn] at hdep
      obtain ⟨upstream, hupstream, hid, hdone⟩ := depsSatisfied_done hdeps _ hdep
      obtain ⟨l, hl⟩ := List.mem_iff_getElem?.mp hupstream
      have hlj : l = j := by
        by_contra hne
        exact id_ne_of_ne hnodup hl hj hne hid
      subst hlj
      rw [hl] at hj
      cases hj
      exact hnot hdone

/-- What is saved as ended stays as it is and is never started again, and unless it is done
nothing that depends on it is started. -/
theorem Coherent.ended_stays (h : Coherent site p) (hids : (site.queue.map Job.id).Nodup)
    (hrun : ReflTransGen (Acts site true) p p') {ended : Job} (hended : ended ∈ p.saved site)
    (hterminal : ended.status.terminal = true) : ended ∈ p'.saved site ∧
      ∃ later, p'.starts = later ++ p.starts ∧ ∀ i ∈ later, ∀ queued, site.queue[i]? = some queued →
        queued.id ≠ ended.id ∧ (ended.status ≠ .done → ended.id ∉ queued.dependsOn) := by
  have hsettled : ended.status.settled = true := by
    rw [JobStatus.settled, hterminal]
    rfl
  refine ⟨(h.run hrun).2.mem_of_settled hended hsettled, ?_⟩
  induction hrun with
  | refl => exact ⟨[], rfl, fun i hi => absurd hi List.not_mem_nil⟩
  | tail hrun hacts ih =>
      obtain ⟨later, hlater, hspares⟩ := ih
      obtain ⟨hnext, hprogress⟩ := h.run hrun
      have hstill := hprogress.mem_of_settled hended hsettled
      rcases hnext.start_spares hids hstill hterminal hacts with hsame | ⟨i, hone, hspare⟩
      · exact ⟨later, hsame.trans hlater, hspares⟩
      · refine ⟨i :: later, by rw [hone, hlater]; rfl, fun l hl => ?_⟩
        rcases List.mem_cons.mp hl with rfl | hl
        · exact hspare
        · exact hspares l hl

end Runs

end Processes

/-- In any interleaving of the moves of any number of processes in which only current ones save and
start jobs, saved statuses move on only; and once a job is saved as ended it stays as it is, is
never started again, and unless it is done nothing that depends on it is ever started. -/
theorem orderly_processes {ι W : Type} [DecidableEq ι] [Host W] (site : Site)
    (hids : (site.queue.map Job.id).Nodup) (first p p' : Processes ι W) (hfile : first.stateFile = none)
    (hmemories : ∀ k, first.memories k = none)
    (hbefore : ReflTransGen (Processes.Acts site true) first p)
    (hafter : ReflTransGen (Processes.Acts site true) p p') :
    Progress (p.saved site) (p'.saved site) ∧
    ∀ ended ∈ p.saved site, ended.status.terminal = true → ended ∈ p'.saved site ∧
      ∃ later, p'.starts = later ++ p.starts ∧ ∀ i ∈ later, ∀ queued, site.queue[i]? = some queued →
        queued.id ≠ ended.id ∧ (ended.status ≠ .done → ended.id ∉ queued.dependsOn) := by
  obtain ⟨hcoherent, -⟩ := (Processes.coherent_start hfile hmemories).run hbefore
  exact ⟨(hcoherent.run hafter).2, fun _ => hcoherent.ended_stays hids hafter⟩

/-! ## One command after the other -/

namespace Processes

variable {ι W : Type} [DecidableEq ι] [Host W] {site : Site} {p : Processes ι W} {s s₁ s₂ : Sys W}

/-- What the processes share is that of a state. -/
def Shares (p : Processes ι W) (s : Sys W) : Prop :=
  p.stateFile = s.stateFile ∧ p.starts = s.starts ∧ p.world = s.world

/-- What a process does on its own, its copy current if the processes are orderly. -/
theorem path_acts {orderly : Bool} {kinds : Label → Bool} (k : ι)
    (hpath : ReflTransGen (Step site true kinds) s s₁) {m : Memory} (hmemory : p.memories k = some m)
    (hcurrent : orderly = true → m.current = true) (hview : p.view m = s) :
    ∃ p' m', ReflTransGen (Acts site orderly) p p' ∧ p'.memories k = some m' ∧
      (orderly = true → m'.current = true) ∧ p'.view m' = s₁ := by
  induction hpath with
  | refl => exact ⟨p, m, .refl, hmemory, hcurrent, hview⟩
  | @tail b c _ hstep ih =>
      obtain ⟨p', m', hacts, hmemory', hcurrent', rfl⟩ := ih
      obtain ⟨label, -, hmove⟩ := hstep
      by_cases hsave : label = .save
      · subst hsave
        refine ⟨p'.publish k c, ⟨c.jobs, c.cooldownUntil, c.procs, true⟩,
          hacts.tail (.save k hmemory' hmove hcurrent'), ?_, fun _ => rfl, rfl⟩
        exact if_pos rfl
      · refine ⟨p'.adopt k m'.current c, ⟨c.jobs, c.cooldownUntil, c.procs, m'.current⟩,
          hacts.tail (.move k hmemory' hmove hsave fun horderly _ => hcurrent' horderly),
          memories_adopt p' k m'.current c, hcurrent', rfl⟩

/-- A command that loads the state file and runs on its own is orderly. -/
theorem command_orderly {kinds : Label → Bool} (k : ι) (hshares : p.Shares s)
    (hload : fromQueue site { s with jobs := [], cooldownUntil := 0, procs := [] } = .ok () s₁)
    (hpath : ReflTransGen (Step site true kinds) s₁ s₂) :
    ∃ p', ReflTransGen (Acts site true) p p' ∧ p'.Shares s₂ := by
  obtain ⟨hfile, hstarts, hworld⟩ := hshares
  have hview : p.view ⟨[], 0, [], true⟩ = { s with jobs := [], cooldownUntil := 0, procs := [] } := by
    rw [view, hfile, hstarts, hworld]
  obtain ⟨p', m', hacts, -, -, rfl⟩ := @path_acts _ _ _ _ _ (p.adopt k true s₁) _ _ true _ k hpath _
    (memories_adopt p k true s₁) (fun _ => rfl) rfl
  exact ⟨p', .head (.load k (hview ▸ hload)) hacts, rfl, rfl, rfl⟩

end Processes

/-- A job and one that depends on it. -/
def chainSite : Site :=
  smallSite [{ id := "a", command := "true" }, { id := "b", command := "true", dependsOn := ["a"] }]

/-- A job is started by one command and killed by another; a third one skips what depends on it. -/
theorem orderly_processes_chain : ∃ p p' : Processes Bool World,
    (p.saved chainSite).map (fun job => (job.status, job.failureReason)) =
      [(.failed, "killed_by_user"), (.pending, "")] ∧
    (p'.saved chainSite).map Job.status = [.failed, .skipped] ∧
    Progress (p.saved chainSite) (p'.saved chainSite) ∧
    ∀ ended ∈ p.saved chainSite, ended.status.terminal = true → ended ∈ p'.saved chainSite ∧
      ∃ later, p'.starts = later ++ p.starts ∧ ∀ i ∈ later, ∀ queued, chainSite.queue[i]? = some queued →
        queued.id ≠ ended.id ∧ (ended.status ≠ .done → ended.id ∉ queued.dependsOn) := by
  let load (s : Sys World) := fromQueue chainSite { s with jobs := [], cooldownUntil := 0, procs := [] }
  obtain ⟨⟨⟩, s₁, hload₁, hrest⟩ := of_returns
    (show returns (load (fresh chainSite {})) (fun s₁ => returns (round chainSite s₁) fun s₂ =>
      returns (load s₂) fun s₃ => returns (kill "a" s₃) fun s₄ =>
      (s₄.stateFile.getD []).map (fun job => (job.status, job.failureReason)) ==
        [(.failed, "killed_by_user"), (.pending, "")] &&
      returns (load s₄) fun s₅ => returns (round chainSite s₅) fun s₆ =>
      (s₆.stateFile.getD []).map Job.status == [.failed, .skipped]) = true by decide +kernel)
  obtain ⟨⟨⟩, s₂, hround₁, hrest⟩ := of_returns hrest
  obtain ⟨⟨⟩, s₃, hload₂, hrest⟩ := of_returns hrest
  obtain ⟨killed, s₄, hkill, hrest⟩ := of_returns hrest
  rw [Bool.and_eq_true, beq_iff_eq] at hrest
  obtain ⟨hkilled, hrest⟩ := hrest
  obtain ⟨⟨⟩, s₅, hload₃, hrest⟩ := of_returns hrest
  obtain ⟨⟨⟩, s₆, hround₂, hskipped⟩ := of_returns hrest
  rw [beq_iff_eq] at hskipped
  -- the three commands, one after the other
  let first : Processes Bool World := { world := {}, memories := fun _ => none }
  obtain ⟨p₂, hrun₁, hshares₂⟩ := Processes.command_orderly (p := first) (s := fresh chainSite {}) false
    ⟨rfl, rfl, rfl⟩ hload₁ ((round_obeys chainSite).returns trivial hround₁).1
  obtain ⟨p₄, hrun₂, hshares₄⟩ := Processes.command_orderly true hshares₂ hload₂
    ((kill_obeys chainSite true "a").returns trivial hkill).1
  obtain ⟨p₆, hrun₃, hshares₆⟩ := Processes.command_orderly false hshares₄ hload₃
    ((round_obeys chainSite).returns trivial hround₂).1
  have hsome : ∀ {s : Sys World} {β : Type} {f : Job → β} {l : List β}, l ≠ [] →
      (s.stateFile.getD []).map f = l → (s.stateFile.getD chainSite.queue).map f = l := by
    intro s β f l hl hmap
    cases hfile : s.stateFile with
    | none =>
        rw [hfile] at hmap
        exact absurd hmap.symm hl
    | some jobs => simpa [hfile] using hmap
  refine ⟨p₄, p₆, ?_, ?_, orderly_processes chainSite (by decide) first p₄ p₆ rfl (fun _ => rfl)
    (hrun₁.trans hrun₂) hrun₃⟩
  · rw [Processes.saved, hshares₄.1]
    exact hsome (by simp) hkilled
  · rw [Processes.saved, hshares₆.1]
    exact hsome (by simp) hskipped

/-- A runner that has not seen the kill saves what it makes of the corpse. -/
example : returns (fromQueue chainSite (fresh chainSite {})) (fun s₁ => returns (round chainSite s₁) fun s₂ =>
    returns (fromQueue chainSite { s₂ with jobs := [], cooldownUntil := 0, procs := [] }) fun s₃ =>
    returns (kill "a" s₃) fun s₄ =>
    (s₄.stateFile.getD []).map Job.failureReason == ["killed_by_user", ""] &&
    returns (round chainSite { s₄ with
      jobs := s₂.jobs, procs := s₂.procs, world := { s₄.world with agenda := [[.exit 0 (-15)]] } }) fun s₅ =>
    (s₅.stateFile.getD []).map Job.failureReason == ["signal_15", "dependency_failed: a"]) = true := by
  decide +kernel

end Nodepilot
